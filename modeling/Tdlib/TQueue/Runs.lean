/-
Runs of a `TQueue`: any operations one after the other, with or without a
storage. In every state they reach the queues are consistent, and no operation
aborts.
-/
import Tdlib.TQueue.Operations

namespace Tdlib.Db.TQueue

open Outcome

variable {σ : Type} {S : StorageCallback σ} {adds : EventId × Work σ → RawEvent → Prop} {t t' : TQueue σ}

/-! ## Operations -/

/-- The calls of a `TQueue`, each with the random number or the readings of the
clock it gets. -/
inductive Op
  | push (queueId : Int) (data : Bytes) (expiresAt extra : Int) (hintNewId : EventId) (random : RandomId)
  | get (queueId : Int) (fromId : EventId) (forgetPrevious : Bool) (unixTimeNow : Int) (room : Nat)
  | forget (queueId : Int) (eventId : EventId)
  | clear (queueId : Int) (keepCount : Nat)
  | runGc (unixTimeNow : Int) (deadline : Nat)

namespace Op

def run (S : StorageCallback σ) (t : TQueue σ) : Op → Outcome (TQueue σ)
  | push queueId data expiresAt extra hintNewId random => do
    let pushed ← t.push S queueId data expiresAt extra hintNewId random
    pure pushed.2
  | get queueId fromId forgetPrevious unixTimeNow room => do
    let got ← t.get S queueId fromId forgetPrevious unixTimeNow room
    pure got.2.2
  | forget queueId eventId => t.forget S queueId eventId
  | clear queueId keepCount => do
    let cleared ← t.clear S queueId keepCount
    pure cleared.2
  | runGc unixTimeNow deadline => do
    let ran ← t.runGc S unixTimeNow deadline
    pure ran.2.2

/-- The hint of a `push` has an id after it. -/
def Hinted : Op → Prop
  | push _ _ _ _ hintNewId _ => hintNewId.next.isSome = true
  | _ => True

/-- `adds` allows the event of a `push` that is not refused. -/
def Adds (adds : EventId × Work σ → RawEvent → Prop) (t : TQueue σ) : Op → Prop
  | push queueId data expiresAt _ _ _ => Pushable t queueId data expiresAt →
    ∀ event, event.logEventId = 0 → adds ((t.queueOf queueId).state t.callback) event
  | _ => True

theorem run_spec (h : Valid t) (op : Op) (hadds : op.Adds adds t) :
    (op.run S t = .fatal ∧ ¬ op.Hinted) ∨ ∃ t', op.run S t = .ok t' ∧ Effects S adds t t' := by
  cases op with
  | push queueId data expiresAt extra hintNewId random =>
    rcases push_spec (S := S) h queueId data expiresAt extra hintNewId random hadds with
      ⟨hfatal, hhint⟩ | ⟨_, t', hpush, heffects⟩
    · exact .inl ⟨by simp [run, hfatal], by simp [Hinted, hhint]⟩
    · exact .inr ⟨t', by simp [run, hpush], heffects⟩
  | get queueId fromId forgetPrevious unixTimeNow room =>
    obtain ⟨_, _, t', hget, heffects⟩ := get_spec (S := S) h queueId fromId forgetPrevious unixTimeNow room
    exact .inr ⟨t', by simp [run, hget], heffects⟩
  | forget queueId eventId => exact .inr (forget_spec h queueId eventId)
  | clear queueId keepCount =>
    obtain ⟨_, t', hclear, heffects⟩ := clear_spec (S := S) h queueId keepCount
    exact .inr ⟨t', by simp [run, hclear], heffects⟩
  | runGc unixTimeNow deadline =>
    obtain ⟨_, _, t', hgc, heffects⟩ := runGc_spec (S := S) h unixTimeNow deadline
    exact .inr ⟨t', by simp [run, hgc], heffects⟩

theorem run_effects {op : Op} (h : Valid t) (hadds : op.Adds adds t) (hrun : op.run S t = .ok t') :
    Effects S adds t t' := by
  rcases run_spec (S := S) h op hadds with ⟨hfatal, _⟩ | ⟨_, hok, heffects⟩
  · rw [hfatal] at hrun
    cases hrun
  · rw [hok] at hrun
    cases hrun
    exact heffects

/-- The storage does not know the events that operations add. -/
def Fresh : EventId × Work σ → RawEvent → Prop := fun _ event => event.logEventId = 0

theorem adds_fresh (op : Op) (t : TQueue σ) : op.Adds Fresh t := by
  cases op with
  | push => exact fun _ _ hzero => hzero
  | get | forget | clear | runGc => trivial

end Op

/-- The operations one after the other. -/
def runOps (S : StorageCallback σ) (ops : List Op) (t : TQueue σ) : Outcome (TQueue σ) :=
  ops.foldlM (fun t op => op.run S t) t

/-! ## Reachable states -/

/-- The states of a `TQueue`: an operation, `do_push` for a replay, or another
storage. -/
inductive Reachable (S : StorageCallback σ) : TQueue σ → Prop
  | start (callback : Option σ) : Reachable S { callback }
  | op {t t' : TQueue σ} {op : Op} : Reachable S t → op.run S t = .ok t' → Reachable S t'
  | doPush {t t' : TQueue σ} {queueId : Int} {event : RawEvent} {added : Bool} : Reachable S t →
    t.doPush S queueId event = .ok (added, t') → Reachable S t'
  | setCallback {t : TQueue σ} (callback : Option σ) : Reachable S t → Reachable S { t with callback }

theorem Reachable.valid (h : Reachable S t) : Valid t := by
  induction h with
  | start callback => exact .empty callback
  | op _ hrun ih => exact ih.effects (Op.run_effects ih (Op.adds_fresh _ _) hrun)
  | @doPush t t' queueId event _ _ hpush ih =>
    rcases doPush_spec (S := S) ih queueId event with ⟨hfatal, _⟩ | ⟨_, _, hok, heffects⟩
    · rw [hfatal] at hpush
      cases hpush
    · rw [hok] at hpush
      cases hpush
      exact ih.effects heffects
  | setCallback _ _ ih => exact ⟨ih.events, ih.scheduled, ih.looked⟩

theorem Reachable.runOps {ops : List Op} (h : Reachable S t) (hrun : runOps S ops t = .ok t') : Reachable S t' :=
  Outcome.foldlM_inv (fun hb hstep => .op hb hstep) h hrun

/-- The pieces of a queue fit together, and with `queue_gc_at_`. -/
structure Consistent (t : TQueue σ) (queueId : Int) (q : Queue) : Prop where
  total_eq : q.totalEventLength = (q.events.map (·.data.length)).sum
  total_le : q.totalEventLength ≤ maxTotalEventLength
  increasing : q.events.Pairwise fun e e' => e.eventId.value < e'.eventId.value
  below : ∀ e ∈ q.events, e.eventId.value < q.tailId.value
  addable : ∀ e ∈ q.events, Addable e
  filled : ∀ e ∈ q.events.dropLast, e.data ≠ []
  scheduled : q.gcAt ≠ 0 ↔ (q.gcAt, queueId) ∈ t.queueGcAt
  looked : (∃ e ∈ q.events, e.data ≠ []) → q.gcAt ≠ 0

theorem Valid.consistent {queueId : Int} {q : Queue} (h : Valid t) (hq : t.queues queueId = some q) :
    Consistent t queueId q := by
  have hevents := h.events hq
  refine ⟨hevents.total_eq, hevents.total_le, hevents.sorted, hevents.below,
    fun e he => ⟨Nat.pos_iff_ne_zero.1 (hevents.positive e he), hevents.haveNext e he⟩, fun e he => ?_, ?_, h.looked hq⟩
  · obtain ⟨last, hlast⟩ : ∃ last, q.events = q.events.dropLast ++ [last] :=
      ⟨_, (List.dropLast_append_getLast fun hnil => by rw [hnil] at he; cases he).symm⟩
    have hfilled := hevents.filled
    rw [hlast] at hfilled
    exact (List.pairwise_append.1 hfilled).2.2 e he last (List.mem_singleton_self _)
  · rw [h.scheduled, gcAtOf_eq, queueOf_eq hq]
    exact (and_iff_left rfl).symm

/-- **Consistency.** In every reachable state the queues are consistent, only
they are looked at, and no operation aborts. -/
theorem reachable_consistent (h : Reachable S t) : (∀ queueId q, t.queues queueId = some q → Consistent t queueId q) ∧
    (∀ gcAt queueId, (gcAt, queueId) ∈ t.queueGcAt → ∃ q, t.queues queueId = some q ∧ q.gcAt = gcAt) ∧
    (∀ op : Op, op.Hinted → ∃ t', op.run S t = .ok t') ∧
    (∀ queueId event, Addable event → ∃ added t', t.doPush S queueId event = .ok (added, t')) := by
  have hvalid := h.valid
  refine ⟨fun queueId q hq => hvalid.consistent hq, fun gcAt queueId hmem => ?_, fun op hop => ?_,
    fun queueId event hadd => ?_⟩
  · obtain ⟨hne, hgc⟩ := (hvalid.scheduled gcAt queueId).1 hmem
    unfold gcAtOf at hgc
    cases hq : t.queues queueId with
    | none =>
      rw [hq] at hgc
      exact absurd hgc.symm hne
    | some q =>
      simpa [hq] using hgc
  · rcases Op.run_spec (S := S) hvalid op (op.adds_fresh t) with ⟨_, hnot⟩ | ⟨t', hrun, _⟩
    · exact absurd hop hnot
    · exact ⟨t', hrun⟩
  · rcases doPush_spec (S := S) hvalid queueId event with ⟨_, hnot⟩ | ⟨added, t', hpush, _⟩
    · exact absurd hadd hnot
    · exact ⟨added, t', hpush⟩

theorem sampleRandom_ge : 2 * max maxQueueEvents 1000000 + 1 ≤ 2000001 := by decide

theorem sampleRandom_le : 2000001 ≤ maxId / 2 := by decide

def sampleRandom : RandomId := ⟨2000001, sampleRandom_ge, sampleRandom_le⟩

/-- Two queues; events of the first expire, and the second one is cleared. -/
def sampleOps : List Op :=
  [.push 5 [1, 2, 3] 10 0 .zero sampleRandom, .push 5 [4] 20 7 .zero sampleRandom,
    .push (-6) [5] 30 0 .zero sampleRandom,
    .runGc 15 3, .clear (-6) 0, .get 5 .zero true 16 1]

def sampleState : TQueue MemoryStorage :=
  (runOps MemoryStorage.callback sampleOps { callback := some {} }).get (by decide +kernel)

theorem reachable_consistent_sample :
    (sampleState.queueOf 5).events.length = 1 ∧ Consistent sampleState 5 (sampleState.queueOf 5) := by
  have hreach : Reachable MemoryStorage.callback sampleState :=
    (Reachable.start (some {})).runOps (eq_ok_get _ _)
  exact ⟨by decide +kernel, (reachable_consistent hreach).1 5 _ (by decide +kernel)⟩

end Tdlib.Db.TQueue
