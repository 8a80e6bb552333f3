/-
What a crash between two calls of the storage leaves: the storage after some of
the calls. As long as no event is pushed to a queue that ends in an event
without data, replaying it gives no id a second time.
-/
import Tdlib.TQueue.Replay

namespace Tdlib.Db.TQueue

open Outcome Function

/-! ## The calls of a storage -/

inductive Call
  | push (queueId : Int) (event : RawEvent)
  | pop (logEventId : Nat)
  | popBatch (logEventIds : List Nat)
  deriving DecidableEq, Repr

def Call.apply (m : MemoryStorage) : Call → MemoryStorage
  | push queueId event => (m.push queueId event).2
  | pop logEventId => m.pop logEventId
  | popBatch logEventIds => logEventIds.foldl (fun m logEventId => m.pop logEventId) m

def storageAfter (calls : List Call) : MemoryStorage := calls.foldl Call.apply {}

/-- The storage whose state is the calls it got. -/
def recorder : StorageCallback (List Call) where
  push queueId event calls := (((storageAfter calls).push queueId event).1, calls ++ [.push queueId event])
  pop logEventId calls := calls ++ [.pop logEventId]
  popBatch logEventIds calls := calls ++ [.popBatch logEventIds]

theorem storageAfter_concat (calls : List Call) (call : Call) :
    storageAfter (calls ++ [call]) = call.apply (storageAfter calls) := by
  simp [storageAfter]

theorem recorder_mirrors : MirrorsMemory recorder storageAfter :=
  ⟨fun _ _ _ => ⟨rfl, storageAfter_concat ..⟩, fun _ _ => storageAfter_concat .., fun _ _ => storageAfter_concat ..⟩

/-- A restart after the calls gives every queue a tail above all ids it had. -/
def Restarts (calls : List Call) : Prop :=
  ∃ t : TQueue MemoryStorage, (storageAfter calls).replay MemoryStorage.callback { callback := none } = .ok t ∧
    ∀ queueId event, Call.push queueId event ∈ calls → event.eventId.value < (t.getTail queueId).value

variable {queueId : Int} {start stop : EventId × Work (List Call)} {calls : List Call} {tails : Int → EventId}
  {events : Int → List RawEvent} {t t' : TQueue (List Call)}

/-! ## One call after the other -/

/-- A queue with an id to give, and with data in its last event. -/
def Plain : EventId × Work (List Call) → RawEvent → Prop := fun start event =>
  event.logEventId = 0 ∧ start.1.next.isSome = true ∧ ∀ e ∈ start.2.events.getLast?, e.data ≠ []

/-- What a change does to the calls: at most one more, which pushes no id above
the tail. -/
structure OneCall (queueId : Int) (start stop : EventId × Work (List Call)) (calls calls' : List Call) : Prop where
  callback : stop.2.callback = some calls'
  calls : calls' = calls ∨ ∃ call, calls' = calls ++ [call] ∧
    ∀ id event, call = .push id event → id = queueId ∧ event.key < stop.1.value
  tail_le : start.1.value ≤ stop.1.value

theorem OneCall.same (h : stop.2.callback = some calls) (htail : start.1.value ≤ stop.1.value) :
    OneCall queueId start stop calls calls :=
  ⟨h, .inl rfl, htail⟩

theorem OneCall.push {event : RawEvent} (h : stop.2.callback = some (calls ++ [.push queueId event]))
    (hlt : event.key < stop.1.value) (htail : start.1.value ≤ stop.1.value) :
    OneCall queueId start stop calls (calls ++ [.push queueId event]) :=
  ⟨h, .inr ⟨_, rfl, fun _ _ heq => by cases heq; exact ⟨rfl, hlt⟩⟩, htail⟩

theorem Change.oneCall (hchange : Change recorder Plain queueId start stop) (hcalls : start.2.callback = some calls)
    (hback : Backed storageAfter events queueId start.2)
    (hvalid : EventsValid start.1 start.2.events start.2.totalEventLength) :
    ∃ calls', OneCall queueId start stop calls calls' := by
  have hpos := @hback.logEventId_pos
  cases hchange with
  | @pop tailId work work' hstep =>
    cases hstep with
    | @mk pre post event total callback popped hpopped =>
      cases hpopped with
      | dropped hzero => exact absurd (hzero calls hcalls) (Nat.pos_iff_ne_zero.1 (hpos event (by simp)))
      | removed =>
        cases hcalls
        exact ⟨_, rfl, .inr ⟨_, rfl, fun _ _ heq => by cases heq⟩, Nat.le_refl _⟩
      | cleared _ hkey =>
        cases hcalls
        exact ⟨_, .push rfl (Nat.lt_of_succ_le (Nat.le_of_eq hkey)) (Nat.le_refl _)⟩
      | kept => exact ⟨_, .same hcalls (Nat.le_refl _)⟩
  | @clearLast tailId pre event total s =>
    cases hcalls
    exact ⟨_, .push rfl (hvalid.below event (by simp)) (Nat.le_refl _)⟩
  | delete =>
    cases hcalls
    exact ⟨_, rfl, .inr ⟨_, rfl, fun _ _ heq => by cases heq⟩, Nat.le_refl _⟩
  | @append _ tailId tailId' work event hprep _ hplain hacc =>
    obtain ⟨hzero, hnext, hlast⟩ := hplain
    have hwork : work = start.2 ∧ start.1.value ≤ tailId.value := by
      cases hprep with
      | ready => exact ⟨rfl, Nat.le_refl _⟩
      | first hfirst => exact ⟨rfl, by dsimp only; omega⟩
      | wrapped hnone => rw [hnone] at hnext; cases hnext
    obtain ⟨rfl, hle⟩ := hwork
    have hcallback : (appended recorder queueId event start.2).callback = some (calls ++ [.push queueId event]) := by
      unfold appended stored
      dsimp only
      rw [dropEmptyLast_of_filled hlast, if_pos hzero, hcalls]
      rfl
    have hlt := hacc.key_lt
    exact ⟨_, .push hcallback hlt (Nat.le_trans hle (Nat.le_trans hacc.le (Nat.le_of_lt hlt)))⟩

/-- The queue `queueId` is worked on, the others have `tails` and `events`: every
number of the calls so far is one a restart is safe after. -/
structure Safe (tails : Int → EventId) (events : Int → List RawEvent) (queueId : Int)
    (state : EventId × Work (List Call))
    (calls : List Call) : Prop where
  callback : state.2.callback = some calls
  total_eq : state.2.totalEventLength = dataLength state.2.events
  restorable : Restorable (storageAfter calls) (update tails queueId state.1)
    (update events queueId state.2.events)
  pushed : ∀ id event, Call.push id event ∈ calls → event.key < (update tails queueId state.1 id).value
  before : ∀ n, Restarts (calls.take n)

theorem Restorable.restarts (h : Restorable (storageAfter calls) tails events)
    (hpushed : ∀ id event, Call.push id event ∈ calls → event.key < (tails id).value) : Restarts calls := by
  obtain ⟨t, hreplay, hqueues⟩ := replay_spec h MemoryStorage.callback none
  refine ⟨t, hreplay, fun id event hmem => ?_⟩
  rw [getTail_eq, (hqueues id).1]
  exact hpushed id event hmem

section

variable (h : Safe tails events queueId start calls)

include h

theorem Safe.eventsValid : EventsValid start.1 start.2.events start.2.totalEventLength := by
  have hvalid := h.restorable.valid queueId
  simpa [update_self, h.total_eq] using hvalid

theorem Safe.change (hchange : Change recorder Plain queueId start stop) :
    ∃ calls', Safe tails events queueId stop calls' := by
  have hfresh : Change recorder Op.Fresh queueId start stop := hchange.mono fun _ _ hplain => hplain.1
  have hback : Backed storageAfter events queueId start.2 := ⟨calls, h.callback, h.restorable.stores⟩
  have hlinked := h.restorable.linked queueId
  rw [update_self, update_self] at hlinked
  obtain ⟨calls', hone⟩ := hchange.oneCall h.callback hback h.eventsValid
  have hvalid := hchange.eventsValid h.eventsValid
  have hrestorable : Restorable (storageAfter calls') (update tails queueId stop.1)
      (update events queueId stop.2.events) := by
    obtain ⟨s, hs, hstores⟩ := hfresh.backed recorder_mirrors hback
    cases hone.callback.symm.trans hs
    refine ⟨hstores, fun id => ?_, fun id => ?_⟩
    all_goals by_cases hid : id = queueId
    · subst hid
      rw [update_self, update_self]
      exact hfresh.linked hback hlinked
    · have := h.restorable.linked id
      rwa [update_of_ne hid, update_of_ne hid] at this ⊢
    · subst hid
      simp [update_self, ← hvalid.total_eq, hvalid]
    · have := h.restorable.valid id
      rwa [update_of_ne hid, update_of_ne hid] at this ⊢
  have hold : ∀ id event, Call.push id event ∈ calls → event.key < (update tails queueId stop.1 id).value := by
    intro id event hmem
    have hlt := h.pushed id event hmem
    by_cases hid : id = queueId
    · subst hid
      rw [update_self] at hlt ⊢
      exact Nat.lt_of_lt_of_le hlt hone.tail_le
    · rwa [update_of_ne hid] at hlt ⊢
  rcases hone.calls with rfl | ⟨call, rfl, hcall⟩
  · exact ⟨_, hone.callback, hvalid.total_eq, hrestorable, hold, h.before⟩
  · have hpushed : ∀ id event, Call.push id event ∈ calls ++ [call] →
        event.key < (update tails queueId stop.1 id).value := by
      intro id event hmem
      rcases List.mem_append.1 hmem with hmem | hmem
      · exact hold id event hmem
      · obtain ⟨rfl, hlt⟩ := hcall id event (List.mem_singleton.1 hmem).symm
        rwa [update_self]
    refine ⟨_, hone.callback, hvalid.total_eq, hrestorable, hpushed, fun n => ?_⟩
    by_cases hn : n ≤ calls.length
    · rw [List.take_append_of_le_length hn]
      exact h.before n
    · rw [List.take_of_length_le (by simp; omega)]
      exact hrestorable.restarts hpushed

theorem Safe.changes
    (hchanges : Changes recorder Plain queueId start stop) : ∃ calls', Safe tails events queueId stop calls' := by
  induction hchanges with
  | refl => exact ⟨calls, h⟩
  | tail _ hchange ih =>
    obtain ⟨_, hsafe⟩ := ih
    exact hsafe.change hchange

end

/-! ## Runs -/

/-- The same between two changes. -/
structure SafeState (t : TQueue (List Call)) (calls : List Call) : Prop where
  callback : t.callback = some calls
  restorable : Restorable (storageAfter calls) (Queue.tailId ∘ t.queueOf) (Queue.events ∘ t.queueOf)
  pushed : ∀ id event, Call.push id event ∈ calls → event.key < (t.queueOf id).tailId.value
  before : ∀ n, Restarts (calls.take n)

theorem SafeState.empty : SafeState { callback := some [] } [] := by
  have hrestorable : Restorable {} (fun _ => .zero) (fun _ => []) :=
    ⟨.empty, fun _ => .inl ⟨rfl, rfl⟩, fun _ => .nil _⟩
  have hpushed : ∀ id event, Call.push id event ∈ [] → event.key < EventId.zero.value := by simp
  refine ⟨rfl, hrestorable, hpushed, fun n => ?_⟩
  rw [List.take_nil]
  exact (show Restorable (storageAfter []) _ _ from hrestorable).restarts hpushed

theorem SafeState.effect (h : SafeState t calls) (hvalid : Valid t) (heffect : Effect recorder Plain t t') :
    ∃ calls', SafeState t' calls' := by
  cases heffect with
  | @mk queueId q queueGcAt callback hchanges _ _ =>
    have hsafe : Safe (Queue.tailId ∘ t.queueOf) (Queue.events ∘ t.queueOf) queueId
        ((t.queueOf queueId).state t.callback) calls := by
      refine ⟨h.callback, (hvalid.queueOf queueId).total_eq, ?_, fun id event hmem => ?_, h.before⟩
      · convert h.restorable using 1 <;> exact update_eq_self queueId _
      · convert h.pushed id event hmem using 2
        exact congrFun (update_eq_self queueId _) id
    obtain ⟨calls', hsafe'⟩ := hsafe.changes hchanges
    have hqueues := queueOf_update t queueId q queueGcAt callback
    refine ⟨calls', hsafe'.callback, ?_, fun id event hmem => ?_, hsafe'.before⟩
    · rw [hqueues, comp_update, comp_update]
      exact hsafe'.restorable
    · have hlt := hsafe'.pushed id event hmem
      rw [hqueues]
      rwa [show (q.state callback).1 = q.tailId from rfl, ← comp_update] at hlt

theorem SafeState.effects (h : SafeState t calls) (hvalid : Valid t) (heffects : Effects recorder Plain t t') :
    Valid t' ∧ ∃ calls', SafeState t' calls' := by
  induction heffects with
  | refl => exact ⟨hvalid, calls, h⟩
  | tail _ heffect ih =>
    obtain ⟨hvalid', _, hsafe⟩ := ih
    exact ⟨hvalid'.effect heffect, hsafe.effect hvalid' heffect⟩

/-- The ids of the queue of a `push` that is not refused are not used up. -/
def Op.InRange (t : TQueue (List Call)) : Op → Prop
  | push queueId data expiresAt _ _ _ => Pushable t queueId data expiresAt →
    (t.queueOf queueId).tailId.next.isSome = true
  | _ => True

/-- A `push` that is not refused finds data in the last event of its queue. -/
def Op.Steady (t : TQueue (List Call)) : Op → Prop
  | push queueId data expiresAt _ _ _ => Pushable t queueId data expiresAt →
    ∀ e ∈ (t.queueOf queueId).events.getLast?, e.data ≠ []
  | _ => True

instance (t : TQueue (List Call)) (op : Op) : Decidable (op.InRange t) :=
  match op with
  | .push .. => inferInstanceAs (Decidable (_ → _ = true))
  | .get .. | .forget .. | .clear .. | .runGc .. => inferInstanceAs (Decidable True)

instance (t : TQueue (List Call)) (op : Op) : Decidable (op.Steady t) :=
  match op with
  | .push .. => inferInstanceAs (Decidable (_ → ∀ e ∈ _, _))
  | .get .. | .forget .. | .clear .. | .runGc .. => inferInstanceAs (Decidable True)

theorem Op.adds_plain {op : Op} (hrange : op.InRange t) (hsteady : op.Steady t) : op.Adds Plain t := by
  cases op with
  | push => exact fun hpushable _ hzero => ⟨hzero, hrange hpushable, hsteady hpushable⟩
  | get | forget | clear | runGc => trivial

/-- Runs of operations that all meet a condition. -/
inductive RecordedRun (condition : TQueue (List Call) → Op → Prop) : TQueue (List Call) → Prop
  | start : RecordedRun condition { callback := some [] }
  | step {t t' : TQueue (List Call)} {op : Op} : RecordedRun condition t → condition t op → op.run recorder t = .ok t' →
    RecordedRun condition t'

/-- **Restart.** In every run in which no queue runs out of ids and no `push`
finds an event without data at the end of its queue, a restart after any number
of the calls gives every queue a tail above all ids it had. -/
theorem restart_safe (h : RecordedRun (fun t op => op.InRange t ∧ op.Steady t) t) :
    ∃ calls, t.callback = some calls ∧ ∀ n, Restarts (calls.take n) := by
  have hsafe : Valid t ∧ ∃ calls, SafeState t calls := by
    induction h with
    | start => exact ⟨.empty _, [], .empty⟩
    | step _ hcondition hrun ih =>
      obtain ⟨hvalid, calls, hsafe⟩ := ih
      exact hsafe.effects hvalid (Op.run_effects hvalid (Op.adds_plain hcondition.1 hcondition.2) hrun)
  obtain ⟨-, calls, hsafe⟩ := hsafe
  exact ⟨calls, hsafe.callback, hsafe.before⟩

theorem sampleId_lt : 2000001 < maxId := by decide

def samplePush (data : Bytes) (expiresAt : Int) : Op := .push 5 data expiresAt 0 .zero sampleRandom

/-- The first event of the queue 5 is forgotten. -/
def sampleForget : Op := .forget 5 ⟨2000001, sampleId_lt⟩

def recordedOne : TQueue (List Call) :=
  ((samplePush [1] 10).run recorder { callback := some [] }).get (by decide +kernel)

def recordedTwo : TQueue (List Call) := ((samplePush [2] 20).run recorder recordedOne).get (by decide +kernel)

def recordedThree : TQueue (List Call) := (sampleForget.run recorder recordedTwo).get (by decide +kernel)

/-- Two events, of which the first is forgotten. -/
theorem restart_safe_sample :
    ∃ calls, recordedThree.callback = some calls ∧ calls.length = 3 ∧ ∀ n, Restarts (calls.take n) := by
  have hone : RecordedRun (fun t op => op.InRange t ∧ op.Steady t) recordedOne :=
    .step .start ⟨by decide +kernel, by decide +kernel⟩ (eq_ok_get _ _)
  have htwo : RecordedRun (fun t op => op.InRange t ∧ op.Steady t) recordedTwo :=
    .step hone ⟨by decide +kernel, by decide +kernel⟩ (eq_ok_get _ _)
  have hthree : RecordedRun (fun t op => op.InRange t ∧ op.Steady t) recordedThree :=
    .step htwo ⟨by decide +kernel, by decide +kernel⟩ (eq_ok_get _ _)
  obtain ⟨calls, hcalls, hsafe⟩ := restart_safe hthree
  have hlength : recordedThree.callback.map List.length = some 3 := by decide +kernel
  simp_all

def clearedOne : TQueue (List Call) := (sampleForget.run recorder recordedOne).get (by decide +kernel)

def clearedTwo : TQueue (List Call) := ((samplePush [2] 20).run recorder clearedOne).get (by decide +kernel)

/-- The only event of a queue is forgotten, and the next one is pushed: after the
event without data is taken out of the storage, the ids of the queue are not in
it. -/
theorem restart_reissues :
    ∃ calls, RecordedRun (fun t op => op.InRange t) clearedTwo ∧ clearedTwo.callback = some calls ∧
      ¬ Restarts (calls.take 3) := by
  have hone : RecordedRun (fun t op => op.InRange t) recordedOne :=
    .step .start (by decide +kernel) (eq_ok_get _ _)
  have htwo : RecordedRun (fun t op => op.InRange t) clearedOne := .step hone (by decide +kernel)
    (eq_ok_get _ _)
  have hthree : RecordedRun (fun t op => op.InRange t) clearedTwo :=
    .step htwo (by decide +kernel) (eq_ok_get _ _)
  refine ⟨(clearedTwo.callback).getD [], hthree, by decide +kernel, ?_⟩
  intro ⟨t, hreplay, hpushed⟩
  have hempty : storageAfter ((clearedTwo.callback.getD []).take 3) = { nextLogEventId := 2 } := by decide +kernel
  cases hreplay
  have hlt := hpushed 5 ⟨0, ⟨2000001, sampleId_lt⟩, 10, [1], 0⟩ (by decide +kernel)
  cases hlt

end Tdlib.Db.TQueue
