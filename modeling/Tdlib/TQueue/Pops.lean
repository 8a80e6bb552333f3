/-
What `pop` does to an event, and that every loop that takes events out of a
queue is a sequence of `pop`s, each of some event of the queue.
-/
import Tdlib.TQueue.Core

namespace Tdlib.Db

open Outcome List

theorem EventId.ext {a b : EventId} (h : a.value = b.value) : a = b := by
  cases a; cases b; cases h; rfl

theorem EventId.next_eq_some {a b : EventId} : a.next = some b ↔ a.value + 1 = b.value := by
  unfold next fromInt32
  constructor
  · intro h
    split at h
    · cases h; rfl
    · cases h
  · intro h
    have hlt : a.value + 1 < maxId := by rw [h]; exact b.value_lt
    simp_all

theorem EventId.next_isSome {a : EventId} : a.next.isSome = true ↔ a.value + 1 < maxId := by
  unfold next fromInt32
  split <;> simp_all

namespace TQueue

variable {σ : Type} {S : StorageCallback σ} {queueId : Int} {tailId fromId : EventId} {event : RawEvent}
  {events pre post : List RawEvent} {total : Nat} {callback : Option σ}

/-! ## `pop` -/

/-- What `pop` does. -/
inductive Popped (S : StorageCallback σ) (queueId : Int) (tailId : EventId) (event : RawEvent) (total : Nat) :
    Option σ → Option RawEvent × Nat × Option σ → Prop
  | dropped {callback : Option σ} : (∀ s, callback = some s → event.logEventId = 0) →
    Popped S queueId tailId event total callback (none, sizeSub total event.data.length, callback)
  | removed {s : σ} : event.logEventId ≠ 0 → event.key + 1 ≠ tailId.value →
    Popped S queueId tailId event total (some s)
      (none, sizeSub total event.data.length, some (S.pop event.logEventId s))
  | cleared {s : σ} : event.logEventId ≠ 0 → event.key + 1 = tailId.value → event.data ≠ [] →
    Popped S queueId tailId event total (some s)
      (some { event with data := [] }, sizeSub total event.data.length,
        some (S.push queueId { event with data := [] } s).2)
  | kept {s : σ} : event.logEventId ≠ 0 → event.key + 1 = tailId.value → event.data = [] →
    Popped S queueId tailId event total (some s) (some event, total, some s)

variable {popped : Option RawEvent × Nat × Option σ} {work work' : Work σ}

theorem Popped.data_nil {e : RawEvent}
    (h : Popped S queueId tailId event total callback popped) (he : e ∈ popped.1.toList) : e.data = [] := by
  cases h with
  | dropped | removed => cases he
  | cleared => rw [mem_singleton.1 he]
  | kept _ _ hdata => rw [mem_singleton.1 he]; exact hdata

theorem pop_spec (total : Nat) (callback : Option σ) (h : event.eventId.next.isSome = true) :
    ∃ popped, pop S queueId tailId event total callback = .ok popped ∧
      Popped S queueId tailId event total callback popped := by
  obtain ⟨next, hnext⟩ := Option.isSome_iff_exists.1 h
  have hvalue := EventId.next_eq_some.1 hnext
  unfold pop
  cases callback with
  | none => exact ⟨_, rfl, .dropped (by simp)⟩
  | some s =>
    dsimp only
    split
    next hlog => exact ⟨_, rfl, .dropped fun _ _ => hlog⟩
    next hlog =>
      rw [hnext]
      dsimp only
      split
      next heq =>
        have hkey : event.key + 1 = tailId.value := by rw [← heq]; exact hvalue
        split
        next hdata => exact ⟨_, rfl, .cleared hlog hkey hdata⟩
        next hdata => exact ⟨_, rfl, .kept hlog hkey (not_not.1 hdata)⟩
      next hne =>
        refine ⟨_, rfl, .removed hlog fun heq => hne (EventId.ext ?_)⟩
        rw [← hvalue]
        exact heq

/-! ## Sequences of `pop` -/

/-- One event of a queue is taken out. -/
inductive PopStep (S : StorageCallback σ) (queueId : Int) (tailId : EventId) : Work σ → Work σ → Prop
  | mk {pre post : List RawEvent} {event : RawEvent} {total : Nat} {callback : Option σ}
    {popped : Option RawEvent × Nat × Option σ} : Popped S queueId tailId event total callback popped →
    PopStep S queueId tailId ⟨pre ++ event :: post, total, callback⟩
      ⟨pre ++ (popped.1.toList ++ post), popped.2.1, popped.2.2⟩

def Pops (S : StorageCallback σ) (queueId : Int) (tailId : EventId) : Work σ → Work σ → Prop :=
  Relation.ReflTransGen (PopStep S queueId tailId)

theorem Pops.refl (work : Work σ) : Pops S queueId tailId work work := Relation.ReflTransGen.refl

theorem Pops.inv {I : Work σ → Prop}
    (keeps : ∀ {w w'}, I w → PopStep S queueId tailId w w' → I w') (h : Pops S queueId tailId work work')
    (hI : I work) : I work' := by
  induction h with
  | refl => exact hI
  | tail _ hstep ih => exact keeps ih hstep

theorem Pops.prepend (h : Pops S queueId tailId work work') (pre : List RawEvent) :
    Pops S queueId tailId { work with events := pre ++ work.events } { work' with events := pre ++ work'.events } := by
  induction h with
  | refl => exact .refl _
  | tail _ hstep ih =>
    refine ih.tail ?_
    cases hstep with
    | @mk front post event total callback popped hpopped =>
      have hstep : PopStep S queueId tailId ⟨pre ++ front ++ event :: post, total, callback⟩
          ⟨pre ++ front ++ (popped.1.toList ++ post), popped.2.1, popped.2.2⟩ := .mk hpopped
      rwa [append_assoc, append_assoc] at hstep

theorem Pops.head (hpopped : Popped S queueId tailId event total callback popped)
    (h : Pops S queueId tailId ⟨events, popped.2.1, popped.2.2⟩ work) :
    Pops S queueId tailId ⟨event :: events, total, callback⟩ { work with events := popped.1.toList ++ work.events } :=
  Relation.ReflTransGen.head
    (show PopStep S queueId tailId ⟨[] ++ event :: events, total, callback⟩
      ⟨[] ++ (popped.1.toList ++ events), popped.2.1, popped.2.2⟩ from .mk hpopped)
    (h.prepend popped.1.toList)

/-! ## The loops -/

/-- All events have an id after them. -/
def HaveNext (events : List RawEvent) : Prop := ∀ event ∈ events, event.eventId.next.isSome = true

theorem HaveNext.head (h : HaveNext (event :: events)) :
    event.eventId.next.isSome = true := h event (mem_cons_self ..)

theorem HaveNext.tail (h : HaveNext (event :: events)) : HaveNext events := fun e he => h e (mem_cons_of_mem _ he)

theorem Popped.eq_none (h : Popped S queueId .zero event total callback popped) : popped.1 = none := by
  cases h with
  | dropped | removed => rfl
  | cleared _ hkey | kept _ hkey => exact absurd hkey (Nat.succ_ne_zero _)

theorem popAll_spec (queueId : Int) (h : HaveNext events) (total : Nat) (callback : Option σ) :
    ∃ work, popAll S queueId .zero events total callback = .ok work ∧
      Pops S queueId .zero ⟨events, total, callback⟩ work ∧ work.events = [] := by
  induction events generalizing total callback with
  | nil => exact ⟨_, rfl, .refl _, rfl⟩
  | cons event events ih =>
    obtain ⟨popped, hpop, hpopped⟩ := pop_spec (S := S) total callback h.head
    obtain ⟨work, hrest, hpops, hnil⟩ := ih h.tail popped.2.1 popped.2.2
    refine ⟨_, ?_, Pops.head hpopped hpops, ?_⟩
    · simp [popAll, popThen, hpop, ok_bind, hrest]
    · rw [hpopped.eq_none, hnil]
      rfl

theorem popBefore_spec (queueId : Int) (tailId : EventId) (h : HaveNext events) (fromId : EventId) (total : Nat)
    (callback : Option σ) : ∃ work, popBefore S queueId tailId fromId events total callback = .ok work ∧
      Pops S queueId tailId ⟨events, total, callback⟩ work := by
  induction events generalizing total callback with
  | nil => exact ⟨_, rfl, .refl _⟩
  | cons event events ih =>
    simp only [popBefore]
    split
    · obtain ⟨popped, hpop, hpopped⟩ := pop_spec (S := S) total callback h.head
      obtain ⟨work, hrest, hpops⟩ := ih h.tail popped.2.1 popped.2.2
      refine ⟨_, ?_, Pops.head hpopped hpops⟩
      simp [popThen, hpop, ok_bind, hrest]
    · exact ⟨_, rfl, .refl _⟩

theorem popId_spec (queueId : Int) (tailId : EventId) (h : HaveNext events) (eventId : EventId) (total : Nat)
    (callback : Option σ) : ∃ work, popId S queueId tailId eventId events total callback = .ok work ∧
      Pops S queueId tailId ⟨events, total, callback⟩ work := by
  induction events generalizing total callback with
  | nil => exact ⟨_, rfl, .refl _⟩
  | cons event events ih =>
    simp only [popId]
    split
    · obtain ⟨popped, hpop, hpopped⟩ := pop_spec (S := S) total callback h.head
      refine ⟨_, ?_, Pops.head hpopped (.refl ⟨events, popped.2.1, popped.2.2⟩)⟩
      simp [popThen, hpop, ok_bind]
    · obtain ⟨work, hrest, hpops⟩ := ih h.tail total callback
      refine ⟨{ work with events := event :: work.events }, ?_, hpops.prepend [event]⟩
      rw [hrest]
      rfl

theorem popReady_spec (queueId : Int) (tailId : EventId) (h : HaveNext events)
    (hfrom : ∀ e ∈ events, fromId.value ≤ e.key) (now : Int) (room total : Nat) (callback : Option σ) :
    ∃ work ready, popReady S queueId tailId fromId now room events total callback = .ok (work, ready) ∧
      Pops S queueId tailId ⟨events, total, callback⟩ work := by
  induction events generalizing room total callback with
  | nil => exact ⟨_, _, rfl, .refl _⟩
  | cons event events ih =>
    have hfrom' : ∀ e ∈ events, fromId.value ≤ e.key := fun e he => hfrom e (mem_cons_of_mem _ he)
    simp only [popReady]
    split
    · obtain ⟨popped, hpop, hpopped⟩ := pop_spec (S := S) total callback h.head
      obtain ⟨work, ready, hrest, hpops⟩ := ih h.tail hfrom' room popped.2.1 popped.2.2
      refine ⟨_, ready, ?_, Pops.head hpopped hpops⟩
      simp [hpop, ok_bind, hrest]
    · rw [check_true (Nat.not_lt.2 (hfrom event (mem_cons_self ..))), ok_bind]
      cases room with
      | zero => exact ⟨_, _, rfl, .refl _⟩
      | succ room =>
        obtain ⟨work, ready, hrest, hpops⟩ := ih h.tail hfrom' room total callback
        refine ⟨{ work with events := event :: work.events }, event :: ready, ?_, hpops.prepend [event]⟩
        simp [hrest]

/-- What the loop of `run_gc` finds for the next time: none only if no event
with data is left, and a time that is not yet over if it was not stopped. -/
structure NextGc (now : Int) (work : Work σ) (newGcAt : Int) (clock : Clock) : Prop where
  filled : newGcAt = 0 → ∀ e ∈ work.events, e.data = []
  later : clock.late = true ∨ newGcAt = 0 ∨ now ≤ newGcAt

theorem late_read {clock : Clock} (h : clock.late = true) : clock.read.late = true := by
  unfold Clock.late Clock.read at *
  simp only [decide_eq_true_eq] at h ⊢
  omega

theorem popExpired_spec (queueId : Int) (tailId : EventId) (h : HaveNext events)
    (hexpires : ∀ e ∈ events, 0 < e.expiresAt) (now newGcAt : Int)
    (hgc : newGcAt = 0 ∨ now ≤ newGcAt) (clock : Clock) (total : Nat) (callback : Option σ) :
    ∃ work newGcAt' clock', popExpired S queueId tailId now events newGcAt clock total callback =
        .ok (work, newGcAt', clock') ∧
      Pops S queueId tailId ⟨events, total, callback⟩ work ∧ NextGc now work newGcAt' clock' ∧
      (newGcAt ≠ 0 → newGcAt' ≠ 0) := by
  induction events generalizing newGcAt clock total callback with
  | nil => exact ⟨_, _, _, rfl, .refl _, ⟨by simp, .inr hgc⟩, id⟩
  | cons event events ih =>
    have hpos := hexpires event (mem_cons_self ..)
    have hexpires' : ∀ e ∈ events, 0 < e.expiresAt := fun e he => hexpires e (mem_cons_of_mem _ he)
    simp only [popExpired]
    split
    next hlate =>
      refine ⟨_, _, _, rfl, .refl _, ⟨fun hzero => ?_, .inl ?_⟩, fun hne => ?_⟩
      · split at hzero
        next => omega
        next hne => exact absurd hzero hne
      · rw [if_pos hlate.1]
        exact late_read hlate.2
      · rw [if_neg hne]; exact hne
    next =>
      split
      next hexpired =>
        obtain ⟨popped, hpop, hpopped⟩ := pop_spec (S := S) total callback h.head
        obtain ⟨work, newGcAt', clock', hrest, hpops, hnext, hkeep⟩ := ih h.tail hexpires' newGcAt hgc
          (if (clock.counter + 1) &&& 128 = 0 then
            ({ clock with counter := clock.counter + 1 } : Clock).read else { clock with counter := clock.counter + 1 })
          popped.2.1 popped.2.2
        refine ⟨_, newGcAt', clock', ?_, Pops.head hpopped hpops, ⟨fun hzero e he => ?_, hnext.later⟩, hkeep⟩
        · simp [hpop, ok_bind, hrest]
        · rcases mem_append.1 he with he | he
          · exact hpopped.data_nil he
          · exact hnext.filled hzero e he
      next hexpired =>
        split
        next hne => exact ⟨_, _, _, rfl, .refl _, ⟨fun hzero => absurd hzero hne, .inr hgc⟩, fun _ => hne⟩
        next hzero =>
          obtain ⟨work, newGcAt', clock', hrest, hpops, hnext, hkeep⟩ := ih h.tail hexpires' event.expiresAt
            (.inr (by by_contra hlt; exact hexpired (.inl (by omega))))
            (if (clock.counter + 1) &&& 128 = 0 then
              ({ clock with counter := clock.counter + 1 } : Clock).read else
              { clock with counter := clock.counter + 1 })
            total callback
          have hne : newGcAt' ≠ 0 := hkeep (by omega)
          refine ⟨{ work with events := event :: work.events }, newGcAt', clock', ?_, hpops.prepend [event],
            ⟨fun h => absurd h hne, hnext.later⟩, fun _ => hne⟩
          simp only [hrest]
          rfl

end TQueue

end Tdlib.Db
