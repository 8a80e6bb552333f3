/-
`MpscPollableQueue`: writers put values under a lock and signal an event fd if the
reader has said that it waits; the reader takes all values at once. In every
interleaving the values are read in the order in which they were put, and a reader
that waits is woken.
-/
import Mathlib.Algebra.Group.Nat.Defs
import Mathlib.Data.List.Basic

namespace Tdlib

/-- Where the reader is in `reader_wait_nonblock`: outside of it, before the first
round, with the lock before `event_fd_.acquire`, or before the second round. -/
inductive ReaderPos
  | outside
  | first
  | acquiring
  | second
  deriving DecidableEq, Repr

/-- The queue, its reader, and how many writers are about to release the event fd;
with the values put and read so far, what `reader_wait_nonblock` last returned, and
how many values were put since. -/
structure MpscPollableQueue (α : Type) where
  waitEventFd : Bool := false
  eventFd : Bool := false
  writerVector : List α := []
  readerVector : List α := []
  readerPos : Nat := 0
  reader : ReaderPos := .outside
  releasing : Nat := 0
  put : List α := []
  read : List α := []
  returned : Option Nat := none
  since : Nat := 0

namespace MpscPollableQueue

variable {α : Type}

/-- The locked section of `writer_put`. -/
def writerPut (s : MpscPollableQueue α) (value : α) : MpscPollableQueue α :=
  { s with
    writerVector := s.writerVector ++ [value]
    waitEventFd := false
    releasing := if s.waitEventFd then s.releasing + 1 else s.releasing
    put := s.put ++ [value]
    since := s.since + 1 }

/-- `reader_wait_nonblock` returns `ready`; `narrow_cast` aborts if it is no `int`. -/
def answer (s : MpscPollableQueue α) (ready : Nat) : Option (MpscPollableQueue α) :=
  if ready < 2 ^ 31 then some { s with reader := .outside, returned := some ready, since := 0 } else none

/-- `reader_wait_nonblock` before its loop. -/
def enter (s : MpscPollableQueue α) : Option (MpscPollableQueue α) :=
  let ready := s.readerVector.length - s.readerPos
  if ready ≠ 0 then s.answer ready else some { s with reader := .first }

/-- The reader takes what the writers have put. -/
def takeAll (s : MpscPollableQueue α) : Option (MpscPollableQueue α) :=
  { s with readerVector := s.writerVector, readerPos := 0, writerVector := [] }.answer s.writerVector.length

/-- The locked section of the first round, up to `event_fd_.acquire`. -/
def firstRound (s : MpscPollableQueue α) : Option (MpscPollableQueue α) :=
  if s.writerVector = [] then some { s with reader := .acquiring } else s.takeAll

def secondRound (s : MpscPollableQueue α) : Option (MpscPollableQueue α) :=
  if s.writerVector = [] then { s with readerVector := [], readerPos := 0, waitEventFd := true }.answer 0
  else s.takeAll

def readerGetUnsafe (s : MpscPollableQueue α) : Option (MpscPollableQueue α) :=
  s.readerVector[s.readerPos]?.map fun value => { s with readerPos := s.readerPos + 1, read := s.read ++ [value] }

/-- The atomic steps of the threads. -/
inductive Step (s : MpscPollableQueue α) : MpscPollableQueue α → Prop
  -- While the reader acquires it has the lock.
  | put (value : α) : s.reader ≠ .acquiring → Step s (s.writerPut value)
  | release : s.releasing ≠ 0 → Step s { s with releasing := s.releasing - 1, eventFd := true }
  | enter {s' : MpscPollableQueue α} : s.reader = .outside → s.enter = some s' → Step s s'
  | firstRound {s' : MpscPollableQueue α} : s.reader = .first → s.firstRound = some s' → Step s s'
  | acquire : s.reader = .acquiring → Step s { s with eventFd := false, reader := .second }
  | secondRound {s' : MpscPollableQueue α} : s.reader = .second → s.secondRound = some s' → Step s s'
  | get {s' : MpscPollableQueue α} : s.reader = .outside → s.readerGetUnsafe = some s' → Step s s'

/-- The states of any interleaving. -/
inductive Reachable : MpscPollableQueue α → Prop
  | start : Reachable {}
  | step {s s' : MpscPollableQueue α} : Reachable s → Step s s' → Reachable s'

variable {s s' : MpscPollableQueue α}

/-- Inside `reader_wait_nonblock` all is read that was taken. A reader that waits has
asked for a signal, or there is one for what was put. -/
structure Inv (s : MpscPollableQueue α) : Prop where
  values : s.read ++ (s.readerVector.drop s.readerPos ++ s.writerVector) = s.put
  taken : s.reader ≠ .outside → s.readerVector.length ≤ s.readerPos
  acquiring : s.reader = .acquiring → s.writerVector = []
  asked : s.returned = some 0 → s.since = 0 → s.waitEventFd = true ∧ s.writerVector = []
  signalled : s.returned = some 0 → s.since ≠ 0 → s.writerVector ≠ [] ∧ (s.eventFd = true ∨ s.releasing ≠ 0)

theorem answer_eq {ready : Nat} (h : s.answer ready = some s') :
    s' = { s with reader := .outside, returned := some ready, since := 0 } := by
  unfold answer at h
  split at h
  · exact (Option.some.inj h).symm
  · cases h

theorem Inv.takeAll (h : s.Inv) (hreader : s.reader ≠ .outside) (hne : s.writerVector ≠ [])
    (heq : s.takeAll = some s') : s'.Inv := by
  obtain rfl := answer_eq heq
  have hvalues := h.values
  rw [List.drop_eq_nil_of_le (h.taken hreader), List.nil_append] at hvalues
  exact ⟨by simpa using hvalues, by simp, by simp, by simp [hne], by simp⟩

/-- **One step** keeps the invariant. -/
theorem Inv.step (h : s.Inv) (hstep : Step s s') : s'.Inv := by
  cases hstep with
  | put value hlock =>
    have hvalues := h.values
    refine ⟨by simp [writerPut, ← hvalues], h.taken, fun hacquiring => absurd hacquiring hlock, by simp [writerPut], ?_⟩
    intro hreturned _
    refine ⟨by simp [writerPut], ?_⟩
    by_cases hfirst : s.since = 0
    · simp [writerPut, (h.asked hreturned hfirst).1]
    · have hsignal := (h.signalled hreturned hfirst).2
      unfold writerPut
      split
      · simp
      · exact hsignal
  | release => exact ⟨h.values, h.taken, h.acquiring, h.asked, fun hret hsince =>
    ⟨(h.signalled hret hsince).1, .inl rfl⟩⟩
  | enter hreader heq =>
    unfold MpscPollableQueue.enter at heq
    dsimp only at heq
    split at heq
    next hready =>
      obtain rfl := answer_eq heq
      exact ⟨h.values, by simp, by simp, by simp [hready], by simp⟩
    next hready =>
      cases heq
      exact ⟨h.values, fun _ => Nat.le_of_sub_eq_zero (not_not.1 hready), by simp, h.asked, h.signalled⟩
  | firstRound hreader heq =>
    unfold MpscPollableQueue.firstRound at heq
    split at heq
    next hnil =>
      cases heq
      exact ⟨h.values, fun _ => h.taken (by simp [hreader]), fun _ => hnil, h.asked, h.signalled⟩
    next hne => exact h.takeAll (by simp [hreader]) hne heq
  | acquire hreader =>
    refine ⟨h.values, fun _ => h.taken (by simp [hreader]), by simp, h.asked, fun hreturned hsince => ?_⟩
    -- Nothing was put since the reader began to wait: else it would not acquire.
    exact absurd (h.acquiring hreader) (h.signalled hreturned hsince).1
  | secondRound hreader heq =>
    unfold MpscPollableQueue.secondRound at heq
    split at heq
    next hnil =>
      obtain rfl := answer_eq heq
      have hvalues := h.values
      rw [List.drop_eq_nil_of_le (h.taken (by simp [hreader])), hnil] at hvalues
      exact ⟨by simpa [hnil] using hvalues, by simp, by simp, by simp [hnil], by simp⟩
    next hne => exact h.takeAll (by simp [hreader]) hne heq
  | get hreader heq =>
    obtain ⟨value, hget, rfl⟩ := Option.map_eq_some_iff.1 heq
    obtain ⟨hlt, rfl⟩ := List.getElem?_eq_some_iff.1 hget
    have hvalues := h.values
    rw [List.drop_eq_getElem_cons hlt] at hvalues
    exact ⟨by rw [← hvalues, List.append_assoc]; rfl, fun hne => absurd hreader hne, h.acquiring, h.asked, h.signalled⟩

theorem Reachable.inv (h : Reachable s) : s.Inv := by
  induction h with
  | start => exact ⟨rfl, by simp, by simp, by simp, by simp⟩
  | step _ hstep ih => exact ih.step hstep

/-- **Nothing is lost.** The values read are the first ones that were put, and after a
put a reader that waits has a signal, or a writer is about to give one. -/
theorem reads_in_order (h : Reachable s) :
    s.read <+: s.put ∧ (s.returned = some 0 → s.since ≠ 0 → s.eventFd = true ∨ s.releasing ≠ 0) :=
  ⟨⟨_, h.inv.values⟩, fun hreturned hsince => (h.inv.signalled hreturned hsince).2⟩

/-- The reader finds nothing, waits, and a value is put. -/
theorem reads_in_order_waiting : ∃ s : MpscPollableQueue Nat, s.returned = some 0 ∧ s.since ≠ 0 ∧
    (s.eventFd = true ∨ s.releasing ≠ 0) := by
  have hreach : Reachable (α := Nat) _ := (((((Reachable.start.step (.enter rfl rfl)).step (.firstRound rfl rfl)).step
    (.acquire rfl)).step (.secondRound rfl rfl)).step (.put 7 (by decide)))
  exact ⟨_, rfl, by decide, (reads_in_order hreach).2 rfl (by decide)⟩

end MpscPollableQueue

end Tdlib
