/-
A transfer by parts: what `FileDownloader` does with its `PartsManager`, and the
invariant that every call keeps.

The invariant says what the cached indices mean, that every part under way is
pending and as long as the part is, and, while the size is not known, where its
bounds come from: the upper one is a multiple of the part size, and the lower one is
the end of a part that has come. This is what makes the length of a part that was
requested before the size was known right afterwards.
-/
import Tdlib.Files.PartsManager
import Tdlib.Lib.Tiling

namespace Tdlib.Files

open PartsManager
open List hiding pure_def
open Outcome Tiling

/-! ## Calls -/

/-- What `FileDownloader` keeps of a transfer: the manager, and the parts under way
(`part_map_`). -/
structure Transfer where
  parts : PartsManager
  inFlight : List Part
  deriving DecidableEq

/-- The calls `FileDownloader` makes in a download whose hashes are not checked: if they
are, there are also `set_need_check` and `set_checked_prefix_size`. A part comes back with
so many bytes, or its query fails. -/
inductive Call
  | setStreamingOffset (offset limit : Int)
  | setStreamingLimit (limit : Int)
  | startPart
  | partOk (partId actualSize : Nat)
  | partFailed (partId : Nat)
  | mayFinish
  | finish
  | getEstimatedExtra
  | getReadyPrefixCount
  | getUncheckedReadyPrefixSize
  | getBitmask
  deriving DecidableEq, Repr

/-- The limit that a call sets. -/
def Call.newLimit : Call → Option Int
  | .setStreamingOffset _ limit => some limit
  | .setStreamingLimit limit => some limit
  | _ => none

namespace Transfer

variable (t : Transfer)

/-- `start_part` in `do_loop`: the empty part ends the loop. -/
def startPart : Outcome Transfer := do
  let (part, parts) ← t.parts.startPart
  pure ⟨parts, if part.size = 0 then t.inFlight else t.inFlight ++ [part]⟩

def find (partId : Nat) : Option Part := t.inFlight.find? fun part => part.id == (partId : Int)

def remove (partId : Nat) : List Part := t.inFlight.filter fun part => part.id != (partId : Int)

/-- `on_part_query`. A result for an unknown part is ignored, and no part may be
longer than was requested. -/
def partOk (partId actualSize : Nat) : Outcome Transfer :=
  match t.find partId with
  | none => pure t
  | some part => do
    ensure (actualSize ≤ part.size) "Part size is more than requested"
    let parts ← t.parts.onPartOk partId part.size actualSize
    pure ⟨parts, t.remove partId⟩

def partFailed (partId : Nat) : Outcome Transfer :=
  match t.find partId with
  | none => pure t
  | some _ => do
    let parts ← t.parts.onPartFailed partId
    pure ⟨parts, t.remove partId⟩

/-- One call. The size is asked for when the transfer has finished. -/
def step : Call → Outcome Transfer
  | .setStreamingOffset offset limit => do
    let (_, parts) ← t.parts.setStreamingOffset offset limit
    pure ⟨parts, t.inFlight⟩
  | .setStreamingLimit limit => do
    let parts ← t.parts.setStreamingLimit limit
    pure ⟨parts, t.inFlight⟩
  | .startPart => t.startPart
  | .partOk partId actualSize => t.partOk partId actualSize
  | .partFailed partId => t.partFailed partId
  | .mayFinish => do
    let (_, parts) ← t.parts.mayFinish
    pure ⟨parts, t.inFlight⟩
  | .finish => do
    let parts ← t.parts.finish
    let _ ← parts.getSize
    pure ⟨parts, t.inFlight⟩
  | .getEstimatedExtra => do
    let _ ← t.parts.getEstimatedExtra
    pure t
  | .getReadyPrefixCount => do
    let (_, parts) ← t.parts.getReadyPrefixCount
    pure ⟨parts, t.inFlight⟩
  | .getUncheckedReadyPrefixSize => pure ⟨t.parts.getUncheckedReadyPrefixSize.2, t.inFlight⟩
  | .getBitmask => do
    let _ ← t.parts.getBitmask
    pure t

def run (calls : List Call) : Outcome Transfer := calls.foldlM step t

end Transfer

namespace PartsManager

variable {s s' : PartsManager} {i j : Nat}

/-! ## Statuses and parts -/

theorem status_of_length_le (h : s.partStatus.length ≤ i) : s.status i = .empty := getD_eq_default _ _ h

theorem lt_length_of_status (h : s.status i ≠ .empty) : i < s.partStatus.length := by
  by_contra hle
  exact h (status_of_length_le (Nat.le_of_not_lt hle))

variable {l : List PartStatus} {n : Nat} {r : Nat × PartsManager} {st : PartStatus}

theorem status_set (hi : i < l.length) (st : PartStatus) (j : Nat) :
    (l.set i st).getD j .empty = if j = i then st else l.getD j .empty := by
  by_cases hji : j = i
  · subst hji
    simp [hi]
  · simp [hji, Ne.symm hji]

theorem status_append_empty (l : List PartStatus) (n j : Nat) :
    (l ++ List.replicate n PartStatus.empty).getD j .empty = l.getD j .empty := by
  rw [getD_eq_getElem?_getD, getD_eq_getElem?_getD]
  rcases Nat.lt_or_ge j l.length with hj | hj
  · rw [List.getElem?_append_left hj]
  · rw [List.getElem?_append_right hj, List.getElem?_eq_none hj, List.getElem?_replicate]
    split <;> rfl

theorem size_getPart (s : PartsManager) (i : Nat) : (s.getPart i).size = piece s.totalSize s.partSize i := by
  simp only [getPart, piece]
  split <;> omega

theorem takeWhile_spec (p : PartStatus → Bool) (l : List PartStatus) :
    (∀ j < (l.takeWhile p).length, p (l.getD j .empty) = true) ∧
    ((l.takeWhile p).length < l.length → p (l.getD (l.takeWhile p).length .empty) = false) ∧
    (l.takeWhile p).length ≤ l.length := by
  induction l with
  | nil => simp
  | cons x l ih =>
    obtain ⟨hall, hstop, hle⟩ := ih
    cases hx : p x with
    | false => simp [hx]
    | true =>
      rw [takeWhile_cons_of_pos hx, length_cons, length_cons]
      refine ⟨?_, ?_, by omega⟩
      · intro j hj
        cases j with
        | zero => exact hx
        | succ j => exact hall j (by omega)
      · intro hlt
        exact hstop (by omega)

theorem skipParts_spec (p : PartStatus → Bool) (hlen : s.partStatus.length = s.partCount) (hi : i ≤ s.partCount) :
    i ≤ s.skipParts p i ∧ s.skipParts p i ≤ s.partCount ∧
    (∀ j, i ≤ j → j < s.skipParts p i → p (s.status j) = true) ∧
    (s.skipParts p i < s.partCount → p (s.status (s.skipParts p i)) = false) := by
  obtain ⟨hall, hstop, hle⟩ := takeWhile_spec p (s.partStatus.drop i)
  have htake : s.partStatus.take s.partCount = s.partStatus := take_of_length_le (by omega)
  have hgetD : ∀ j, (s.partStatus.drop i).getD j .empty = s.status (i + j) := by
    intro j
    simp [status, getD_eq_getElem?_getD]
  rw [length_drop] at hstop hle
  rw [skipParts, htake]
  refine ⟨by omega, by omega, ?_, ?_⟩
  · intro j hij hj
    have := hall (j - i) (by omega)
    rwa [hgetD, Nat.add_sub_cancel' hij] at this
  · intro hlt
    have := hstop (by omega)
    rwa [hgetD] at this

/-! ## What the limit asks for -/

/-- How much of what the limit asks for is there. -/
def streamingReady (s : PartsManager) : Nat :=
  ∑ i ∈ Finset.range s.partCount, if s.inStreamingLimit i && s.status i == .ready then (s.getPart i).size else 0

theorem sumStreamingReady_eq (s : PartsManager) : s.sumStreamingReady = .ok s.streamingReady := by
  have hloop : ∀ n ≤ s.partCount,
      (List.range n).foldlM (fun sum partId => do
        let isInLimit ← s.isPartInStreamingLimit partId
        pure (if isInLimit && s.status partId == .ready then sum + (s.getPart partId).size else sum)) 0 =
      (Outcome.ok (∑ i ∈ Finset.range n,
        if s.inStreamingLimit i && s.status i == .ready then (s.getPart i).size else 0) : Outcome Nat) := by
    intro n
    induction n with
    | zero =>
      intro _
      rfl
    | succ n ih =>
      intro hn
      rw [range_succ, foldlM_append, ih (by omega), ok_bind, foldlM_cons, isPartInStreamingLimit,
        check_true (show n < s.partCount by omega), Finset.sum_range_succ]
      simp only [ok_bind, pure_def, foldlM_nil]
      split <;> rfl
  exact hloop s.partCount (Nat.le_refl _)

/-- The manager with another limit. -/
def limited (s : PartsManager) (limit : Int) : PartsManager :=
  { s with
    streamingLimit := limit
    streamingReadySize := if limit = 0 then 0 else { s with streamingLimit := limit }.streamingReady }

theorem setStreamingLimit_eq (s : PartsManager) (limit : Int) : s.setStreamingLimit limit = .ok (s.limited limit) := by
  rw [setStreamingLimit, limited]
  by_cases h : limit = 0
  · simp [h]
  · simp only [h, if_false, sumStreamingReady_eq, ok_bind, pure_def]
    rfl

theorem finishStreamingOffset_eq (s : PartsManager) (limit : Int) : s.finishStreamingOffset limit =
      .ok ((s.limited limit).updateFirstNotReadyPart.firstStreamingNotReadyPart,
        (s.limited limit).updateFirstNotReadyPart) := by
  rw [finishStreamingOffset, setStreamingLimit_eq, ok_bind]
  rfl

/-- What is ready in the limit does not depend on parts that are not ready. -/
theorem streamingReady_congr {statuses : List PartStatus} (hn : s.partCount ≤ n)
    (hready : ∀ i, statuses.getD i .empty = .ready ↔ s.status i = .ready)
    (hlast : ∀ i, s.partCount ≤ i → s.status i ≠ .ready) :
    { s with partStatus := statuses, partCount := n }.streamingReady = s.streamingReady := by
  have hterm : ∀ i,
      ({ s with partStatus := statuses, partCount := n }.status i == .ready) = (s.status i == .ready) := by
    intro i
    rw [Bool.eq_iff_iff, beq_iff_eq, beq_iff_eq]
    exact hready i
  have hsum : { s with partStatus := statuses, partCount := n }.streamingReady =
      ∑ i ∈ Finset.range n, if s.inStreamingLimit i && s.status i == .ready then (s.getPart i).size else 0 := by
    apply Finset.sum_congr rfl
    intro i _
    rw [hterm]
    rfl
  rw [hsum, streamingReady]
  symm
  apply Finset.sum_subset (Finset.range_subset_range.mpr hn)
  intro i _ hi
  have hne := hlast i (by simpa using hi)
  simp [hne]

/-- A part that gets ready counts if the limit asks for it. -/
theorem streamingReady_set (hlen : s.partStatus.length = s.partCount) (hi : i < s.partCount)
    (hne : s.status i ≠ .ready) :
    { s with partStatus := s.partStatus.set i .ready }.streamingReady =
      s.streamingReady + if s.inStreamingLimit i then (s.getPart i).size else 0 := by
  have hstatus : ∀ j, { s with partStatus := s.partStatus.set i .ready }.status j =
      if j = i then .ready else s.status j := fun j => status_set (by omega) .ready j
  have hupdate := sum_range_update hi
    (f := fun j => if s.inStreamingLimit j && { s with partStatus := s.partStatus.set i .ready }.status j == .ready
      then (s.getPart j).size else 0)
    (g := fun j => if s.inStreamingLimit j && s.status j == .ready then (s.getPart j).size else 0)
    (by
      intro j hj
      simp [hstatus, if_neg hj])
  simp only [hstatus, if_true, beq_self_eq_true, Bool.and_true, beq_eq_false_iff_ne.mpr hne, Bool.and_false,
    Bool.false_eq_true, if_false, Nat.add_zero] at hupdate
  rw [streamingReady, streamingReady, ← hupdate]
  apply Finset.sum_congr rfl
  intro j _
  rw [hstatus]
  rfl

/-! ## The invariant -/

/-- The bounds of a size that is not known: the upper one is a multiple of the part
size, the lower one is where a part ends that has come. -/
def Bounded (s : PartsManager) : Prop :=
  s.minSize < s.maxSize ∧ (s.maxSize = noMaxSize ∨ s.partSize ∣ s.maxSize) ∧
    (s.minSize = 0 ∨ ∃ r, s.status r = .ready ∧ s.partSize * r < s.minSize ∧ s.minSize ≤ s.partSize * (r + 1))

/-- A part under way is pending. It is as long as the part, unless the file turned
out to end before it. -/
def Flies (s : PartsManager) (part : Part) (i : Nat) : Prop :=
  part.id = i ∧ s.status i = .pending ∧ (s.unknownSizeFlag = true → part.size = s.partSize) ∧
    (s.unknownSizeFlag = false → s.partSize * i < s.size → part.size = (s.getPart i).size)

/-- What holds of a manager with the parts that are under way, whatever the limit is. -/
structure Core (s : PartsManager) (inFlight : List Part) : Prop where
  partSize_pos : 0 < s.partSize
  partSize_le : s.unknownSizeFlag = true → s.partSize * 2 ^ 31 ≤ noMaxSize
  length_eq : s.partStatus.length = s.partCount
  count_lt : s.partCount < 2 ^ 31
  empty_le : s.firstEmptyPart ≤ s.partCount
  streamingEmpty_le : s.firstStreamingEmptyPart ≤ s.partCount
  notReady_le : s.firstNotReadyPart ≤ s.partCount
  streamingNotReady_le : s.firstStreamingNotReadyPart ≤ s.partCount
  offset_lt : s.streamingOffset / s.partSize < 2 ^ 31
  notEmpty : ∀ i < s.firstEmptyPart, s.status i ≠ .empty
  pending : s.pendingCount = s.partStatus.count .pending
  nodup : (inFlight.map Part.id).Nodup
  flies : ∀ part ∈ inFlight, ∃ i, s.Flies part i
  bounded : s.unknownSizeFlag = true → s.Bounded

/-- The invariant: also what is counted of the limit is right. -/
structure Inv (s : PartsManager) (inFlight : List Part) : Prop extends Core s inFlight where
  streaming : 0 < s.streamingLimit → s.streamingReadySize = s.streamingReady

variable {inFlight : List Part} {part : Part}

theorem Core.lt_partCount (h : s.Core inFlight) (hi : s.status i ≠ .empty) : i < s.partCount := by
  rw [← h.length_eq]
  exact lt_length_of_status hi

namespace Inv

theorem updateFirstEmptyPart (h : s.Inv inFlight) : s.updateFirstEmptyPart.Inv inFlight := by
  obtain ⟨-, hle, hskip, -⟩ := skipParts_spec (· != .empty) h.length_eq h.empty_le
  obtain ⟨-, hle', -, -⟩ := skipParts_spec (· != .empty) h.length_eq h.streamingEmpty_le
  have hstreaming : s.updateFirstEmptyPart.firstStreamingEmptyPart ≤ s.partCount := by
    simp only [PartsManager.updateFirstEmptyPart]
    split
    · exact hle
    · exact hle'
  have hnotEmpty : ∀ i < s.skipParts (· != .empty) s.firstEmptyPart, s.status i ≠ .empty := by
    intro i hi
    rcases Nat.lt_or_ge i s.firstEmptyPart with hlt | hge
    · exact h.notEmpty i hlt
    · simpa using hskip i hge hi
  exact { h with empty_le := hle, streamingEmpty_le := hstreaming, notEmpty := hnotEmpty }

theorem updateFirstNotReadyPart (h : s.Inv inFlight) : s.updateFirstNotReadyPart.Inv inFlight := by
  obtain ⟨-, hle, -, -⟩ := skipParts_spec (· == .ready) h.length_eq h.notReady_le
  obtain ⟨-, hle', -, -⟩ := skipParts_spec (· == .ready) h.length_eq h.streamingNotReady_le
  have hstreaming : s.updateFirstNotReadyPart.firstStreamingNotReadyPart ≤ s.partCount := by
    simp only [PartsManager.updateFirstNotReadyPart]
    split
    · exact hle
    · exact hle'
  exact { h with notReady_le := hle, streamingNotReady_le := hstreaming }

end Inv

theorem Core.limited (h : s.Core inFlight) (limit : Int) : (s.limited limit).Inv inFlight := by
  have hstreaming : 0 < limit → (s.limited limit).streamingReadySize = (s.limited limit).streamingReady := by
    intro hlimit
    exact if_neg (Int.ne_of_gt hlimit)
  exact { h with streaming := hstreaming }

theorem Core.finishStreamingOffset (h : s.Core inFlight) {limit : Int}
    (heq : s.finishStreamingOffset limit = .ok r) : r.2.Inv inFlight := by
  rw [finishStreamingOffset_eq] at heq
  cases heq
  exact (h.limited limit).updateFirstNotReadyPart

/-- The statuses with empty ones behind them. -/
theorem Core.resize (h : s.Core inFlight) (hn : n < 2 ^ 31) : { s with
      partCount := max s.partCount n
      partStatus := s.partStatus ++ List.replicate (n - s.partCount) PartStatus.empty }.Core inFlight := by
  have hstatus : ∀ i, (s.partStatus ++ List.replicate (n - s.partCount) PartStatus.empty).getD i .empty = s.status i :=
    status_append_empty _ _
  have hcount : (s.partStatus ++ List.replicate (n - s.partCount) PartStatus.empty).count .pending =
      s.partStatus.count .pending := by
    rw [count_append, count_replicate]
    simp
  have hlength : (s.partStatus ++ List.replicate (n - s.partCount) PartStatus.empty).length = max s.partCount n := by
    rw [length_append, length_replicate, h.length_eq]
    omega
  have hempty := h.empty_le
  have hstreamingEmpty := h.streamingEmpty_le
  have hnotReady := h.notReady_le
  have hstreamingNotReady := h.streamingNotReady_le
  have hlt := h.count_lt
  refine { h with
    length_eq := hlength, count_lt := by dsimp only; omega, empty_le := by dsimp only; omega
    streamingEmpty_le := by dsimp only; omega, notReady_le := by dsimp only; omega
    streamingNotReady_le := by dsimp only; omega, notEmpty := ?_, pending := ?_, flies := ?_, bounded := ?_ }
  · intro i hi
    have hne := h.notEmpty i hi
    rw [← hstatus] at hne
    exact hne
  · simp [hcount, h.pending]
  · intro part hpart
    obtain ⟨i, hid, hpending, hsize⟩ := h.flies part hpart
    rw [← hstatus] at hpending
    exact ⟨i, hid, hpending, hsize⟩
  · intro hunknown
    obtain ⟨hlt, hmax, hmin⟩ := h.bounded hunknown
    refine ⟨hlt, hmax, hmin.imp_right ?_⟩
    intro hmin
    obtain ⟨r, hr, hbounds⟩ := hmin
    rw [← hstatus] at hr
    exact ⟨r, hr, hbounds⟩

/-- The manager with another offset, before the limit is set. -/
def movedTo (s : PartsManager) (offset : Nat) : PartsManager :=
  { s with
    streamingOffset := offset
    firstStreamingEmptyPart := offset / s.partSize
    firstStreamingNotReadyPart := offset / s.partSize
    partCount := max s.partCount (offset / s.partSize)
    partStatus := s.partStatus ++ List.replicate (offset / s.partSize - s.partCount) .empty }

theorem Core.movedTo (h : s.Core inFlight) {offset : Nat} (hoffset : offset / s.partSize < 2 ^ 31) :
    (s.movedTo offset).Core inFlight :=
  { h.resize hoffset with
    offset_lt := hoffset
    streamingEmpty_le := Nat.le_max_right _ _
    streamingNotReady_le := Nat.le_max_right _ _ }

theorem Core.setStreamingOffset (h : s.Core inFlight) {offset limit : Int}
    (heq : s.setStreamingOffset offset limit = .ok r) : r.2.Inv inFlight := by
  have hzero : { s with streamingOffset := 0 }.Core inFlight := { h with offset_lt := by simp }
  unfold PartsManager.setStreamingOffset at heq
  split at heq
  · rw [bind_ok_iff] at heq
    obtain ⟨-, -, heq⟩ := heq
    exact hzero.finishStreamingOffset heq
  · dsimp only at heq
    split at heq
    · exact hzero.finishStreamingOffset heq
    · rw [bind_ok_iff] at heq
      obtain ⟨_, hpart, heq⟩ := heq
      rw [check_ok_iff] at hpart
      exact (h.movedTo hpart).finishStreamingOffset heq

/-! ## One status changes -/

theorem count_pending_set (hi : i < l.length) (st : PartStatus) :
    (l.set i st).count .pending + (if l.getD i .empty = .pending then 1 else 0) =
      l.count .pending + (if st = .pending then 1 else 0) := by
  have hget : l.getD i .empty = l[i] := by simp [getD_eq_getElem?_getD, hi]
  have hpos : l[i] = .pending → 0 < l.count .pending := by
    intro heq
    simp [count_pos_iff, ← heq]
  rw [count_set hi, hget]
  simp only [beq_iff_eq]
  split
  next heq =>
    have := hpos heq
    omega
  next => omega

theorem Bounded.setStatus (h : s.Bounded) (hi : i < s.partStatus.length) (hne : s.status i ≠ .ready)
    (st : PartStatus) : (s.setStatus i st).Bounded := by
  obtain ⟨hlt, hmax, hmin⟩ := h
  refine ⟨hlt, hmax, hmin.imp_right ?_⟩
  intro hmin
  obtain ⟨r, hr, hbounds⟩ := hmin
  have hri : r ≠ i := by
    intro heq
    exact hne (heq ▸ hr)
  refine ⟨r, ?_, hbounds⟩
  rw [PartsManager.setStatus, status, status_set hi, if_neg hri]
  exact hr

theorem Flies.setStatus (h : s.Flies part j) (hi : i < s.partStatus.length) (hij : j ≠ i) (st : PartStatus) :
    (s.setStatus i st).Flies part j := by
  obtain ⟨hid, hpending, hsize⟩ := h
  refine ⟨hid, ?_, hsize⟩
  rw [PartsManager.setStatus, status, status_set hi, if_neg hij]
  exact hpending

theorem status_setStatus (hi : i < s.partStatus.length) (st : PartStatus) (j : Nat) :
    (s.setStatus i st).status j = if j = i then st else s.status j := status_set hi st j

theorem streamingReady_setStatus (hlen : s.partStatus.length = s.partCount) (hi : i < s.partCount)
    (hne : s.status i ≠ .ready) (hst : st ≠ .ready) : (s.setStatus i st).streamingReady = s.streamingReady := by
  refine streamingReady_congr (Nat.le_refl _) ?_ ?_
  · intro j
    rw [status_set (by omega)]
    by_cases hji : j = i
    · subst hji
      simp [hst, hne]
    · simp [hji, status]
  · intro j hj
    rw [status_of_length_le (by omega)]
    decide

/-! ## A part is started -/

/-- A manager with one more part. -/
def grown (s : PartsManager) : PartsManager :=
  { s with partCount := s.partCount + 1, partStatus := s.partStatus ++ [.empty] }

theorem Inv.grown (h : s.Inv inFlight) (hlt : s.partCount + 1 < 2 ^ 31) : s.grown.Inv inFlight := by
  have hcore : s.grown.Core inFlight := by
    have hresize := h.toCore.resize hlt
    simpa only [PartsManager.grown, Nat.max_eq_right (Nat.le_succ _), Nat.add_sub_cancel_left, replicate_one]
      using hresize
  have hready : s.grown.streamingReady = s.streamingReady := by
    refine streamingReady_congr (Nat.le_succ _) ?_ ?_
    · intro i
      rw [← replicate_one, status_append_empty]
      rfl
    · intro i hi
      simp [status_of_length_le, h.length_eq, hi]
  refine { hcore with streaming := ?_ }
  intro hlimit
  rw [hready]
  exact h.streaming hlimit

section

variable (h : s.Inv inFlight) {choice : Option Nat} (heq : s.choosePart = .ok (choice, s'))

include h heq

/-- What `start_part` chooses: an empty part, or none if the size is known and no
part is empty. -/
theorem choosePart_cases : (∃ i, choice = some i ∧ i < s'.partCount ∧ s'.status i = .empty ∧
      (s' = s.updateFirstEmptyPart ∧ (i = s'.firstStreamingEmptyPart ∨ s.unknownSizeFlag = false) ∨
        s' = s.updateFirstEmptyPart.grown ∧ s.unknownSizeFlag = true ∧
          i = s.partCount ∧ i = s.updateFirstEmptyPart.firstStreamingEmptyPart ∧
          s'.partCount ≤ s.partLimit)) ∨
    (choice = none ∧ s' = s.updateFirstEmptyPart ∧ s.unknownSizeFlag = false ∧ s'.firstEmptyPart = s.partCount) := by
  have hempty : s.updateFirstEmptyPart.firstEmptyPart < s.partCount →
      s.status s.updateFirstEmptyPart.firstEmptyPart = .empty := by
    intro hlt
    obtain ⟨-, -, -, hstop⟩ := skipParts_spec (· != .empty) h.length_eq h.empty_le
    exact bne_eq_false_iff_eq.mp (hstop hlt)
  have hstreaming : s.updateFirstEmptyPart.firstStreamingEmptyPart < s.partCount →
      s.status s.updateFirstEmptyPart.firstStreamingEmptyPart = .empty := by
    intro hlt
    by_cases hoffset : s.streamingOffset = 0
    · have hsame : s.updateFirstEmptyPart.firstStreamingEmptyPart = s.updateFirstEmptyPart.firstEmptyPart :=
        if_pos hoffset
      rw [hsame] at hlt ⊢
      exact hempty hlt
    · have hown : s.updateFirstEmptyPart.firstStreamingEmptyPart =
          s.skipParts (· != .empty) s.firstStreamingEmptyPart := if_neg hoffset
      obtain ⟨-, -, -, hstop⟩ := skipParts_spec (· != .empty) h.length_eq h.streamingEmpty_le
      simp_all
  have hle := h.updateFirstEmptyPart.empty_le
  have hle' := h.updateFirstEmptyPart.streamingEmpty_le
  unfold choosePart at heq
  dsimp only at heq
  split at heq
  next hlast =>
    split at heq
    next hunknown =>
      split at heq
      next => cases heq
      next hfits =>
        cases heq
        refine .inl ⟨_, rfl, ?_, ?_, .inr ⟨rfl, hunknown, hlast, rfl, Nat.le_of_not_lt hfits⟩⟩
        · simp [hlast]
        · rw [status, ← replicate_one, status_append_empty, hlast]
          exact status_of_length_le (Nat.le_of_eq h.length_eq)
    next hknown =>
      have hknown' : s.unknownSizeFlag = false := Bool.eq_false_iff.mpr hknown
      split at heq
      next hlt =>
        cases heq
        exact .inl ⟨_, rfl, hlt, hempty hlt, .inl ⟨rfl, .inr hknown'⟩⟩
      next hge =>
        cases heq
        exact .inr ⟨rfl, rfl, hknown', Nat.le_antisymm hle (Nat.le_of_not_lt hge)⟩
  next hne =>
    cases heq
    have hlt : s.updateFirstEmptyPart.firstStreamingEmptyPart < s.partCount := Nat.lt_of_le_of_ne hle' hne
    exact .inl ⟨_, rfl, hlt, hstreaming hlt, .inl ⟨rfl, .inl rfl⟩⟩

theorem Inv.choosePart : s'.Inv inFlight := by
  obtain ⟨i, -, -, -, ⟨rfl, -⟩ | ⟨rfl, -, -, -, hfits⟩⟩ | ⟨-, rfl, -⟩ := choosePart_cases h heq
  · exact h.updateFirstEmptyPart
  · apply h.updateFirstEmptyPart.grown
    have hle : s.updateFirstEmptyPart.partCount + 1 ≤ 8064 := by
      refine Nat.le_trans hfits ?_
      rw [partLimit, maxPartCountPremium]
      split <;> omega
    omega
  · exact h.updateFirstEmptyPart

end

/-- The manager after part `i` was started. -/
def started (s : PartsManager) (i : Nat) : PartsManager :=
  { s.setStatus i .pending with pendingCount := s.pendingCount + 1 }

/-- What `start_part` does: nothing is started, or the part that was chosen. -/
theorem startPart_cases (h : s.Inv inFlight) (heq : s.startPart = .ok (part, s')) :
    ∃ choice u, s.choosePart = .ok (choice, u) ∧
      ((part = getEmptyPart ∧ s' = u ∧
          ∀ i, choice = some i → u.inStreamingLimit i = true → u.totalSize ≤ i * u.partSize) ∨
        ∃ i, choice = some i ∧ i < u.partCount ∧ u.status i = .empty ∧ i * u.partSize < u.totalSize ∧
          s' = u.started i ∧ part = u.getPart i) := by
  unfold startPart at heq
  rw [bind_ok_iff] at heq
  obtain ⟨⟨choice, u⟩, hchoice, heq⟩ := heq
  refine ⟨choice, u, hchoice, ?_⟩
  cases choice with
  | none =>
    cases heq
    exact .inl ⟨rfl, rfl, by simp⟩
  | some i =>
    have hi : i < u.partCount ∧ u.status i = .empty := by
      obtain ⟨_, hsome, hlt, hempty, -⟩ | ⟨hnone, -⟩ := choosePart_cases h hchoice
      · cases hsome
        exact ⟨hlt, hempty⟩
      · cases hnone
    dsimp only at heq
    rw [isPartInStreamingLimit, check_true hi.1] at heq
    simp only [ok_bind, pure_def] at heq
    split at heq
    next hstop =>
      cases heq
      refine .inl ⟨rfl, rfl, ?_⟩
      intro j hj hlimit
      cases hj
      simpa [hlimit] using hstop
    next hgo =>
      rw [check_true hi.2, ok_bind, onPartStart, check_true hi.2, ok_bind] at heq
      cases heq
      refine .inr ⟨i, rfl, hi.1, hi.2, ?_, rfl, rfl⟩
      simp_all

theorem startPart_total (h : s.Inv inFlight) {choice : Option Nat} {u : PartsManager}
    (hchoice : s.choosePart = .ok (choice, u)) : ∃ part s', s.startPart = .ok (part, s') := by
  rw [startPart, hchoice, ok_bind]
  obtain ⟨i, rfl, hi, hempty, -⟩ | ⟨rfl, -⟩ := choosePart_cases h hchoice
  · dsimp only
    rw [isPartInStreamingLimit, check_true hi]
    simp only [ok_bind, pure_def]
    split
    · exact ⟨_, _, rfl⟩
    · simp [check_true hempty, ok_bind, onPartStart]
  · exact ⟨_, _, rfl⟩

/-- While the size is not known, a part that begins before its upper bound is a whole one. -/
theorem Core.size_of_unknown (h : s.Core inFlight) (hunknown : s.unknownSizeFlag = true) (hi : i < s.partCount)
    (hlt : i * s.partSize < s.totalSize) : (s.getPart i).size = s.partSize := by
  obtain ⟨-, hmax, -⟩ := h.bounded hunknown
  have htotal : s.totalSize = s.maxSize := by simp [totalSize, hunknown]
  have hle := h.partSize_le hunknown
  have hcount := h.count_lt
  rw [size_getPart]
  apply piece_eq_unit
  rw [htotal] at hlt ⊢
  rcases hmax with hmax | ⟨k, hk⟩
  · calc s.partSize * (i + 1) ≤ s.partSize * 2 ^ 31 := Nat.mul_le_mul_left _ (by omega)
      _ ≤ s.maxSize := by rw [hmax]; exact hle
  · rw [hk] at hlt ⊢
    rw [Nat.mul_comm] at hlt
    exact Nat.mul_le_mul_left _ (Nat.lt_of_mul_lt_mul_left hlt)

theorem Inv.started (h : s.Inv inFlight) (hi : i < s.partCount) (hempty : s.status i = .empty)
    (hlt : i * s.partSize < s.totalSize) : (s.started i).Inv (inFlight ++ [s.getPart i]) := by
  have hlength : i < s.partStatus.length := by rw [h.length_eq]; exact hi
  have hready : s.status i ≠ .ready := by rw [hempty]; decide
  have hfresh : ∀ part ∈ inFlight, ∀ j, s.Flies part j → j ≠ i := by
    intro part _ j hflies heq
    have hpending := hflies.2.1
    rw [heq, hempty] at hpending
    cases hpending
  have hstreaming : (s.setStatus i .pending).streamingReady = s.streamingReady :=
    streamingReady_setStatus h.length_eq hi hready (by decide)
  refine { h with
    length_eq := ?_, notEmpty := ?_, pending := ?_, nodup := ?_, flies := ?_, bounded := ?_, streaming := ?_ }
  · exact List.length_set.trans h.length_eq
  · intro j hj
    have hne := h.notEmpty j hj
    show (s.setStatus i .pending).status j ≠ _
    rw [status_setStatus hlength]
    split
    · decide
    · exact hne
  · have hcount := count_pending_set hlength .pending
    have hget : s.partStatus.getD i .empty = .empty := hempty
    have hpending := h.pending
    rw [hget] at hcount
    simp only [reduceCtorEq, if_false, if_true] at hcount
    show s.pendingCount + 1 = ((s.partStatus.set i .pending).count .pending : Int)
    omega
  · rw [map_append, map_singleton, nodup_append]
    refine ⟨h.nodup, nodup_singleton _, ?_⟩
    intro a ha b hb hab
    obtain ⟨part, hpart, rfl⟩ := mem_map.mp ha
    obtain ⟨j, hflies⟩ := h.flies part hpart
    have hid : (j : Int) = i := by
      rw [← hflies.1, hab]
      exact mem_singleton.mp hb
    exact hfresh part hpart j hflies (Int.ofNat.inj hid)
  · intro part hpart
    rcases mem_append.mp hpart with hpart | hpart
    · obtain ⟨j, hflies⟩ := h.flies part hpart
      exact ⟨j, hflies.setStatus hlength (hfresh part hpart j hflies) .pending⟩
    · rw [mem_singleton] at hpart
      subst hpart
      refine ⟨i, rfl, ?_, ?_, fun _ _ => rfl⟩
      · show (s.setStatus i .pending).status i = _
        rw [status_setStatus hlength, if_pos rfl]
      · intro hunknown
        exact h.size_of_unknown hunknown hi hlt
  · intro hunknown
    exact (h.bounded hunknown).setStatus hlength hready .pending
  · intro hlimit
    have := h.streaming hlimit
    rw [← hstreaming] at this
    exact this

theorem size_pos_of_started (hpos : 0 < s.partSize) (hlt : i * s.partSize < s.totalSize) : 0 < (s.getPart i).size := by
  rw [size_getPart, piece_pos hpos, Nat.mul_comm]
  exact hlt

/-! ## A part has come -/

/-- The manager after a part was counted. -/
def counted (s : PartsManager) (i actualSize : Nat) (bitmask : Bitmask) : PartsManager :=
  { s.setStatus i .ready with
    pendingCount := s.pendingCount - 1
    bitmask := bitmask
    readySize := s.readySize + actualSize
    streamingReadySize :=
      if 0 < s.streamingLimit ∧ s.inStreamingLimit i = true then s.streamingReadySize + actualSize
      else s.streamingReadySize }

theorem countPart_eq (hlen : s.partStatus.length = s.partCount) (hpending : s.status i = .pending)
    (actualSize : Nat) : ∃ bitmask, s.countPart i actualSize = .ok (s.counted i actualSize bitmask) := by
  have hlength : i < s.partStatus.length := lt_length_of_status (by rw [hpending]; decide)
  have hcount : i < s.partCount := by omega
  obtain ⟨bitmask, hbitmask⟩ : ∃ bitmask, s.markPart i actualSize = .ok bitmask := by
    rw [markPart]
    split
    · obtain ⟨bitmask, hset, -⟩ := s.bitmask.set_ok (Int.natCast_nonneg i)
      exact ⟨bitmask, hset⟩
    · exact ⟨s.bitmask, rfl⟩
  have hlimit : s.countsForLimit i = .ok (decide (0 < s.streamingLimit ∧ s.inStreamingLimit i = true)) := by
    rw [countsForLimit]
    by_cases hlimit : 0 < s.streamingLimit
    · simp [hlimit, isPartInStreamingLimit, hcount]
    · simp [hlimit]
  refine ⟨bitmask, ?_⟩
  rw [countPart, check_true hlength, ok_bind, check_true hpending, ok_bind]
  change (s.markPart i actualSize >>= fun bitmask => s.countsForLimit i >>= fun isInLimit => _) = _
  rw [hbitmask, ok_bind, hlimit, ok_bind]
  simp only [decide_eq_true_eq, counted, pure_def]
  split <;> rfl

/-- The manager with the bounds of the size after a part has come. -/
def bound (s : PartsManager) (i actualSize : Nat) : PartsManager :=
  meetBounds { s with minSize := s.newMinSize i actualSize, maxSize := s.newMaxSize i actualSize }

variable {actualSize : Nat}

/-- What `on_part_ok` makes of the bounds. What is counted of the limit is counted
anew if anything changed. -/
theorem boundSize_cases {partSize : Nat} (heq : s.boundSize i partSize actualSize = .ok (none, s')) :
    partSize = s.partSize ∧ s.newMinSize i actualSize ≤ s.newMaxSize i actualSize ∧
    (s' = (s.bound i actualSize).limited s.streamingLimit ∧ s.streamingLimit ≠ 0 ∨
      s' = s.bound i actualSize ∧ (s.streamingLimit = 0 ∨
        s.isShortPart i actualSize = false ∧ s.newMinSize i actualSize ≠ s.newMaxSize i actualSize)) := by
  unfold boundSize at heq
  dsimp only at heq
  rw [bind_ok_iff] at heq
  obtain ⟨_, hsize, heq⟩ := heq
  rw [check_ok_iff] at hsize
  refine ⟨hsize, ?_⟩
  split at heq
  · cases heq
  next hle =>
    refine ⟨Nat.le_of_not_lt hle, ?_⟩
    split at heq
    next hanew =>
      rw [setStreamingLimit_eq, ok_bind] at heq
      cases heq
      simp only [Bool.and_eq_true, bne_iff_ne] at hanew
      exact .inl ⟨rfl, hanew.2⟩
    next hkeep =>
      cases heq
      refine .inr ⟨rfl, ?_⟩
      simp only [Bool.and_eq_true, Bool.or_eq_true, beq_iff_eq, bne_iff_ne, not_and_or, not_or, not_not] at hkeep
      rcases hkeep with ⟨hshort, hne⟩ | hzero
      · exact .inr ⟨Bool.eq_false_iff.mpr hshort, hne⟩
      · exact .inl hzero

theorem onPartOk_ok_iff {partSize : Nat} : s.onPartOk i partSize actualSize = .ok s' ↔
    s.onPartOkStatus i partSize actualSize = .ok (none, s') := by
  rw [onPartOk, bind_ok_iff]
  constructor
  · rintro ⟨⟨_ | message, u⟩, hstatus, heq⟩
    · cases heq
      exact hstatus
    · cases heq
  · intro hstatus
    exact ⟨_, hstatus, rfl⟩

section

variable (h : s.Core inFlight)

include h

/-- **What `on_part_ok` does** with a part under way. If the size is known, only the part as it
is passes. -/
theorem onPartOk_cases (hflies : s.Flies part i)
    (heq : s.onPartOk i part.size actualSize = .ok s') : ∃ bitmask,
      (s.unknownSizeFlag = false ∧ (actualSize ≤ part.size → actualSize = (s.getPart i).size) ∧
        s' = s.counted i actualSize bitmask) ∨
      (s.unknownSizeFlag = true ∧ s.newMinSize i actualSize ≤ s.newMaxSize i actualSize ∧
        (s' = ((s.counted i actualSize bitmask).bound i actualSize).limited s.streamingLimit ∧ s.streamingLimit ≠ 0 ∨
          s' = (s.counted i actualSize bitmask).bound i actualSize ∧ (s.streamingLimit = 0 ∨
            s.isShortPart i actualSize = false ∧ s.newMinSize i actualSize ≠ s.newMaxSize i actualSize))) := by
  obtain ⟨bitmask, hcount⟩ := countPart_eq h.length_eq hflies.2.1 actualSize
  refine ⟨bitmask, ?_⟩
  rw [onPartOk_ok_iff, onPartOkStatus, hcount, ok_bind] at heq
  dsimp only at heq
  split at heq
  next hunknown => exact .inr ⟨hunknown, (boundSize_cases heq).2⟩
  next hknown =>
    have hknown' : s.unknownSizeFlag = false := Bool.eq_false_iff.mpr hknown
    split at heq
    · cases heq
    next hok =>
      cases heq
      refine .inl ⟨hknown', fun hactual => ?_, rfl⟩
      have hok' : ¬ ((actualSize < part.size ∧ s.partSize * i < s.size) ∨ (s.size ≤ s.partSize * i ∧ 0 < actualSize)) :=
        hok
      have htotal : s.totalSize = s.size := by simp [totalSize, hknown']
      rcases Nat.lt_or_ge (s.partSize * i) s.size with hlt | hge
      · have := hflies.2.2.2 hknown' hlt
        omega
      · rw [size_getPart, htotal, piece_eq_zero hge]
        omega

theorem Core.flies_remove {k : Nat} :
    ∀ part ∈ inFlight.filter (fun part => part.id != (k : Int)), ∃ j, s.Flies part j ∧ j ≠ k := by
  intro part hpart
  obtain ⟨hmem, hne⟩ := mem_filter.mp hpart
  obtain ⟨j, hflies⟩ := h.flies part hmem
  refine ⟨j, hflies, ?_⟩
  rintro rfl
  rw [hflies.1] at hne
  simp at hne

theorem Core.nodup_remove (k : Nat) :
    ((inFlight.filter fun part => part.id != (k : Int)).map Part.id).Nodup :=
  h.nodup.sublist (filter_sublist.map Part.id)

/-- A pending part gets another status and is under way no more. -/
theorem Core.settle (hpending : s.status i = .pending) (hst : st ≠ .pending)
    {firstEmpty streamingEmpty : Nat} (hempty : firstEmpty ≤ s.partCount) (hstreaming : streamingEmpty ≤ s.partCount)
    (hnotEmpty : ∀ j < firstEmpty, (s.setStatus i st).status j ≠ .empty) :
    { s.setStatus i st with
      pendingCount := s.pendingCount - 1
      firstEmptyPart := firstEmpty
      firstStreamingEmptyPart := streamingEmpty }.Core (inFlight.filter fun part => part.id != (i : Int)) := by
  have hlength : i < s.partStatus.length := lt_length_of_status (by rw [hpending]; decide)
  refine { h with
    length_eq := List.length_set.trans h.length_eq, empty_le := hempty, streamingEmpty_le := hstreaming
    notEmpty := hnotEmpty, pending := ?_, nodup := h.nodup_remove i, flies := ?_, bounded := ?_ }
  · have hcount := count_pending_set hlength st
    have hget : s.partStatus.getD i .empty = .pending := hpending
    have hcounted := h.pending
    rw [hget] at hcount
    simp only [hst, if_false, if_true] at hcount
    show s.pendingCount - 1 = ((s.partStatus.set i st).count .pending : Int)
    omega
  · intro part hpart
    obtain ⟨j, hflies, hne⟩ := h.flies_remove part hpart
    exact ⟨j, hflies.setStatus hlength hne st⟩
  · intro hunknown
    exact (h.bounded hunknown).setStatus hlength (by rw [hpending]; decide) st

theorem Core.counted (hpending : s.status i = .pending) (actualSize : Nat) (bitmask : Bitmask) :
    (s.counted i actualSize bitmask).Core (inFlight.filter fun part => part.id != (i : Int)) := by
  have hlength : i < s.partStatus.length := lt_length_of_status (by rw [hpending]; decide)
  have hnotEmpty : ∀ j < s.firstEmptyPart, (s.setStatus i .ready).status j ≠ .empty := by
    intro j hj
    rw [status_setStatus hlength]
    split
    · decide
    · exact h.notEmpty j hj
  have hsettled := h.settle hpending (show PartStatus.ready ≠ .pending by decide) h.empty_le h.streamingEmpty_le
    hnotEmpty
  exact { hsettled with }

end

/-- What is counted of the limit is right if as much has come as the part is long. -/
theorem Inv.counted (h : s.Inv inFlight) (hpending : s.status i = .pending) (bitmask : Bitmask)
    (hsize : actualSize = (s.getPart i).size) :
    (s.counted i actualSize bitmask).Inv (inFlight.filter fun part => part.id != (i : Int)) := by
  have hcore := h.toCore.counted hpending actualSize bitmask
  refine { hcore with streaming := ?_ }
  intro hlimit
  have hlimit' : 0 < s.streamingLimit := hlimit
  have hready := streamingReady_set h.length_eq (h.lt_partCount (by rw [hpending]; decide))
    (by rw [hpending]; decide : s.status i ≠ .ready)
  have hold := h.streaming hlimit
  show (if 0 < s.streamingLimit ∧ s.inStreamingLimit i = true then s.streamingReadySize + actualSize
    else s.streamingReadySize) = { s with partStatus := s.partStatus.set i .ready }.streamingReady
  rw [hready, hold, hsize]
  by_cases hin : s.inStreamingLimit i = true
  · simp [hlimit', hin]
  · simp [hlimit', hin]

/-- The lower bound stays the end of a part that has come. -/
theorem newMinSize_spec (hbounded : s.Bounded) (hready : s.status i = .ready) (hactual : actualSize ≤ s.partSize) :
    s.newMinSize i actualSize = 0 ∨ ∃ r, s.status r = .ready ∧ s.partSize * r < s.newMinSize i actualSize ∧
      s.newMinSize i actualSize ≤ s.partSize * (r + 1) := by
  obtain ⟨-, -, hmin⟩ := hbounded
  have hnext : s.partSize * (i + 1) = s.partSize * i + s.partSize := Nat.mul_succ _ _
  rw [newMinSize]
  split
  next hne =>
    rcases Nat.le_total s.minSize (s.partSize * i + actualSize) with hle | hge
    · exact .inr ⟨i, hready, by omega, by omega⟩
    · rw [Nat.max_eq_left hge]
      exact hmin
  next => exact hmin

/-- The upper bound stays a multiple of the part size, as long as it does not meet the
lower one. -/
theorem newMaxSize_spec (hbounded : s.Bounded) (hlt : s.newMinSize i actualSize < s.newMaxSize i actualSize) :
    s.newMaxSize i actualSize = noMaxSize ∨ s.partSize ∣ s.newMaxSize i actualSize := by
  obtain ⟨-, hmax, -⟩ := hbounded
  rw [newMaxSize] at hlt ⊢
  split at hlt
  next hshort =>
    rw [if_pos hshort]
    by_cases hzero : actualSize = 0
    · simp [hzero]
    · rw [newMinSize, if_pos hzero] at hlt
      omega
  next hlong =>
    rw [if_neg hlong]
    exact hmax

theorem bound_of_eq (h : s.newMinSize i actualSize = s.newMaxSize i actualSize) : s.bound i actualSize =
      { s with
        minSize := s.newMinSize i actualSize, maxSize := s.newMaxSize i actualSize
        unknownSizeFlag := false, size := s.newMinSize i actualSize } := if_pos h

theorem bound_of_ne (h : s.newMinSize i actualSize ≠ s.newMaxSize i actualSize) : s.bound i actualSize =
      { s with minSize := s.newMinSize i actualSize, maxSize := s.newMaxSize i actualSize } := if_neg h

/-- When the size is found, every pending part before the end of the file is a whole one:
the last part of the file has come. -/
theorem Core.bound (h : s.Core inFlight) (hunknown : s.unknownSizeFlag = true) (hready : s.status i = .ready)
    (hactual : actualSize ≤ s.partSize)
    (hle : s.newMinSize i actualSize ≤ s.newMaxSize i actualSize) : (s.bound i actualSize).Core inFlight := by
  have hbounded := h.bounded hunknown
  have hmin := newMinSize_spec hbounded hready hactual
  by_cases heq : s.newMinSize i actualSize = s.newMaxSize i actualSize
  · rw [bound_of_eq heq]
    refine { h with
      partSize_le := fun hfalse => absurd hfalse Bool.false_ne_true
      flies := ?_
      bounded := fun hfalse => absurd hfalse Bool.false_ne_true }
    intro part hpart
    obtain ⟨j, hid, hpending, hwhole, -⟩ := h.flies part hpart
    refine ⟨j, hid, hpending, fun hfalse => absurd hfalse Bool.false_ne_true, ?_⟩
    intro _ hlt
    rw [hwhole hunknown, size_getPart]
    symm
    apply piece_eq_unit
    show s.partSize * (j + 1) ≤ s.newMinSize i actualSize
    have hlt' : s.partSize * j < s.newMinSize i actualSize := hlt
    rcases hmin with hzero | ⟨r, hr, hrlt, hrle⟩
    · omega
    · have hjr : j < r + 1 := Nat.lt_of_mul_lt_mul_left (Nat.lt_of_lt_of_le hlt' hrle)
      have hne : j ≠ r := by
        intro hjr
        have hpending' : s.status j = .pending := hpending
        rw [hjr, hr] at hpending'
        cases hpending'
      have := Nat.mul_le_mul_left s.partSize (show j + 1 ≤ r by omega)
      omega
  · rw [bound_of_ne heq]
    have hlt := Nat.lt_of_le_of_ne hle heq
    refine { h with flies := ?_, bounded := fun _ => ⟨hlt, newMaxSize_spec hbounded hlt, hmin⟩ }
    intro part hpart
    obtain ⟨j, hid, hpending, hwhole, -⟩ := h.flies part hpart
    exact ⟨j, hid, hpending, hwhole, fun hknown => Bool.noConfusion (hunknown.symm.trans hknown)⟩

/-- A part that comes whole, or beyond the end that is known, has come as long as it is. -/
theorem size_of_kept (hunknown : s.unknownSizeFlag = true) (hactual : actualSize ≤ s.partSize)
    (hle : s.newMinSize i actualSize ≤ s.newMaxSize i actualSize) (hshort : s.isShortPart i actualSize = false)
    (hne : s.newMinSize i actualSize ≠ s.newMaxSize i actualSize) : actualSize = (s.getPart i).size := by
  have htotal : s.totalSize = s.maxSize := by simp [totalSize, hunknown]
  have hmax : s.newMaxSize i actualSize = s.maxSize := by simp [newMaxSize, hshort]
  rw [isShortPart, decide_eq_false_iff_not] at hshort
  rw [size_getPart, htotal]
  rw [newMinSize] at hle hne
  by_cases hzero : actualSize = 0
  · rcases Nat.eq_zero_or_pos s.partSize with hpos | hpos
    · simp [hzero, hpos, piece]
    · rw [piece_eq_zero (by omega)]
      exact hzero
  · grind [piece_eq_unit]

theorem Inv.onPartOk (h : s.Inv inFlight) (hflies : s.Flies part i)
    (hactual : actualSize ≤ part.size) (heq : s.onPartOk i part.size actualSize = .ok s') :
    s'.Inv (inFlight.filter fun part => part.id != (i : Int)) := by
  obtain ⟨bitmask, ⟨-, hsize, rfl⟩ | ⟨hunknown, hle, hcases⟩⟩ := onPartOk_cases h.toCore hflies heq
  · exact h.counted hflies.2.1 bitmask (hsize hactual)
  · obtain ⟨-, hpending, hwhole, -⟩ := hflies
    have hlength : i < s.partStatus.length := lt_length_of_status (by rw [hpending]; decide)
    have hready : (s.counted i actualSize bitmask).status i = .ready := by
      show (s.setStatus i .ready).status i = _
      rw [status_setStatus hlength, if_pos rfl]
    have hcore := h.toCore.counted hpending actualSize bitmask
    have hactual' : actualSize ≤ s.partSize := by rw [← hwhole hunknown]; exact hactual
    have hbound := hcore.bound hunknown hready hactual' hle
    rcases hcases with ⟨rfl, -⟩ | ⟨rfl, hzero | ⟨hshort, hne⟩⟩
    · exact hbound.limited _
    · refine { hbound with streaming := ?_ }
      intro hlimit
      have hlimit' : ((s.counted i actualSize bitmask).bound i actualSize).streamingLimit = s.streamingLimit := by
        unfold PartsManager.bound meetBounds
        split <;> rfl
      have hzero' : s.streamingLimit = 0 := hzero
      omega
    · have hsize := size_of_kept hunknown hactual' hle hshort hne
      have hinv := h.counted hpending bitmask hsize
      have hmax : (s.counted i actualSize bitmask).newMaxSize i actualSize = s.maxSize := by
        show s.newMaxSize i actualSize = _
        simp [newMaxSize, hshort]
      rw [bound_of_ne (by exact hne), hmax] at hbound ⊢
      exact { hbound with streaming := hinv.streaming }

theorem Inv.onPartFailed (h : s.Inv inFlight) (hpending : s.status i = .pending)
    (heq : s.onPartFailed i = .ok s') : s'.Inv (inFlight.filter fun part => part.id != (i : Int)) := by
  have hlength : i < s.partStatus.length := lt_length_of_status (by rw [hpending]; decide)
  have hlt : i < s.partCount := by rw [← h.length_eq]; exact hlength
  have hstreamingEmpty_le := h.streamingEmpty_le
  have hready : (s.setStatus i .empty).streamingReady = s.streamingReady :=
    streamingReady_setStatus h.length_eq hlt (by rw [hpending]; decide) (by decide)
  -- Whatever the streaming index becomes, it is at most the count.
  have hsettle : ∀ k ≤ s.partCount, { s.setStatus i .empty with
      pendingCount := s.pendingCount - 1
      firstEmptyPart := if i < s.firstEmptyPart then i else s.firstEmptyPart
      firstStreamingEmptyPart := k }.Inv (inFlight.filter fun part => part.id != (i : Int)) := by
    intro k hk
    have hcore := h.toCore.settle hpending (show PartStatus.empty ≠ .pending by decide)
      (show (if i < s.firstEmptyPart then i else s.firstEmptyPart) ≤ s.partCount by split <;> omega) hk
      (by
        intro j hj
        rw [status_setStatus hlength]
        split at hj
        · rw [if_neg (by omega)]
          exact h.notEmpty j (by omega)
        · rw [if_neg (by omega)]
          exact h.notEmpty j hj)
    refine { hcore with streaming := ?_ }
    intro hlimit
    have hold := h.streaming hlimit
    rw [← hready] at hold
    exact hold
  unfold PartsManager.onPartFailed at heq
  rw [check_true hpending, ok_bind] at heq
  dsimp only at heq
  split at heq
  · cases heq
    exact hsettle i (by omega)
  · rw [bind_ok_iff] at heq
    obtain ⟨-, -, heq⟩ := heq
    cases heq
    split
    · exact hsettle i (by omega)
    · exact hsettle s.firstStreamingEmptyPart hstreamingEmpty_le

/-! ## Questions -/

theorem isStreamingLimitReached_cases {isReached : Bool} (heq : s.isStreamingLimitReached = .ok (isReached, s')) :
    s' = s ∨ s' = s.updateFirstNotReadyPart := by
  unfold isStreamingLimitReached at heq
  split at heq
  · cases heq
    exact .inl rfl
  · rw [bind_ok_iff] at heq
    obtain ⟨isOutside, -, heq⟩ := heq
    split at heq
    · rw [bind_ok_iff] at heq
      obtain ⟨extra, -, heq⟩ := heq
      cases heq
      exact .inr rfl
    · cases heq
      exact .inr rfl

theorem finish_ok (heq : s.finish = .ok s') : s.ready = true ∧ s' = s := by
  unfold finish at heq
  split at heq
  next hready =>
    cases heq
    exact ⟨hready, rfl⟩
  next =>
    rw [bind_ok_iff] at heq
    obtain ⟨_, -, heq⟩ := heq
    cases heq

theorem getReadyPrefixCount_ok (heq : s.getReadyPrefixCount = .ok (n, s')) : s' = s.updateFirstNotReadyPart := by
  unfold getReadyPrefixCount at heq
  dsimp only [getUncheckedReadyPrefixCount] at heq
  split at heq
  · rw [bind_ok_iff] at heq
    obtain ⟨_, -, heq⟩ := heq
    cases heq
    rfl
  · cases heq
    rfl

theorem getUncheckedReadyPrefixSize_snd (s : PartsManager) :
    s.getUncheckedReadyPrefixSize.2 = s.updateFirstNotReadyPart := by
  unfold getUncheckedReadyPrefixSize
  dsimp only
  split <;> rfl

end PartsManager

/-! ## What a call can do -/

namespace Transfer

variable {t t' : Transfer}

/-- What becomes of a transfer in one call, which may set a limit. -/
inductive Becomes (t : Transfer) : Option Int → Transfer → Prop
  | same : Becomes t none t
  | asked : Becomes t none ⟨t.parts.updateFirstNotReadyPart, t.inFlight⟩
  | moved {offset limit : Int} {n : Nat} {parts : PartsManager}
      (hoffset : t.parts.setStreamingOffset offset limit = .ok (n, parts)) : Becomes t (some limit) ⟨parts, t.inFlight⟩
  | limited (limit : Int) : Becomes t (some limit) ⟨t.parts.limited limit, t.inFlight⟩
  | started {part : Part} {parts : PartsManager} (hstart : t.parts.startPart = .ok (part, parts)) :
      Becomes t none ⟨parts, if part.size = 0 then t.inFlight else t.inFlight ++ [part]⟩
  | came {i actualSize : Nat} {part : Part} {parts : PartsManager} (hfind : t.find i = some part)
      (hactual : actualSize ≤ part.size) (hok : t.parts.onPartOk i part.size actualSize = .ok parts) :
      Becomes t none ⟨parts, t.remove i⟩
  | failed {i : Nat} {part : Part} {parts : PartsManager} (hfind : t.find i = some part)
      (hfailed : t.parts.onPartFailed i = .ok parts) : Becomes t none ⟨parts, t.remove i⟩

theorem becomes_of_mayFinish {isReady : Bool} {parts : PartsManager}
    (heq : t.parts.mayFinish = .ok (isReady, parts)) : t.Becomes none ⟨parts, t.inFlight⟩ := by
  unfold mayFinish at heq
  rw [bind_ok_iff] at heq
  obtain ⟨⟨isReached, u⟩, hreached, heq⟩ := heq
  cases heq
  rcases isStreamingLimitReached_cases hreached with hsame | hupdated
  · rw [hsame]
    exact .same
  · rw [hupdated]
    exact .asked

theorem becomes_of_partOk {i actualSize : Nat} (heq : t.partOk i actualSize = .ok t') : t.Becomes none t' := by
  unfold Transfer.partOk at heq
  split at heq
  next =>
    cases heq
    exact .same
  next part hfind =>
    rw [bind_ok_iff] at heq
    obtain ⟨_, hactual, heq⟩ := heq
    rw [ensure_ok_iff] at hactual
    rw [bind_ok_iff] at heq
    obtain ⟨parts, hparts, heq⟩ := heq
    cases heq
    exact .came hfind hactual hparts

theorem becomes_of_partFailed {i : Nat} (heq : t.partFailed i = .ok t') : t.Becomes none t' := by
  unfold Transfer.partFailed at heq
  split at heq
  next =>
    cases heq
    exact .same
  next part hfind =>
    rw [bind_ok_iff] at heq
    obtain ⟨parts, hparts, heq⟩ := heq
    cases heq
    exact .failed hfind hparts

theorem becomes_of_step {call : Call} (heq : t.step call = .ok t') : t.Becomes call.newLimit t' := by
  cases call with
  | setStreamingOffset offset limit =>
    rw [step, bind_ok_iff] at heq
    obtain ⟨⟨n, parts⟩, hoffset, heq⟩ := heq
    cases heq
    exact .moved hoffset
  | setStreamingLimit limit =>
    rw [step, setStreamingLimit_eq, ok_bind] at heq
    cases heq
    exact .limited limit
  | startPart =>
    rw [step, startPart, bind_ok_iff] at heq
    obtain ⟨⟨part, parts⟩, hstart, heq⟩ := heq
    cases heq
    exact .started hstart
  | partOk i actualSize => exact becomes_of_partOk heq
  | partFailed i => exact becomes_of_partFailed heq
  | mayFinish =>
    rw [step, bind_ok_iff] at heq
    obtain ⟨⟨isReady, parts⟩, hmay, heq⟩ := heq
    cases heq
    exact becomes_of_mayFinish hmay
  | finish =>
    rw [step, bind_ok_iff] at heq
    obtain ⟨parts, hfinish, heq⟩ := heq
    rw [bind_ok_iff] at heq
    obtain ⟨_, -, heq⟩ := heq
    cases heq
    rw [(finish_ok hfinish).2]
    exact .same
  | getReadyPrefixCount =>
    rw [step, bind_ok_iff] at heq
    obtain ⟨⟨n, parts⟩, hcount, heq⟩ := heq
    cases heq
    rw [getReadyPrefixCount_ok hcount]
    exact .asked
  | getUncheckedReadyPrefixSize =>
    cases heq
    rw [getUncheckedReadyPrefixSize_snd]
    exact .asked
  | getEstimatedExtra | getBitmask =>
    rw [step, bind_ok_iff] at heq
    obtain ⟨_, -, heq⟩ := heq
    cases heq
    exact .same

/-! ## Every call keeps the invariant -/

def Inv (t : Transfer) : Prop := t.parts.Inv t.inFlight

theorem flies_of_find (h : t.Inv) {i : Nat} {part : Part} (hfind : t.find i = some part) : t.parts.Flies part i := by
  have hmem := mem_of_find?_eq_some hfind
  have hid := List.find?_some hfind
  obtain ⟨j, hflies⟩ := h.flies part hmem
  have hji : j = i := by
    have hid' : part.id = (i : Int) := by simpa using hid
    simpa [hflies.1] using hid'
  rw [hji] at hflies
  exact hflies

/-- **One call** keeps the invariant. -/
theorem Inv.becomes (h : t.Inv) {limit : Option Int} (hstep : t.Becomes limit t') : t'.Inv := by
  cases hstep with
  | same => exact h
  | asked => exact PartsManager.Inv.updateFirstNotReadyPart h
  | moved hoffset => exact PartsManager.Core.setStreamingOffset h.toCore hoffset
  | limited limit => exact PartsManager.Core.limited h.toCore limit
  | started hstart =>
    obtain ⟨choice, u, hchoice, ⟨rfl, rfl, -⟩ | ⟨i, -, hi, hempty, hlt, rfl, rfl⟩⟩ :=
      startPart_cases h hstart
    · exact PartsManager.Inv.choosePart h hchoice
    · have hu := PartsManager.Inv.choosePart h hchoice
      have hpos := size_pos_of_started hu.partSize_pos hlt
      rw [if_neg (Nat.ne_of_gt hpos)]
      exact hu.started hi hempty hlt
  | came hfind hactual hok => exact PartsManager.Inv.onPartOk h (flies_of_find h hfind) hactual hok
  | failed hfind hfailed => exact PartsManager.Inv.onPartFailed h (flies_of_find h hfind).2.1 hfailed

/-- Whatever every call keeps holds after every run. -/
theorem run_induction {P : Transfer → Prop} (hstep : ∀ {t limit t'}, P t → t.Becomes limit t' → P t') (h : P t)
    {calls : List Call} (heq : t.run calls = .ok t') : P t' := by
  induction calls generalizing t with
  | nil =>
    cases heq
    exact h
  | cons call calls ih =>
    rw [run, foldlM_cons, bind_ok_iff] at heq
    obtain ⟨t1, hone, hrest⟩ := heq
    exact ih (hstep h (becomes_of_step hone)) hrest

end Transfer

end Tdlib.Files
