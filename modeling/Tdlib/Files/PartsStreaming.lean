/-
The assertions of `PartsManager` in a download, with streaming. All of them hold,
but for one: how much is still to be loaded is computed to be negative when the
streamed range begins at the end of the file or behind it and goes on, around the
end, over a part that is there (`WrapsOntoReady`). Then the range itself counts
for nothing, and the ready part in it is still subtracted.
-/
import Tdlib.Files.PartsInit

namespace Tdlib.Files

open Outcome Tiling PartsManager

namespace PartsManager

variable {s s' : PartsManager} {i : Nat} {inFlight : List Part}

/-! ## Parts in the limit -/

/-- The part meets the streamed range. -/
def InRange (s : PartsManager) (i : Nat) : Prop :=
  s.streamingOffset < s.partSize * i + (s.getPart i).size ∧
    s.partSize * i < s.streamingOffset + s.streamingLimit.toNat

/-- The part meets what the range has left behind the end of the file, at its beginning. -/
def InWrap (s : PartsManager) (i : Nat) : Prop :=
  s.unknownSizeFlag = false ∧ s.partSize * i + s.size < s.streamingOffset + s.streamingLimit.toNat

theorem inStreamingLimit_iff (hlimit : 0 < s.streamingLimit) (hsize : 0 < (s.getPart i).size) :
    s.inStreamingLimit i = true ↔ s.InRange i ∨ s.InWrap i := by
  have hoffset : (s.getPart i).offset = s.partSize * i := rfl
  have hne : s.streamingLimit ≠ 0 := Int.ne_of_gt hlimit
  simp only [inStreamingLimit, InRange, InWrap, hoffset, hne, decide_false, Bool.false_or, Bool.or_eq_true,
    Bool.and_eq_true, Bool.not_eq_true', decide_eq_true_eq]
  constructor
  · intro h
    rcases h with h | ⟨⟨hknown, hlt⟩, h⟩
    · exact .inl (by omega)
    · exact .inr ⟨hknown, by omega⟩
  · intro h
    rcases h with h | ⟨hknown, h⟩
    · exact .inl (by omega)
    · exact .inr ⟨⟨hknown, by omega⟩, by omega⟩

/-- The parts that are there and in the limit. -/
def readyInLimit (s : PartsManager) : Finset Nat :=
  (Finset.range s.partCount).filter fun i => s.inStreamingLimit i = true ∧ s.status i = .ready

theorem streamingReady_eq_sum (s : PartsManager) :
    s.streamingReady = ∑ i ∈ s.readyInLimit, piece s.totalSize s.partSize i := by
  rw [streamingReady, readyInLimit, Finset.sum_filter]
  apply Finset.sum_congr rfl
  intro i _
  simp [size_getPart]

theorem mem_readyInLimit (hlimit : 0 < s.streamingLimit) (hi : i ∈ s.readyInLimit)
    (hpos : 0 < piece s.totalSize s.partSize i) :
    i < s.partCount ∧ s.status i = .ready ∧ (s.InRange i ∨ s.InWrap i) := by
  rw [readyInLimit, Finset.mem_filter, Finset.mem_range] at hi
  obtain ⟨hlt, hin, hready⟩ := hi
  rw [← size_getPart] at hpos
  exact ⟨hlt, hready, (inStreamingLimit_iff hlimit hpos).mp hin⟩

/-- A part that meets the range is not before its first part, and not behind its last one. -/
theorem InRange.bounds (h : s.InRange i) (hpos : 0 < s.partSize) : s.streamingOffset / s.partSize ≤ i ∧
    i < (s.streamingOffset + s.streamingLimit.toNat + s.partSize - 1) / s.partSize := by
  obtain ⟨hend, hbegin⟩ := h
  refine ⟨div_le hpos ?_, lt_divUp hpos hbegin⟩
  have hle : (s.getPart i).size ≤ s.partSize := by
    rw [size_getPart]
    exact Nat.min_le_left _ _
  rw [Nat.mul_succ]
  omega

theorem div_le_divUp (hpos : 0 < s.partSize) (hlimit : 0 < s.streamingLimit) : s.streamingOffset / s.partSize ≤
      (s.streamingOffset + s.streamingLimit.toNat + s.partSize - 1) / s.partSize :=
  Nat.div_le_div_right (by omega)

/-! ## The estimate -/

/-- The streamed range begins at the end of the file or behind it, and goes on over a
part that is there. -/
def WrapsOntoReady (s : PartsManager) : Prop :=
  0 < s.streamingLimit ∧ s.unknownSizeFlag = false ∧ s.size ≤ s.streamingOffset ∧
    ∃ i < s.partCount, s.status i = .ready ∧ 0 < (s.getPart i).size ∧
      s.partSize * i + s.size < s.streamingOffset + s.streamingLimit.toNat

theorem roundUp_eq (s : PartsManager) (x : Nat) : s.roundUp x = s.partSize * ((x + s.partSize - 1) / s.partSize) :=
  Nat.mul_comm _ _

section

variable (hpos : 0 < s.partSize) (hlimit : 0 < s.streamingLimit)

include hpos hlimit

/-- The parts of a range that does not go on at the beginning of the file. -/
theorem streamingReady_le_of_not_inWrap (hwrap : ∀ i, ¬ s.InWrap i) : s.streamingReady ≤
      cut s.totalSize s.partSize ((s.streamingOffset + s.streamingLimit.toNat + s.partSize - 1) / s.partSize) -
        cut s.totalSize s.partSize (s.streamingOffset / s.partSize) := by
  rw [streamingReady_eq_sum]
  refine sum_piece_le (div_le_divUp hpos hlimit) fun i hi hsize => ?_
  exact ((mem_readyInLimit hlimit hi hsize).2.2.resolve_right (hwrap i)).bounds hpos

/-- While the size is not known, the range is not larger than its parts. -/
theorem streamingReady_le_of_unknown
    (hunknown : s.unknownSizeFlag = true) : (s.streamingReady : Int) ≤ s.streamingSize := by
  have htotal : s.totalSize = s.maxSize := by simp [totalSize, hunknown]
  have hmono := cut_mono s.maxSize s.partSize (div_le_divUp hpos hlimit)
  have hle := streamingReady_le_of_not_inWrap hpos hlimit fun i hwrap => by simp [InWrap, hunknown] at hwrap
  rw [streamingSize]
  simp only [hunknown, if_true, roundUp_eq, Nat.mul_comm (s.streamingOffset / s.partSize)]
  unfold cut at hle hmono
  omega

theorem streamingReady_le_of_inside
    (hknown : s.unknownSizeFlag = false) (hinside : s.streamingOffset + s.streamingLimit.toNat ≤ s.size) :
    (s.streamingReady : Int) ≤ s.streamingSize := by
  have htotal : s.totalSize = s.size := by simp [totalSize, hknown]
  have hbegin := (mul_div_bounds hpos s.streamingOffset).1
  have hmono := cut_mono s.size s.partSize (div_le_divUp hpos hlimit)
  have hle := streamingReady_le_of_not_inWrap hpos hlimit fun i hwrap => by have := hwrap.2; omega
  rw [streamingSize]
  simp only [hknown, Bool.false_eq_true, if_false, hinside, if_true, roundUp_eq,
    Nat.mul_comm (s.streamingOffset / s.partSize)]
  unfold cut at hle hmono
  omega

theorem streamingReady_le_of_wrapped
    (hknown : s.unknownSizeFlag = false) (houtside : s.size < s.streamingOffset + s.streamingLimit.toNat)
    (hoffset : s.streamingOffset < s.size) : (s.streamingReady : Int) ≤ s.streamingSize := by
  have htotal : s.totalSize = s.size := by simp [totalSize, hknown]
  have hbegin := (mul_div_bounds hpos s.streamingOffset).1
  have hall : s.streamingReady ≤ s.size := by
    rw [streamingReady_eq_sum, htotal]
    refine Nat.le_trans (sum_piece_le (Nat.zero_le s.partCount) ?_) (Nat.le_trans (Nat.sub_le _ _) cut_le)
    intro i hi _
    exact ⟨Nat.zero_le _, by simpa using (Finset.mem_filter.mp hi).1⟩
  have hle : s.streamingReady ≤
      (cut s.size s.partSize (max (s.streamingOffset / s.partSize) s.partCount) -
          cut s.size s.partSize (s.streamingOffset / s.partSize)) +
        (cut s.size s.partSize
            ((s.streamingOffset + s.streamingLimit.toNat - s.size + s.partSize - 1) / s.partSize) -
          cut s.size s.partSize 0) := by
    rw [streamingReady_eq_sum, htotal]
    apply sum_piece_le_add (Nat.le_max_left (s.streamingOffset / s.partSize) s.partCount)
      (Nat.zero_le ((s.streamingOffset + s.streamingLimit.toNat - s.size + s.partSize - 1) / s.partSize))
    intro i hi hsize
    rw [← htotal] at hsize
    obtain ⟨hlt, -, hrange | hwrap⟩ := mem_readyInLimit hlimit hi hsize
    · exact .inl ⟨(hrange.bounds hpos).1, Nat.lt_of_lt_of_le hlt (Nat.le_max_right _ _)⟩
    · refine .inr ⟨Nat.zero_le _, lt_divUp hpos ?_⟩
      have := hwrap.2
      omega
  have hcut : cut s.size s.partSize (max (s.streamingOffset / s.partSize) s.partCount) ≤ s.size := cut_le
  rw [streamingSize]
  simp only [hknown, Bool.false_eq_true, if_false, Nat.not_le.mpr houtside, hoffset, if_true, roundUp_eq,
    Nat.mul_comm (s.streamingOffset / s.partSize)]
  unfold cut at hle hcut
  omega

end

theorem streamingReady_le_iff_of_behind (hlimit : 0 < s.streamingLimit) (hknown : s.unknownSizeFlag = false)
    (hoffset : s.size ≤ s.streamingOffset) : (s.streamingReady : Int) ≤ s.streamingSize ↔ ¬ s.WrapsOntoReady := by
  have htotal : s.totalSize = s.size := by simp [totalSize, hknown]
  have hzero : s.streamingSize = 0 := by
    rw [streamingSize]
    simp only [hknown, Bool.false_eq_true, if_false]
    rw [if_neg (by omega), if_neg (by omega)]
  have hsum : s.streamingReady = 0 ↔ ∀ i ∈ s.readyInLimit, piece s.totalSize s.partSize i = 0 := by
    rw [streamingReady_eq_sum, Finset.sum_eq_zero_iff]
  rw [hzero, show ((s.streamingReady : Int) ≤ 0) ↔ s.streamingReady = 0 by omega, hsum]
  constructor
  · intro h hwraps
    obtain ⟨-, -, -, i, hi, hready, hsize, hlt⟩ := hwraps
    have hin : i ∈ s.readyInLimit := by
      rw [readyInLimit, Finset.mem_filter, Finset.mem_range]
      exact ⟨hi, (inStreamingLimit_iff hlimit hsize).mpr (.inr ⟨hknown, hlt⟩), hready⟩
    have := h i hin
    rw [size_getPart] at hsize
    omega
  · intro h i hi
    by_contra hne
    have hsize := Nat.pos_of_ne_zero hne
    obtain ⟨hlt, hready, hrange | hwrap⟩ := mem_readyInLimit hlimit hi hsize
    · -- The part would have to end behind the file.
      have hend := hrange.1
      grind [size_getPart, piece]
    · rw [← size_getPart] at hsize
      exact h ⟨hlimit, hknown, hoffset, i, hlt, hready, hsize, hwrap.2⟩

/-- **The estimate** is negative in this one case only. -/
theorem streamingReady_le_iff (hpos : 0 < s.partSize) (hlimit : 0 < s.streamingLimit) :
    (s.streamingReady : Int) ≤ s.streamingSize ↔ ¬ s.WrapsOntoReady := by
  cases hknown : s.unknownSizeFlag with
  | true =>
    refine ⟨?_, fun _ => streamingReady_le_of_unknown hpos hlimit hknown⟩
    intro _ hwraps
    rw [hwraps.2.1] at hknown
    cases hknown
  | false =>
    rcases Nat.lt_or_ge s.streamingOffset s.size with hoffset | hoffset
    · constructor
      · intro _ hwraps
        have := hwraps.2.2.1
        omega
      · intro _
        rcases Nat.lt_or_ge s.size (s.streamingOffset + s.streamingLimit.toNat) with houtside | hinside
        · exact streamingReady_le_of_wrapped hpos hlimit hknown houtside hoffset
        · exact streamingReady_le_of_inside hpos hlimit hknown hinside
    · exact streamingReady_le_iff_of_behind hlimit hknown hoffset

/-! ## Assertions that fail -/

theorem getEstimatedExtra_fatal_iff (h : s.Inv inFlight) (hlimit : 0 ≤ s.streamingLimit) :
    s.getEstimatedExtra = .fatal ↔ s.WrapsOntoReady := by
  by_cases hzero : s.streamingLimit = 0
  · simp [getEstimatedExtra, hzero, WrapsOntoReady]
  · have hpos : 0 < s.streamingLimit := by omega
    have hready := h.streaming hpos
    rw [← not_iff_not, ← streamingReady_le_iff h.partSize_pos hpos]
    simp [getEstimatedExtra, hzero, sumStreamingReady_eq, bind_fatal_iff, check_fatal_iff, hready]

/-- `is_streaming_limit_reached` asks for the estimate. -/
def AsksExtra (s : PartsManager) : Prop :=
  s.streamingLimit ≠ 0 ∧ (s.updateFirstNotReadyPart.nextNotReadyPart = s.partCount ∨
    s.inStreamingLimit s.updateFirstNotReadyPart.nextNotReadyPart = false)

theorem isPartOutsideLimit_eq (hi : i ≤ s.partCount) :
    s.isPartOutsideLimit i = .ok (decide (i = s.partCount ∨ s.inStreamingLimit i = false)) := by
  rw [isPartOutsideLimit]
  by_cases hlast : i = s.partCount
  · simp [hlast]
  · rw [if_neg hlast, isPartInStreamingLimit, check_true (Nat.lt_of_le_of_ne hi hlast)]
    cases hin : s.inStreamingLimit i <;> simp [hlast]

section

variable (h : s.Inv inFlight) (hlimit : 0 ≤ s.streamingLimit)

include h hlimit

theorem isStreamingLimitReached_fatal_iff : s.isStreamingLimitReached = .fatal ↔ s.AsksExtra ∧ s.WrapsOntoReady := by
  have hu := h.updateFirstNotReadyPart
  have hnext : s.updateFirstNotReadyPart.nextNotReadyPart ≤ s.updateFirstNotReadyPart.partCount := by
    rw [nextNotReadyPart]
    split
    · exact hu.notReady_le
    · exact hu.streamingNotReady_le
  have hextra : s.updateFirstNotReadyPart.getEstimatedExtra = .fatal ↔ s.WrapsOntoReady :=
    getEstimatedExtra_fatal_iff hu hlimit
  have hasks : s.AsksExtra ↔ s.streamingLimit ≠ 0 ∧
      (s.updateFirstNotReadyPart.nextNotReadyPart = s.updateFirstNotReadyPart.partCount ∨
        s.updateFirstNotReadyPart.inStreamingLimit s.updateFirstNotReadyPart.nextNotReadyPart = false) := Iff.rfl
  rw [hasks, isStreamingLimitReached]
  dsimp only
  rw [isPartOutsideLimit_eq hnext]
  split
  next hzero => simp [hzero]
  next hzero =>
    rw [ok_bind]
    split
    next hout => simp_all [bind_fatal_iff]
    next hout => simp_all

theorem mayFinish_fatal_iff : s.mayFinish = .fatal ↔ s.AsksExtra ∧ s.WrapsOntoReady := by
  rw [← isStreamingLimitReached_fatal_iff h hlimit, mayFinish]
  cases s.isStreamingLimitReached <;> simp

theorem finish_fatal_iff : s.finish = .fatal ↔ s.ready = false ∧ s.AsksExtra ∧ s.WrapsOntoReady := by
  rw [← isStreamingLimitReached_fatal_iff h hlimit, finish]
  cases hready : s.ready with
  | true => simp
  | false => cases s.isStreamingLimitReached <;> simp

end

theorem setStreamingOffset_fatal_iff (hcheck : s.needCheck = false) (hcount : s.usePartCountLimit = false)
    {offset : Int} (limit : Int) (hoffset : 0 ≤ offset) : s.setStreamingOffset offset limit = .fatal ↔
      (s.unknownSizeFlag = true ∨ offset ≤ s.size) ∧ 2 ^ 31 ≤ offset.toNat / s.partSize := by
  cases hunknown : s.unknownSizeFlag <;>
    simp only [setStreamingOffset, hunknown, hcheck, hcount, finishStreamingOffset_eq] <;>
    split_ifs <;> simp_all [bind_fatal_iff, check_fatal_iff] <;> omega

theorem startPart_ne_fatal (h : s.Inv inFlight) : s.startPart ≠ .fatal := by
  cases hchoice : s.choosePart with
  | ok r =>
    obtain ⟨part, s', hstart⟩ := startPart_total h hchoice
    simp [hstart]
  | error message => simp [startPart, hchoice]
  | fatal =>
    simp only [choosePart] at hchoice
    split_ifs at hchoice

theorem onPartOk_ne_fatal (h : s.Inv inFlight) {part : Part} (hflies : s.Flies part i) (actualSize : Nat) :
    s.onPartOk i part.size actualSize ≠ .fatal := by
  obtain ⟨-, hpending, hwhole, -⟩ := hflies
  obtain ⟨bitmask, hcount⟩ := countPart_eq h.length_eq hpending actualSize
  refine bind_ne_fatal ?_ ?_
  swap
  · rintro ⟨_ | message, u⟩ <;> simp
  rw [onPartOkStatus, hcount, ok_bind]
  dsimp only
  split
  next hunknown =>
    have hsize : part.size = (s.counted i actualSize bitmask).partSize := hwhole hunknown
    simp only [boundSize, check_true hsize, ok_bind, setStreamingLimit_eq]
    split_ifs <;> simp
  next => split <;> simp

theorem onPartFailed_ne_fatal (h : s.Inv inFlight) (hpending : s.status i = .pending) : s.onPartFailed i ≠ .fatal := by
  rw [onPartFailed, check_true hpending, ok_bind]
  dsimp only
  split
  · exact ok_ne_fatal
  · rw [check_true (by exact h.offset_lt), ok_bind]
    exact ok_ne_fatal

/-! ## What stays the same -/

/-- The settings of a manager, and the limit. -/
def SameSettings (s s' : PartsManager) : Prop :=
  s'.needCheck = s.needCheck ∧ s'.usePartCountLimit = s.usePartCountLimit ∧ s'.streamingLimit = s.streamingLimit

theorem settings_of_setStreamingOffset {offset limit : Int} {n : Nat}
    (heq : s.setStreamingOffset offset limit = .ok (n, s')) :
    s'.needCheck = s.needCheck ∧ s'.usePartCountLimit = s.usePartCountLimit ∧ s'.streamingLimit = limit := by
  simp only [setStreamingOffset, finishStreamingOffset_eq] at heq
  split_ifs at heq <;> simp [bind_ok_iff] at heq
  · obtain ⟨-, -, rfl⟩ := heq
    exact ⟨rfl, rfl, rfl⟩
  · obtain ⟨-, rfl⟩ := heq
    exact ⟨rfl, rfl, rfl⟩
  · obtain ⟨-, -, rfl⟩ := heq
    exact ⟨rfl, rfl, rfl⟩

theorem sameSettings_of_startPart (h : s.Inv inFlight) {part : Part} (heq : s.startPart = .ok (part, s')) :
    SameSettings s s' := by
  obtain ⟨choice, u, hchoice, hcases⟩ := startPart_cases h heq
  have hu : SameSettings s u := by
    obtain ⟨_, -, -, -, ⟨rfl, -⟩ | ⟨rfl, -⟩⟩ | ⟨-, rfl, -⟩ := choosePart_cases h hchoice
    all_goals exact ⟨rfl, rfl, rfl⟩
  obtain ⟨-, rfl, -⟩ | ⟨i, -, -, -, -, rfl, -⟩ := hcases
  · exact hu
  · exact hu

theorem sameSettings_bound (s : PartsManager) (i actualSize : Nat) : SameSettings s (s.bound i actualSize) := by
  unfold bound meetBounds
  split
  · exact ⟨rfl, rfl, rfl⟩
  · exact ⟨rfl, rfl, rfl⟩

theorem sameSettings_of_onPartOk (h : s.Inv inFlight) {part : Part} (hflies : s.Flies part i) {actualSize : Nat}
    (heq : s.onPartOk i part.size actualSize = .ok s') : SameSettings s s' := by
  obtain ⟨bitmask, ⟨-, -, rfl⟩ | ⟨-, -, hcases⟩⟩ := onPartOk_cases h.toCore hflies heq
  · exact ⟨rfl, rfl, rfl⟩
  · obtain ⟨hcheck, hlimit, hsame⟩ := sameSettings_bound (s.counted i actualSize bitmask) i actualSize
    rcases hcases with ⟨rfl, -⟩ | ⟨rfl, -⟩
    · exact ⟨hcheck, hlimit, rfl⟩
    · exact ⟨hcheck, hlimit, hsame⟩

theorem sameSettings_of_onPartFailed (hpending : s.status i = .pending) (heq : s.onPartFailed i = .ok s') :
    SameSettings s s' := by
  rw [onPartFailed, check_true hpending, ok_bind] at heq
  dsimp only at heq
  split at heq
  · cases heq
    exact ⟨rfl, rfl, rfl⟩
  · obtain ⟨_, -, heq⟩ := bind_ok_iff.mp heq
    cases heq
    split <;> exact ⟨rfl, rfl, rfl⟩

end PartsManager

/-! ## Whole downloads -/

/-- Arguments that `FileManager` passes on: it checks that they are not negative, and
bounds them, so that their sum stays an `int64`. -/
def Call.Valid : Call → Prop
  | .setStreamingOffset offset limit => 0 ≤ offset ∧ offset ≤ maxFileSize ∧ 0 ≤ limit ∧ limit < 2 ^ 62
  | .setStreamingLimit limit => 0 ≤ limit ∧ limit < 2 ^ 62
  | _ => True

namespace Transfer

variable {t t' : Transfer} {call : Call} {calls : List Call}

/-- No call changes what the manager was told at the beginning, and only some change the limit. -/
theorem Becomes.settings (hinv : t.Inv) {limit : Option Int} (hstep : t.Becomes limit t') :
    t'.parts.needCheck = t.parts.needCheck ∧ t'.parts.usePartCountLimit = t.parts.usePartCountLimit ∧
    t'.parts.streamingLimit = limit.getD t.parts.streamingLimit := by
  cases hstep with
  | same | asked | limited => exact ⟨rfl, rfl, rfl⟩
  | moved hoffset => exact settings_of_setStreamingOffset hoffset
  | started hstart => exact sameSettings_of_startPart hinv hstart
  | came hfind _ hok => exact sameSettings_of_onPartOk hinv (flies_of_find hinv hfind) hok
  | failed hfind hfailed => exact sameSettings_of_onPartFailed (flies_of_find hinv hfind).2.1 hfailed

/-- A download: the manager of a `FileDownloader` that has not been told to check
hashes. -/
structure Downloading (t : Transfer) : Prop where
  inv : t.Inv
  needCheck : t.parts.needCheck = false
  noCountLimit : t.parts.usePartCountLimit = false
  limit_nonneg : 0 ≤ t.parts.streamingLimit

/-- The call is one that an assertion fails in. -/
def Trips (t : Transfer) : Call → Prop
  | .setStreamingOffset offset _ =>
    (t.parts.unknownSizeFlag = true ∨ offset ≤ t.parts.size) ∧ 2 ^ 31 ≤ offset.toNat / t.parts.partSize
  | .getEstimatedExtra => t.parts.WrapsOntoReady
  | .mayFinish => t.parts.AsksExtra ∧ t.parts.WrapsOntoReady
  | .finish => t.parts.ready = false ∧ t.parts.AsksExtra ∧ t.parts.WrapsOntoReady
  | _ => False

theorem Downloading.step (h : t.Downloading) (hvalid : call.Valid) (heq : t.step call = .ok t') : t'.Downloading := by
  have hbecomes := becomes_of_step heq
  obtain ⟨hcheck, hcount, hlimit⟩ := hbecomes.settings h.inv
  refine ⟨h.inv.becomes hbecomes, hcheck.trans h.needCheck, hcount.trans h.noCountLimit, ?_⟩
  rw [hlimit]
  cases call with
  | setStreamingOffset offset limit => exact hvalid.2.2.1
  | setStreamingLimit limit => exact hvalid.1
  | startPart | partOk | partFailed | mayFinish | finish | getEstimatedExtra | getReadyPrefixCount
    | getUncheckedReadyPrefixSize | getBitmask => exact h.limit_nonneg

theorem step_fatal_iff (h : t.Downloading) (hvalid : call.Valid) : t.step call = .fatal ↔ t.Trips call := by
  have hinv := h.inv
  have hlimit := h.limit_nonneg
  cases call with
  | setStreamingOffset offset limit =>
    have hiff := setStreamingOffset_fatal_iff h.needCheck h.noCountLimit limit hvalid.1
    rw [Trips, ← hiff, step]
    cases t.parts.setStreamingOffset offset limit <;> simp
  | setStreamingLimit limit =>
    rw [step, setStreamingLimit_eq]
    exact ⟨ok_ne_fatal, False.elim⟩
  | startPart => simp [step, Trips, startPart, bind_fatal_iff, startPart_ne_fatal hinv]
  | partOk i actualSize =>
    simp only [step, Trips, partOk]
    split
    next => simp
    next part hfind =>
      have hne := onPartOk_ne_fatal hinv (flies_of_find hinv hfind) actualSize
      simp [bind_fatal_iff, ensure_ne_fatal, hne]
  | partFailed i =>
    simp only [step, Trips, partFailed]
    split
    next => simp
    next part hfind =>
      simp [bind_fatal_iff, onPartFailed_ne_fatal hinv (flies_of_find hinv hfind).2.1]
  | mayFinish =>
    rw [Trips, ← mayFinish_fatal_iff hinv hlimit, step]
    cases t.parts.mayFinish <;> simp
  | finish =>
    rw [Trips, ← finish_fatal_iff hinv hlimit, step]
    cases hfinish : t.parts.finish with
    | ok parts =>
      obtain ⟨hready, rfl⟩ := finish_ok hfinish
      have hknown : t.parts.unknownSizeFlag = false := by
        simp only [ready, uncheckedReady, Bool.and_eq_true, Bool.not_eq_true'] at hready
        exact hready.1.1
      simp [getSize, hknown]
    | error message => simp
    | fatal => simp
  | getEstimatedExtra =>
    rw [Trips, ← getEstimatedExtra_fatal_iff hinv hlimit, step]
    cases t.parts.getEstimatedExtra <;> simp
  | getReadyPrefixCount =>
    rw [step, getReadyPrefixCount_eq h.needCheck]
    exact ⟨ok_ne_fatal, False.elim⟩
  | getUncheckedReadyPrefixSize => exact ⟨ok_ne_fatal, False.elim⟩
  | getBitmask =>
    have hcheck := h.needCheck
    simp [step, Trips, getBitmask, hcheck, Bitmask.encode, Bitmask.clearTail]

/-- A download: `init` as `FileDownloader` calls it, and the calls that follow. -/
def download (size expectedSize partSize : Nat) (readyParts : List Nat) (calls : List Call) : Outcome Transfer := do
  let parts ← init size expectedSize partSize readyParts false false
  run ⟨parts, []⟩ calls

/-- `init` trips: the sizes contradict each other, or a part is restored that the file
does not have. -/
def InitTrips (size expectedSize partSize : Nat) (readyParts : List Nat) : Prop :=
  let partCount := (beginning size expectedSize partSize readyParts false false).partCount
  expectedSize < size ∨
    expectedSize ≤ maxFileSize ∧ (2 ^ 31 ≤ partCount ∨ ∃ i ∈ readyParts, partCount ≤ i)

/-- A run aborts at the call that trips. -/
theorem run_fatal_iff (h : t.Downloading) (hvalid : ∀ call ∈ calls, call.Valid) : t.run calls = .fatal ↔
      ∃ before call after t', calls = before ++ call :: after ∧ t.run before = .ok t' ∧ t'.Trips call := by
  induction calls generalizing t with
  | nil => simp [run]
  | cons call calls ih =>
    have hfirst := step_fatal_iff h (hvalid call (by simp))
    have hrest : ∀ other ∈ calls, other.Valid := fun other hother => hvalid other (by simp [hother])
    rw [run, List.foldlM_cons, bind_fatal_iff, hfirst]
    constructor
    · rintro (htrips | ⟨t1, hstep, hrun⟩)
      · exact ⟨[], call, calls, t, rfl, rfl, htrips⟩
      · obtain ⟨before, trip, after, t', rfl, hrun, htrips⟩ :=
          (ih (h.step (hvalid call (by simp)) hstep) hrest).mp hrun
        refine ⟨call :: before, trip, after, t', rfl, ?_, htrips⟩
        rw [run, List.foldlM_cons, hstep]
        exact hrun
    · rintro ⟨before, trip, after, t', hcalls, hrun, htrips⟩
      cases before with
      | nil =>
        cases hcalls
        cases hrun
        exact .inl htrips
      | cons other before =>
        cases hcalls
        rw [run, List.foldlM_cons, bind_ok_iff] at hrun
        obtain ⟨t1, hstep, hrun⟩ := hrun
        refine .inr ⟨t1, hstep, (ih (h.step (hvalid call (by simp)) hstep) hrest).mpr ?_⟩
        exact ⟨before, trip, after, t', rfl, hrun, htrips⟩

theorem downloading_of_init {size expectedSize partSize : Nat} {readyParts : List Nat} {parts : PartsManager}
    (hpartSize : partSize ≤ 2 ^ 20)
    (hinit : init size expectedSize partSize readyParts false false = .ok parts) :
    Downloading ⟨parts, []⟩ := by
  have hle : partSize * 2 ^ 31 ≤ noMaxSize := by
    have hmax : noMaxSize = 9223372036854775807 := rfl
    omega
  obtain ⟨-, -, hcommon⟩ := init_ok hinit
  have hbegins := (beginning_unstarted fun _ => hle).initCommon hcommon
  have hinv := hbegins.inv
  obtain ⟨_, _, _, _, _, _, rfl⟩ := hbegins.same
  exact ⟨hinv, rfl, rfl, Int.le_refl 0⟩

/-- **The assertions of a download.** For every size, known or not, all restored parts,
part sizes up to 1 MB and all calls, an assertion fails exactly if `init` is given parts
that the file does not have, or if a call trips: the estimate is asked for while the
streamed range begins behind the file and goes on over a part that is there, or the
range begins in a part whose number is not an `int`. -/
theorem download_fatal_iff {size expectedSize partSize : Nat} {readyParts : List Nat} (hpartSize : partSize ≤ 2 ^ 20)
    (hvalid : ∀ call ∈ calls, call.Valid) : download size expectedSize partSize readyParts calls = .fatal ↔
      InitTrips size expectedSize partSize readyParts ∨
        ∃ before call after t, calls = before ++ call :: after ∧
          download size expectedSize partSize readyParts before = .ok t ∧ t.Trips call := by
  have hiff : init size expectedSize partSize readyParts false false = .fatal ↔
      InitTrips size expectedSize partSize readyParts := init_fatal_iff
  simp only [download, bind_fatal_iff, bind_ok_iff, hiff]
  refine or_congr_right ?_
  constructor
  · rintro ⟨parts, hinit, hrun⟩
    obtain ⟨before, call, after, t, hcalls, hbefore, htrips⟩ :=
      (run_fatal_iff (downloading_of_init hpartSize hinit) hvalid).mp hrun
    exact ⟨before, call, after, t, hcalls, ⟨parts, hinit, hbefore⟩, htrips⟩
  · rintro ⟨before, call, after, t, hcalls, ⟨parts, hinit, hbefore⟩, htrips⟩
    exact ⟨parts, hinit, (run_fatal_iff (downloading_of_init hpartSize hinit) hvalid).mpr
      ⟨before, call, after, t, hcalls, hbefore, htrips⟩⟩

/-- The first part of a file of two is there, and the second one comes. -/
theorem download_fatal_iff_two :
    (∀ call ∈ [Call.setStreamingOffset 70000 1000, .startPart, .partOk 1 65536, .getEstimatedExtra, .mayFinish],
      call.Valid) ∧
    (download 131072 131072 65536 [0]
        [.setStreamingOffset 70000 1000, .startPart, .partOk 1 65536, .getEstimatedExtra, .mayFinish] = .fatal ↔
      InitTrips 131072 131072 65536 [0] ∨
        ∃ before call after t,
          [Call.setStreamingOffset 70000 1000, .startPart, .partOk 1 65536, .getEstimatedExtra, .mayFinish] =
            before ++ call :: after ∧
          download 131072 131072 65536 [0] before = .ok t ∧ t.Trips call) := by
  have hvalid : ∀ call ∈ [Call.setStreamingOffset 70000 1000, .startPart, .partOk 1 65536, .getEstimatedExtra,
      .mayFinish], call.Valid := by
    simp [Call.Valid, maxFileSize, maxPartSize, maxPartCountPremium]
  exact ⟨hvalid, download_fatal_iff (by decide) hvalid⟩

/-- The first part of a file of two is there, and one byte is streamed from the end of
the file on. -/
theorem download_from_end_fatal :
    download 131072 131072 65536 [0] [.setStreamingOffset 131072 1, .getEstimatedExtra] = .fatal := by
  decide +kernel

end Transfer

end Tdlib.Files
