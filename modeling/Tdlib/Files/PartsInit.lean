/-
How a transfer begins: `PartsManager::init` with the parts that are there from an
earlier attempt.
-/
import Tdlib.Files.PartsTransfer

namespace Tdlib.Files

open Outcome List

namespace PartsManager

variable {s s' : PartsManager} {i : Nat} {readyParts : List Nat}

/-! ## Parts that are there -/

/-- The manager with one more part that is there. -/
def restored (s : PartsManager) (i : Nat) (bitmask : Bitmask) : PartsManager :=
  { s.setStatus i .ready with bitmask := bitmask, readySize := s.readySize + (s.getPart i).size }

theorem restorePart_eq (hi : i < s.partCount) : ∃ bitmask, s.restorePart i = .ok (s.restored i bitmask) := by
  obtain ⟨bitmask, hset, -⟩ := s.bitmask.set_ok (Int.natCast_nonneg i)
  have hupload : ¬ (s.isUpload = true ∧ s.partCount ≤ i) := by omega
  refine ⟨bitmask, ?_⟩
  rw [restorePart, ensure_true hupload, ok_bind, check_true hi, ok_bind, hset]
  rfl

theorem restorePart_not_ok (hi : s.partCount ≤ i) :
    s.restorePart i = if s.isUpload then .error "FILE_UPLOAD_RESTART" else .fatal := by
  rw [restorePart]
  by_cases hupload : s.isUpload = true
  · simp [hupload, hi, ensure]
  · simp [hupload, ok_bind, check, (Nat.not_lt.mpr hi)]

/-- The manager with other parts. -/
def withParts (s : PartsManager) (statuses : List PartStatus) (bitmask : Bitmask) (readySize : Nat) : PartsManager :=
  { s with partStatus := statuses, bitmask := bitmask, readySize := readySize }

theorem restoreAll_ok (hlen : s.partStatus.length = s.partCount) (hall : ∀ i ∈ readyParts, i < s.partCount) :
    ∃ statuses bitmask,
      readyParts.foldlM (fun s partId => s.restorePart partId) s =
        .ok (s.withParts statuses bitmask (s.readySize + (readyParts.map fun i => (s.getPart i).size).sum)) ∧
      statuses.length = s.partCount ∧
      ∀ j, statuses.getD j .empty = if j ∈ readyParts then .ready else s.status j := by
  induction readyParts generalizing s with
  | nil => exact ⟨s.partStatus, s.bitmask, rfl, hlen, by simp [status]⟩
  | cons i rest ih =>
    have hi : i < s.partCount := hall i (by simp)
    obtain ⟨mask, hone⟩ := restorePart_eq hi
    obtain ⟨statuses, bitmask, hrest, hlength, hstatus⟩ := ih (s := s.restored i mask)
      (List.length_set.trans hlen) (fun j hj => hall j (by simp [hj]))
    refine ⟨statuses, bitmask, ?_, hlength, ?_⟩
    · rw [foldlM_cons, hone, ok_bind, hrest, map_cons, sum_cons, ← Nat.add_assoc]
      rfl
    · intro j
      have hset : (s.restored i mask).status j = if j = i then .ready else s.status j :=
        status_set (by omega) .ready j
      rw [hstatus, hset]
      by_cases hji : j = i
      · simp [hji]
      · simp [hji]

theorem restoreAll_not_ok (hlen : s.partStatus.length = s.partCount) (hsome : ∃ i ∈ readyParts, s.partCount ≤ i) :
    readyParts.foldlM (fun s partId => s.restorePart partId) s =
      if s.isUpload then .error "FILE_UPLOAD_RESTART" else .fatal := by
  induction readyParts generalizing s with
  | nil =>
    obtain ⟨i, hi, -⟩ := hsome
    cases hi
  | cons i rest ih =>
    rw [foldlM_cons]
    rcases Nat.lt_or_ge i s.partCount with hi | hi
    · obtain ⟨mask, hone⟩ := restorePart_eq hi
      rw [hone, ok_bind]
      refine ih (s := s.restored i mask) (List.length_set.trans hlen) ?_
      obtain ⟨j, hj, hle⟩ := hsome
      rcases mem_cons.mp hj with rfl | hj
      · omega
      · exact ⟨j, hj, hle⟩
    · rw [restorePart_not_ok hi]
      split <;> rfl

/-! ## The manager after `init` -/

/-- A manager that `init_common` is called on. -/
structure Unstarted (s : PartsManager) : Prop where
  firstEmptyPart : s.firstEmptyPart = 0
  firstStreamingEmptyPart : s.firstStreamingEmptyPart = 0
  firstNotReadyPart : s.firstNotReadyPart = 0
  firstStreamingNotReadyPart : s.firstStreamingNotReadyPart = 0
  pendingCount : s.pendingCount = 0
  streamingOffset : s.streamingOffset = 0
  streamingLimit : s.streamingLimit = 0
  readySize : s.readySize = 0
  needCheck : s.needCheck = false
  minSize : s.minSize = 0
  partSize_pos : 0 < s.partSize
  partSize_le : s.unknownSizeFlag = true → s.partSize * 2 ^ 31 ≤ noMaxSize
  maxSize : s.unknownSizeFlag = true → s.maxSize = noMaxSize

/-- How a transfer begins with these parts: what is not said of `s'` is as in `s`. -/
structure Begins (s s' : PartsManager) (readyParts : List Nat) : Prop where
  inv : s'.Inv []
  mem_lt : ∀ i ∈ readyParts, i < s'.partCount
  status : ∀ i, s'.status i = if i ∈ readyParts then .ready else .empty
  readySize : s'.readySize = (readyParts.map fun i => (s'.getPart i).size).sum
  same : ∃ statuses bitmask readySize a b c, s' = { s with
    partStatus := statuses, bitmask := bitmask, readySize := readySize
    firstNotReadyPart := a, firstStreamingNotReadyPart := b, checkedPrefixSize := c }

theorem getReadyPrefixCount_eq (hcheck : s.needCheck = false) :
    s.getReadyPrefixCount = .ok (s.updateFirstNotReadyPart.firstNotReadyPart, s.updateFirstNotReadyPart) := by
  have hcheck' : s.updateFirstNotReadyPart.needCheck = false := hcheck
  simp [getReadyPrefixCount, getUncheckedReadyPrefixCount, hcheck']

theorem initCommon_fatal_iff (hupload : s.isUpload = false) (hcheck : s.needCheck = false) :
    s.initCommon readyParts = .fatal ↔ 2 ^ 31 ≤ s.partCount ∨ ∃ i ∈ readyParts, s.partCount ≤ i := by
  have hlen : (List.replicate s.partCount PartStatus.empty).length = s.partCount := length_replicate
  unfold initCommon
  dsimp only
  rcases Nat.lt_or_ge s.partCount (2 ^ 31) with hlt | hge
  · rw [check_true hlt, ok_bind]
    by_cases hsome : ∃ i ∈ readyParts, s.partCount ≤ i
    · rw [restoreAll_not_ok (s := { s with partStatus := List.replicate s.partCount .empty }) hlen hsome]
      simp [hupload, hsome]
    · have hall : ∀ i ∈ readyParts, i < s.partCount := fun i hi => Nat.lt_of_not_le fun hle => hsome ⟨i, hi, hle⟩
      obtain ⟨statuses, bitmask, hrestore, -⟩ :=
        restoreAll_ok (s := { s with partStatus := List.replicate s.partCount .empty }) hlen hall
      rw [hrestore, ok_bind, getReadyPrefixCount_eq, ok_bind]
      · simp_all
      · exact hcheck
  · rw [check, if_neg (by omega)]
    exact ⟨fun _ => .inl hge, fun _ => rfl⟩

theorem Unstarted.initCommon (h : s.Unstarted) (heq : s.initCommon readyParts = .ok s') : Begins s s' readyParts := by
  have hlen : (List.replicate s.partCount PartStatus.empty).length = s.partCount := length_replicate
  unfold PartsManager.initCommon at heq
  dsimp only at heq
  rw [bind_ok_iff] at heq
  obtain ⟨_, hcount', heq⟩ := heq
  rw [check_ok_iff] at hcount'
  have hall : ∀ i ∈ readyParts, i < s.partCount := by
    by_contra hsome
    have hsome' : ∃ i ∈ readyParts, s.partCount ≤ i := by
      simpa using hsome
    rw [restoreAll_not_ok (s := { s with partStatus := List.replicate s.partCount .empty }) hlen hsome'] at heq
    split at heq <;> cases heq
  obtain ⟨statuses, bitmask, hrestore, hlength, hstatus⟩ :=
    restoreAll_ok (s := { s with partStatus := List.replicate s.partCount .empty }) hlen hall
  have hstatus' : ∀ j, statuses.getD j .empty = if j ∈ readyParts then .ready else .empty := by
    intro j
    rw [hstatus]
    congr 1
    exact status_append_empty [] s.partCount j
  rw [hrestore, ok_bind, getReadyPrefixCount_eq (by exact h.needCheck), ok_bind] at heq
  cases heq
  have hnone : ∀ j, statuses.getD j .empty ≠ .pending := by
    intro j
    rw [hstatus']
    split <;> decide
  have hcount : statuses.count .pending = 0 := by
    rw [count_eq_zero]
    intro hmem
    obtain ⟨j, hj, hget⟩ := getElem_of_mem hmem
    apply hnone j
    rw [getD_eq_getElem _ _ hj, hget]
  have hempty : s.firstEmptyPart ≤ s.partCount := by rw [h.firstEmptyPart]; exact Nat.zero_le _
  have hstreamingEmpty : s.firstStreamingEmptyPart ≤ s.partCount := by
    rw [h.firstStreamingEmptyPart]; exact Nat.zero_le _
  have hnotReady : s.firstNotReadyPart ≤ s.partCount := by rw [h.firstNotReadyPart]; exact Nat.zero_le _
  have hstreamingNotReady : s.firstStreamingNotReadyPart ≤ s.partCount := by
    rw [h.firstStreamingNotReadyPart]; exact Nat.zero_le _
  have hoffset : s.streamingOffset / s.partSize < 2 ^ 31 := by rw [h.streamingOffset, Nat.zero_div]; decide
  have hpending : s.pendingCount = (statuses.count .pending : Nat) := by rw [hcount, h.pendingCount]; rfl
  have hbounds : s.unknownSizeFlag = true → s.minSize < s.maxSize := by
    intro hunknown
    rw [h.minSize, h.maxSize hunknown]
    decide
  have hlimit : ¬ 0 < s.streamingLimit := by rw [h.streamingLimit]; decide
  have hcore : (s.withParts statuses bitmask
      (s.readySize + (readyParts.map fun i => (s.getPart i).size).sum)).Inv [] :=
    { partSize_pos := h.partSize_pos
      partSize_le := h.partSize_le
      length_eq := hlength
      count_lt := hcount'
      empty_le := hempty
      streamingEmpty_le := hstreamingEmpty
      notReady_le := hnotReady
      streamingNotReady_le := hstreamingNotReady
      offset_lt := hoffset
      notEmpty := fun j hj => absurd hj (by show ¬ j < s.firstEmptyPart; rw [h.firstEmptyPart]; omega)
      pending := hpending
      nodup := nodup_nil
      flies := by simp
      bounded := fun hunknown => ⟨hbounds hunknown, .inl (h.maxSize hunknown), .inl h.minSize⟩
      streaming := fun hpos => absurd hpos hlimit }
  exact
    { inv := { hcore.updateFirstNotReadyPart with }
      mem_lt := hall
      status := hstatus'
      readySize := by
        rw [h.readySize, Nat.zero_add]
        rfl
      same := ⟨_, _, _, _, _, _, rfl⟩ }

/-! ## `init` -/

theorem growPartSize_bounds (expectedSize fuel : Nat) {partSize : Nat} (hpos : 0 < partSize) :
    0 < growPartSize expectedSize fuel partSize ∧ growPartSize expectedSize fuel partSize ≤ partSize * 2 ^ fuel := by
  induction fuel generalizing partSize with
  | zero => simp [growPartSize, hpos]
  | succ fuel ih =>
    rw [growPartSize]
    split
    · obtain ⟨hlt, hle⟩ := ih (show 0 < partSize * 2 by omega)
      refine ⟨hlt, ?_⟩
      rw [Nat.pow_succ', ← Nat.mul_assoc]
      exact hle
    · refine ⟨hpos, ?_⟩
      exact Nat.le_mul_of_pos_right _ (Nat.two_pow_pos _)

/-- The size of the parts: the one that is asked for, or one that suits the size of the file. -/
def choosePartSize (size expectedSize partSize : Nat) : Nat :=
  if partSize ≠ 0 then partSize
  else if size = 0 then
    let partSize := growPartSize expectedSize 4 (32 * 1024)
    if partSize < maxPartSize then partSize * 2 else partSize
  else growPartSize expectedSize 3 (64 * 1024)

theorem choosePartSize_bounds (size expectedSize partSize : Nat) : 0 < choosePartSize size expectedSize partSize ∧
    (partSize * 2 ^ 31 ≤ noMaxSize → choosePartSize size expectedSize partSize * 2 ^ 31 ≤ noMaxSize) := by
  have hsmall := growPartSize_bounds expectedSize 4 (show 0 < 32 * 1024 by decide)
  have hlarge := growPartSize_bounds expectedSize 3 (show 0 < 64 * 1024 by decide)
  have hmax : noMaxSize = 9223372036854775807 := rfl
  unfold choosePartSize
  split
  · omega
  · dsimp only
    split
    · split <;> omega
    · omega

/-- The manager `init` calls `init_common` on. -/
def beginning (size expectedSize partSize : Nat) (readyParts : List Nat) (usePartCountLimit isUpload : Bool) :
    PartsManager :=
  { fresh with
    isUpload := isUpload
    usePartCountLimit := usePartCountLimit
    expectedSize := expectedSize
    size := size
    unknownSizeFlag := decide (size = 0)
    maxSize := if size = 0 then noMaxSize else 0
    partSize := choosePartSize size expectedSize partSize
    partCount :=
      if size = 0 then readyParts.foldl (fun count partId => max count (partId + 1)) 0
      else calcPartCount size (choosePartSize size expectedSize partSize) }

section

variable {size expectedSize partSize : Nat} {usePartCountLimit isUpload : Bool}

theorem beginning_unstarted (hle : size = 0 → partSize * 2 ^ 31 ≤ noMaxSize) :
    (beginning size expectedSize partSize readyParts usePartCountLimit isUpload).Unstarted := by
  obtain ⟨hpos, hbound⟩ := choosePartSize_bounds size expectedSize partSize
  refine ⟨rfl, rfl, rfl, rfl, rfl, rfl, rfl, rfl, rfl, rfl, hpos, ?_, ?_⟩
  · intro hunknown
    exact hbound (hle (of_decide_eq_true hunknown))
  · intro hunknown
    exact if_pos (of_decide_eq_true hunknown)

theorem initNoSize_eq : initNoSize { fresh with
        isUpload := isUpload, usePartCountLimit := usePartCountLimit, expectedSize := expectedSize }
        partSize readyParts =
      (beginning 0 expectedSize partSize readyParts usePartCountLimit isUpload).initCommon readyParts := rfl

theorem initSize_eq (hsize : size ≠ 0) (hlimit : usePartCountLimit = false) : initSize { fresh with
        isUpload := isUpload, usePartCountLimit := usePartCountLimit, expectedSize := expectedSize, size := size }
        partSize readyParts =
      (beginning size expectedSize partSize readyParts usePartCountLimit isUpload).initCommon readyParts := by
  subst hlimit
  simp [initSize, beginning, choosePartSize, hsize, fresh]

theorem initSize_ok (hsize : size ≠ 0)
    (heq : initSize { fresh with
        isUpload := isUpload, usePartCountLimit := usePartCountLimit, expectedSize := expectedSize, size := size }
        partSize readyParts = .ok s) :
    (beginning size expectedSize partSize readyParts usePartCountLimit isUpload).initCommon readyParts = .ok s := by
  unfold initSize at heq
  split at heq
  · rw [bind_ok_iff] at heq
    obtain ⟨_, -, heq⟩ := heq
    cases heq
  · rw [bind_ok_iff] at heq
    obtain ⟨_, -, heq⟩ := heq
    rw [← heq]
    simp [beginning, choosePartSize, hsize, fresh]

theorem init_ok (heq : init size expectedSize partSize readyParts usePartCountLimit isUpload = .ok s) :
    size ≤ expectedSize ∧ expectedSize ≤ maxFileSize ∧
    (beginning size expectedSize partSize readyParts usePartCountLimit isUpload).initCommon readyParts = .ok s := by
  unfold init at heq
  rw [bind_ok_iff] at heq
  obtain ⟨_, hexpected, heq⟩ := heq
  rw [check_ok_iff] at hexpected
  rw [bind_ok_iff] at heq
  obtain ⟨_, hmax, heq⟩ := heq
  rw [ensure_ok_iff] at hmax
  refine ⟨hexpected, hmax, ?_⟩
  split at heq
  next hzero =>
    subst hzero
    exact heq
  next hsize => exact initSize_ok hsize heq

/-- `init` as `FileDownloader` calls it aborts if the sizes contradict each other, or
if a part is restored that the file does not have. -/
theorem init_fatal_iff : init size expectedSize partSize readyParts false false = .fatal ↔
      expectedSize < size ∨
        expectedSize ≤ maxFileSize ∧
          (2 ^ 31 ≤ (beginning size expectedSize partSize readyParts false false).partCount ∨
            ∃ i ∈ readyParts, (beginning size expectedSize partSize readyParts false false).partCount ≤ i) := by
  unfold init
  rcases Nat.lt_or_ge expectedSize size with hlt | hge
  · simp [check, (Nat.not_le.mpr hlt), hlt]
  · rw [check_true hge, ok_bind]
    by_cases hmax : expectedSize ≤ maxFileSize
    · have heq : (if size = 0 then initNoSize { fresh with
            isUpload := false, usePartCountLimit := false, expectedSize := expectedSize } partSize readyParts
          else initSize { fresh with
            isUpload := false, usePartCountLimit := false, expectedSize := expectedSize, size := size } partSize
            readyParts) =
          (beginning size expectedSize partSize readyParts false false).initCommon readyParts := by
        split
        next hzero => rw [hzero, initNoSize_eq]
        next hsize => rw [← initSize_eq hsize rfl]
      have hiff : (beginning size expectedSize partSize readyParts false false).initCommon readyParts = .fatal ↔ _ :=
        initCommon_fatal_iff rfl rfl
      simpa [← heq, hmax, Nat.not_lt.mpr hge] using hiff
    · simp [ensure, hmax, Nat.not_lt.mpr hge]

end

end PartsManager

end Tdlib.Files
