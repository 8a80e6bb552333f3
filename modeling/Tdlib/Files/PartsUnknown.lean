/-
A download of unknown size. The size is found where the bounds that the parts give
meet. That the parts come whole, in any order, is enough for this, as long as there may
be a part that the file ends in or before, and the last part of the file is among those
that come: a part that is there from an earlier attempt bounds the size from neither
side, and if it is the last one the manager never learns the size, and stops requesting
parts (`unknown_size_finishes_iff`).
-/
import Mathlib.Order.Lattice.Nat
import Tdlib.Files.PartsBookkeeping

namespace Tdlib.Files

open Outcome Tiling List PartsManager

/-! ## Runs -/

/-- A part is requested, there is none to request, or a part comes. -/
inductive Move
  | request (partId : Nat)
  | nothing
  | complete (partId : Nat)
  deriving DecidableEq, Repr

/-- The parts a move requests. -/
def Move.requests : Move → List Nat
  | .request partId => [partId]
  | .nothing => []
  | .complete _ => []

namespace Transfer

/-- A move in the transfer of a file of `size` bytes: each part comes with what the
file has of it. -/
inductive Moves (size : Nat) (t : Transfer) : Move → Transfer → Prop
  | request {partId : Nat} {part : Part} {parts : PartsManager} (hstart : t.parts.startPart = .ok (part, parts))
      (hid : part.id = partId) (hpos : part.size ≠ 0) : Moves size t (.request partId) ⟨parts, t.inFlight ++ [part]⟩
  | nothing {part : Part} {parts : PartsManager} (hstart : t.parts.startPart = .ok (part, parts))
      (hzero : part.size = 0) : Moves size t .nothing ⟨parts, t.inFlight⟩
  | complete {i : Nat} {part : Part} {parts : PartsManager} (hfind : t.find i = some part)
      (hok : t.parts.onPartOk i part.size (piece size t.parts.partSize i) = .ok parts) :
      Moves size t (.complete i) ⟨parts, t.remove i⟩

/-- What a finite run leads to, with the parts it requested. -/
inductive Reaches (size : Nat) (t₀ : Transfer) : List Nat → Transfer → Prop
  | start : Reaches size t₀ [] t₀
  | move {ids : List Nat} {t t' : Transfer} {move : Move} (hreaches : Reaches size t₀ ids t)
      (hmove : t.Moves size move t') : Reaches size t₀ (ids ++ move.requests) t'

/-- What happens next: a move, or nothing any more where no move is left. -/
def Goes (size : Nat) (t : Transfer) : Option Move → Transfer → Prop
  | some move, t' => t.Moves size move t'
  | none, t' => t' = t ∧ ∀ move t'', ¬ t.Moves size move t''

/-- A run that goes on as long as it can. A part under way can always come
(`Sound.complete`), so a run that stops has none, and `start_part` returns an error. -/
structure IsRun (size : Nat) (t₀ : Transfer) (state : Nat → Transfer) (moves : Nat → Option Move) : Prop where
  start : state 0 = t₀
  move : ∀ n, (state n).Goes size (moves n) (state (n + 1))

/-- Parts keep completing: when some are under way, one of them comes in the end. -/
def KeepsCompleting (state : Nat → Transfer) (moves : Nat → Option Move) : Prop :=
  ∀ n, (state n).inFlight ≠ [] → ∃ m, n ≤ m ∧ ∃ i, moves m = some (.complete i)

/-- Nothing is pending, the size is known, and the transfer is ready. -/
def Finished (size : Nat) (t : Transfer) : Prop :=
  t.parts.pendingCount = 0 ∧ t.parts.unknownSizeFlag = false ∧ t.parts.size = size ∧ t.parts.ready = true

end Transfer

namespace PartsManager

variable {s s' : PartsManager} {i j size : Nat} {inFlight : List Part} {part : Part}

/-! ## What the parts of the file say of its size -/

theorem end_le_size (hpos : piece size s.partSize i ≠ 0) : s.partSize * i + piece size s.partSize i ≤ size := by
  unfold piece at *
  omega

theorem size_le_end (hshort : piece size s.partSize i < s.partSize) :
    size ≤ s.partSize * i + piece size s.partSize i := by
  unfold piece at *
  omega

theorem newMinSize_le (hlow : s.minSize ≤ size) : s.newMinSize i (piece size s.partSize i) ≤ size := by
  rw [newMinSize]
  split
  next hpos => exact Nat.max_le.mpr ⟨hlow, end_le_size hpos⟩
  next => exact hlow

theorem le_newMaxSize (hhigh : size ≤ s.maxSize) : size ≤ s.newMaxSize i (piece size s.partSize i) := by
  rw [newMaxSize]
  split
  next hshort =>
    rw [isShortPart, decide_eq_true_eq] at hshort
    exact size_le_end hshort.1
  next => exact hhigh

theorem minSize_le_newMinSize (actualSize : Nat) : s.minSize ≤ s.newMinSize i actualSize := by
  rw [newMinSize]
  split
  · exact Nat.le_max_left _ _
  · exact Nat.le_refl _

theorem newMaxSize_le_maxSize (actualSize : Nat) : s.newMaxSize i actualSize ≤ s.maxSize := by
  rw [newMaxSize]
  split
  next hshort =>
    rw [isShortPart, decide_eq_true_eq] at hshort
    omega
  next => exact Nat.le_refl _

/-- A part bounds the size: from below by what is in it, from above if it is short. -/
def BoundsBy (s : PartsManager) (size i : Nat) : Prop :=
  (s.partSize * i < size → s.partSize * i + piece size s.partSize i ≤ s.minSize) ∧
    (piece size s.partSize i < s.partSize → s.maxSize ≤ s.partSize * i + piece size s.partSize i)

/-- What a manager knows of a file of `size` bytes, some parts of which were there at
the beginning. -/
structure Honest (s : PartsManager) (inFlight : List Part) (size : Nat) (readyParts : List Nat) : Prop where
  inv : s.Inv inFlight
  streamingOffset : s.streamingOffset = 0
  streamingLimit : s.streamingLimit = 0
  needCheck : s.needCheck = false
  flying : ∀ i, s.status i = .pending → ∃ part ∈ inFlight, part.id = i
  restored : ∀ i ∈ readyParts, s.status i = .ready
  known : s.unknownSizeFlag = false → s.size = size ∧ size ≤ s.partSize * s.partCount
  low : s.unknownSizeFlag = true → s.minSize ≤ size
  high : s.unknownSizeFlag = true → size ≤ s.maxSize
  received : s.unknownSizeFlag = true → ∀ i, s.status i = .ready → i ∉ readyParts → s.BoundsBy size i

variable {readyParts : List Nat}

/-! ## Requests -/

theorem Honest.updateFirstEmptyPart (h : s.Honest inFlight size readyParts) :
    s.updateFirstEmptyPart.Honest inFlight size readyParts :=
  { h with inv := h.inv.updateFirstEmptyPart }

theorem status_grown (s : PartsManager) (i : Nat) : s.grown.status i = s.status i := by
  rw [grown, status, ← replicate_one, status_append_empty]
  rfl

theorem Honest.choosePart (h : s.Honest inFlight size readyParts) {choice : Option Nat}
    (heq : s.choosePart = .ok (choice, s')) : s'.Honest inFlight size readyParts := by
  have hinv := h.inv.choosePart heq
  obtain ⟨_, -, -, -, ⟨rfl, -⟩ | ⟨rfl, hunknown, -⟩⟩ | ⟨-, rfl, -⟩ := choosePart_cases h.inv heq
  · exact h.updateFirstEmptyPart
  · have hstatus : ∀ i, s.updateFirstEmptyPart.grown.status i = s.status i := status_grown _
    have hknown : s.unknownSizeFlag ≠ false := by simp [hunknown]
    refine
      { h with
        inv := hinv, flying := ?_, restored := ?_, known := fun hfalse => absurd hfalse hknown, received := ?_ }
    all_goals simp only [hstatus]
    · exact h.flying
    · exact h.restored
    · exact h.received
  · exact h.updateFirstEmptyPart

theorem Honest.started (h : s.Honest inFlight size readyParts) (hi : i < s.partCount) (hempty : s.status i = .empty)
    (hlt : i * s.partSize < s.totalSize) : (s.started i).Honest (inFlight ++ [s.getPart i]) size readyParts := by
  have hlength : i < s.partStatus.length := by rw [h.inv.length_eq]; exact hi
  have hstatus : ∀ j, (s.started i).status j = if j = i then .pending else s.status j :=
    status_setStatus hlength .pending
  refine { h with inv := h.inv.started hi hempty hlt, flying := ?_, restored := ?_, received := ?_ }
  · intro j hj
    rw [hstatus] at hj
    by_cases hji : j = i
    · exact ⟨s.getPart i, by simp, by rw [hji]; rfl⟩
    · rw [if_neg hji] at hj
      obtain ⟨part, hmem, hid⟩ := h.flying j hj
      exact ⟨part, by simp [hmem], hid⟩
  · intro j hj
    have hready := h.restored j hj
    rw [hstatus, if_neg, hready]
    rintro rfl
    rw [hempty] at hready
    cases hready
  · intro hunknown j hj hnot
    rw [hstatus] at hj
    split at hj
    · cases hj
    · exact h.received hunknown j hj hnot

/-! ## Parts that come -/

variable {actualSize : Nat} {n : Nat}

theorem onPartOk_unlimited (h : s.Inv inFlight) (hlimit : s.streamingLimit = 0) (hflies : s.Flies part i)
    (heq : s.onPartOk i part.size actualSize = .ok s') : ∃ bitmask,
      (s.unknownSizeFlag = false ∧ s' = s.counted i actualSize bitmask) ∨
      (s.unknownSizeFlag = true ∧ s' = (s.counted i actualSize bitmask).bound i actualSize) := by
  obtain ⟨bitmask, ⟨hknown, -, rfl⟩ | ⟨hunknown, -, ⟨-, hne⟩ | ⟨rfl, -⟩⟩⟩ := onPartOk_cases h.toCore hflies heq
  · exact ⟨bitmask, .inl ⟨hknown, rfl⟩⟩
  · exact absurd hlimit hne
  · exact ⟨bitmask, .inr ⟨hunknown, rfl⟩⟩

/-- **No error.** A part that comes as the file has it is accepted. -/
theorem Honest.onPartOk (h : s.Honest inFlight size readyParts) (hflies : s.Flies part i) :
    ∃ s', s.onPartOk i part.size (piece size s.partSize i) = .ok s' := by
  obtain ⟨-, hpending, hwhole, hsize⟩ := hflies
  obtain ⟨bitmask, hcount⟩ := countPart_eq h.inv.length_eq hpending (piece size s.partSize i)
  simp only [onPartOk_ok_iff, onPartOkStatus, hcount, ok_bind]
  split
  next hunknown =>
    have hpartSize : part.size = (s.counted i (piece size s.partSize i) bitmask).partSize := hwhole hunknown
    have hle : s.newMinSize i (piece size s.partSize i) ≤ s.newMaxSize i (piece size s.partSize i) :=
      Nat.le_trans (newMinSize_le (h.low hunknown)) (le_newMaxSize (h.high hunknown))
    rw [boundSize, check_true hpartSize, ok_bind]
    rw [if_neg (by exact Nat.not_lt.mpr hle)]
    split
    · simp [setStreamingLimit_eq]
    · exact ⟨_, rfl⟩
  next hknown =>
    have hknown' : s.unknownSizeFlag = false := Bool.eq_false_iff.mpr hknown
    have htotal : s.totalSize = s.size := by simp [totalSize, hknown']
    obtain ⟨hsame, -⟩ := h.known hknown'
    have hok : ¬ ((piece size s.partSize i < part.size ∧ s.partSize * i < s.size) ∨
        (s.size ≤ s.partSize * i ∧ 0 < piece size s.partSize i)) := by
      rcases Nat.lt_or_ge (s.partSize * i) s.size with hlt | hge
      · have hlen := hsize hknown' hlt
        rw [size_getPart, htotal, hsame] at hlen
        omega
      · grind [piece_eq_zero]
    rw [if_neg (by exact hok)]
    exact ⟨_, rfl⟩

theorem piece_le_size (h : s.Honest inFlight size readyParts) (hflies : s.Flies part i) :
    piece size s.partSize i ≤ part.size := by
  obtain ⟨-, -, hwhole, hsize⟩ := hflies
  cases hknown : s.unknownSizeFlag with
  | true =>
    rw [hwhole hknown]
    exact Nat.min_le_left _ _
  | false =>
    have htotal : s.totalSize = s.size := by simp [totalSize, hknown]
    obtain ⟨hsame, -⟩ := h.known hknown
    rcases Nat.lt_or_ge (s.partSize * i) s.size with hlt | hge
    · rw [hsize hknown hlt, size_getPart, htotal, hsame]
    · grind [piece_eq_zero]

/-- The manager with what was learned of the size. -/
def learned (s : PartsManager) (minSize maxSize size : Nat) (unknownSizeFlag : Bool) : PartsManager :=
  { s with minSize := minSize, maxSize := maxSize, size := size, unknownSizeFlag := unknownSizeFlag }

/-- A part that comes is counted, and all else that changes is what is known of the size. -/
theorem onPartOk_learned (h : s.Inv inFlight) (hlimit : s.streamingLimit = 0) (hflies : s.Flies part i)
    (heq : s.onPartOk i part.size actualSize = .ok s') : ∃ bitmask minSize maxSize size unknownSizeFlag,
      s' = (s.counted i actualSize bitmask).learned minSize maxSize size unknownSizeFlag := by
  obtain ⟨bitmask, ⟨-, rfl⟩ | ⟨-, rfl⟩⟩ := onPartOk_unlimited h hlimit hflies heq
  · exact ⟨bitmask, _, _, _, _, rfl⟩
  · refine ⟨bitmask, ?_⟩
    unfold bound meetBounds
    split
    · exact ⟨_, _, _, _, rfl⟩
    · exact ⟨_, _, _, _, rfl⟩

theorem status_counted (hpending : s.status i = .pending) (actualSize : Nat) (bitmask : Bitmask) (j : Nat) :
    (s.counted i actualSize bitmask).status j = if j = i then .ready else s.status j :=
  status_setStatus (lt_length_of_status (by rw [hpending]; decide)) .ready j

theorem boundsBy_bound (hpos : 0 < s.partSize) {bitmask : Bitmask} {unknownSizeFlag : Bool} {foundSize : Nat} :
    ((s.counted i (piece size s.partSize i) bitmask).learned
      (s.newMinSize i (piece size s.partSize i)) (s.newMaxSize i (piece size s.partSize i))
      foundSize unknownSizeFlag).BoundsBy size i := by
  constructor
  · intro hlt
    have hne : piece size s.partSize i ≠ 0 := Nat.ne_of_gt ((piece_pos hpos).mpr hlt)
    rw [newMinSize, if_pos hne]
    exact Nat.le_max_right _ _
  · intro hshort
    show s.newMaxSize i (piece size s.partSize i) ≤ s.partSize * i + piece size s.partSize i
    have hshort' : piece size s.partSize i < s.partSize := hshort
    rw [newMaxSize, isShortPart]
    split
    next => exact Nat.le_refl _
    next hlong =>
      rw [decide_eq_true_eq] at hlong
      omega

/-- When the bounds meet they meet at the size, and the parts reach there. -/
theorem Honest.found (h : s.Honest inFlight size readyParts) (hflies : s.Flies part i)
    (hunknown : s.unknownSizeFlag = true)
    (heq : s.newMinSize i (piece size s.partSize i) = s.newMaxSize i (piece size s.partSize i)) :
    s.newMinSize i (piece size s.partSize i) = size ∧ size ≤ s.partSize * s.partCount := by
  have hlow := newMinSize_le (i := i) (h.low hunknown)
  have hhigh := le_newMaxSize (i := i) (h.high hunknown)
  have hsize : s.newMinSize i (piece size s.partSize i) = size := by omega
  refine ⟨hsize, ?_⟩
  have hcore := h.inv.toCore.counted hflies.2.1 (piece size s.partSize i) s.bitmask
  have hready := status_counted hflies.2.1 (piece size s.partSize i) s.bitmask i
  rw [if_pos rfl] at hready
  have hspec := newMinSize_spec (hcore.bounded hunknown) hready
    (show piece size s.partSize i ≤ s.partSize from Nat.min_le_left _ _)
  have hmin : (s.counted i (piece size s.partSize i) s.bitmask).newMinSize i
      (piece size s.partSize i) = size := hsize
  rw [hmin] at hspec
  rcases hspec with hzero | ⟨r, hr, -, hle⟩
  · omega
  · have hlt := hcore.lt_partCount (by rw [hr]; decide)
    exact Nat.le_trans hle (Nat.mul_le_mul_left _ hlt)

theorem Honest.came (h : s.Honest inFlight size readyParts) (hflies : s.Flies part i)
    (heq : s.onPartOk i part.size (piece size s.partSize i) = .ok s') :
    s'.Honest (inFlight.filter fun part => part.id != (i : Int)) size readyParts := by
  have hinv := h.inv.onPartOk hflies (piece_le_size h hflies) heq
  have hstatus : ∀ j, s'.status j = if j = i then .ready else s.status j := by
    obtain ⟨bitmask, _, _, _, _, rfl⟩ := onPartOk_learned h.inv h.streamingLimit hflies heq
    exact status_counted hflies.2.1 (piece size s.partSize i) bitmask
  have hflying : ∀ j, s'.status j = .pending →
      ∃ part ∈ inFlight.filter (fun part => part.id != (i : Int)), part.id = j := by
    intro j hj
    rw [hstatus] at hj
    split at hj
    · cases hj
    next hne =>
      obtain ⟨part, hmem, hid⟩ := h.flying j hj
      refine ⟨part, mem_filter.mpr ⟨hmem, ?_⟩, hid⟩
      simp_all
  have hrestored : ∀ j ∈ readyParts, s'.status j = .ready := by
    intro j hj
    rw [hstatus, h.restored j hj, ite_self]
  obtain ⟨bitmask, ⟨hknown, rfl⟩ | ⟨hunknown, rfl⟩⟩ := onPartOk_unlimited h.inv h.streamingLimit hflies heq
  · exact
      { h with
        inv := hinv, flying := hflying, restored := hrestored
        received := fun hunknown => Bool.noConfusion (hknown.symm.trans hunknown) }
  · have hmono : ∀ j, s.BoundsBy size j →
        ((s.counted i (piece size s.partSize i) bitmask).learned
          (s.newMinSize i (piece size s.partSize i)) (s.newMaxSize i (piece size s.partSize i))
          s.size s.unknownSizeFlag).BoundsBy size j := by
      intro j hbounds
      obtain ⟨hmin, hmax⟩ := hbounds
      exact ⟨fun hlt => Nat.le_trans (hmin hlt) (minSize_le_newMinSize _),
        fun hshort => Nat.le_trans (newMaxSize_le_maxSize _) (hmax hshort)⟩
    by_cases hmeet : s.newMinSize i (piece size s.partSize i) = s.newMaxSize i (piece size s.partSize i)
    · rw [bound_of_eq (by exact hmeet)] at hinv hflying hrestored ⊢
      exact
        { h with
          inv := hinv, flying := hflying, restored := hrestored, known := fun _ => h.found hflies hunknown hmeet
          low := fun hfalse => absurd hfalse Bool.false_ne_true
          high := fun hfalse => absurd hfalse Bool.false_ne_true
          received := fun hfalse => absurd hfalse Bool.false_ne_true }
    · rw [bound_of_ne (by exact hmeet)] at hinv hstatus hflying hrestored ⊢
      refine
        { h with
          inv := hinv, flying := hflying, restored := hrestored
          known := fun hknown => Bool.noConfusion (hunknown.symm.trans hknown)
          low := fun _ => newMinSize_le (h.low hunknown), high := fun _ => le_newMaxSize (h.high hunknown)
          received := ?_ }
      intro _ j hj hnot
      rw [hstatus] at hj
      split at hj
      next hji =>
        rw [hji]
        exact boundsBy_bound h.inv.partSize_pos
      next => exact hmono j (h.received hunknown j hj hnot)

/-! ## Nothing to request -/

theorem choosePart_first (hoffset : s.streamingOffset = 0) (heq : s.choosePart = .ok (some i, s')) :
    i = s'.firstEmptyPart := by
  have hsame : s.updateFirstEmptyPart.firstStreamingEmptyPart = s.updateFirstEmptyPart.firstEmptyPart :=
    if_pos hoffset
  unfold choosePart at heq
  dsimp only at heq
  split at heq
  · split at heq
    · split at heq
      · cases heq
      · cases heq
        exact hsame
    · split at heq
      · cases heq
        rfl
      · cases heq
  · cases heq
    exact hsame

/-- There is a choice unless all parts there may be are taken. -/
theorem choosePart_fits (hfits : s.updateFirstEmptyPart.firstStreamingEmptyPart = s.partCount →
    s.partCount + 1 ≤ s.partLimit) : ∃ choice u, s.choosePart = .ok (choice, u) := by
  unfold choosePart
  dsimp only
  split
  next hlast =>
    split
    · rw [if_neg (by exact Nat.not_lt.mpr (hfits hlast))]
      exact ⟨_, _, rfl⟩
    · split <;> exact ⟨_, _, rfl⟩
  next => exact ⟨_, _, rfl⟩

section

variable (h : s.Inv inFlight) {choice : Option Nat} (heq : s.choosePart = .ok (choice, s'))

include h heq

theorem status_choosePart (i : Nat) : s'.status i = s.status i := by
  obtain ⟨_, -, -, -, ⟨rfl, -⟩ | ⟨rfl, -⟩⟩ | ⟨-, rfl, -⟩ := choosePart_cases h heq
  · rfl
  · exact status_grown _ i
  · rfl

/-- A choice changes nothing but the indices and the number of parts. -/
theorem choosePart_frame : ∃ firstEmpty streamingEmpty partCount statuses,
      s' = { s with
        firstEmptyPart := firstEmpty, firstStreamingEmptyPart := streamingEmpty
        partCount := partCount, partStatus := statuses } ∧
      (partCount = s.partCount ∨ partCount = s.partCount + 1 ∧ partCount ≤ s.partLimit) := by
  obtain ⟨_, -, -, -, ⟨rfl, -⟩ | ⟨rfl, -, -, -, hfits⟩⟩ | ⟨-, rfl, -⟩ := choosePart_cases h heq
  · exact ⟨_, _, _, _, rfl, .inl rfl⟩
  · exact ⟨_, _, _, _, rfl, .inr ⟨rfl, hfits⟩⟩
  · exact ⟨_, _, _, _, rfl, .inl rfl⟩

theorem choosePart_sizes : s'.totalSize = s.totalSize ∧ s'.partSize = s.partSize := by
  obtain ⟨_, _, _, _, rfl, -⟩ := choosePart_frame h heq
  exact ⟨rfl, rfl⟩

end

section

variable (h : s.Honest [] size readyParts)

include h

theorem Honest.not_pending (i : Nat) : s.status i ≠ .pending := by
  intro hpending
  obtain ⟨part, hmem, -⟩ := h.flying i hpending
  cases hmem

theorem Honest.ready_of_not_empty (hne : s.status i ≠ .empty) : s.status i = .ready := by
  cases hstatus : s.status i with
  | empty => exact absurd hstatus hne
  | pending => exact absurd hstatus (h.not_pending i)
  | ready => rfl

theorem Honest.pendingCount_eq : s.pendingCount = 0 := by
  rw [h.inv.pending, Int.natCast_eq_zero, count_eq_zero]
  intro hmem
  obtain ⟨j, hj, hget⟩ := getElem_of_mem hmem
  apply h.not_pending j
  rw [status, getD_eq_getElem _ _ hj, hget]

/-- If all parts up to an upper bound of the size, or to one behind the file, are there and
the last one of the file was not there at the beginning, the bounds have met. -/
theorem Honest.not_unknown
    (hlast : ∀ i ∈ readyParts, s.partSize * (i + 1) < size) (hready : ∀ i < n, s.status i = .ready)
    (hend : s.maxSize ≤ s.partSize * n ∨ size < s.partSize * n) : s.unknownSizeFlag = false := by
  rw [← Bool.not_eq_true]
  intro hunknown
  have hpos := h.inv.partSize_pos
  have hhigh := h.high hunknown
  obtain ⟨hbounds, -⟩ := h.inv.bounded hunknown
  -- Part `size / partSize` is short: the file ends in it, or before it.
  obtain ⟨hle, hlt⟩ := mul_div_bounds hpos size
  have hnext : s.partSize * (size / s.partSize + 1) = s.partSize * (size / s.partSize) + s.partSize := Nat.mul_succ _ _
  have hmax : s.maxSize ≤ size := by
    rcases Nat.lt_or_ge (size / s.partSize) n with hn | hn
    · have hnot : size / s.partSize ∉ readyParts := by
        intro hmem
        have := hlast _ hmem
        omega
      have hshort := (h.received hunknown _ (hready _ hn) hnot).2
      unfold piece at hshort
      omega
    · have := Nat.mul_le_mul_left s.partSize hn
      omega
  have hmin : size ≤ s.minSize := by
    rcases Nat.eq_zero_or_pos size with hzero | hsize
    · omega
    · obtain ⟨hle', hlt'⟩ := mul_div_bounds hpos (size - 1)
      have hnext' : s.partSize * ((size - 1) / s.partSize + 1) = s.partSize * ((size - 1) / s.partSize) + s.partSize :=
        Nat.mul_succ _ _
      have hn : (size - 1) / s.partSize < n := by
        apply Nat.lt_of_mul_lt_mul_left (a := s.partSize)
        omega
      have hnot : (size - 1) / s.partSize ∉ readyParts := by
        intro hmem
        have := hlast _ hmem
        omega
      have hwhole := (h.received hunknown _ (hready _ hn) hnot).1
      unfold piece at hwhole
      omega
  omega

end

/-- What was counted is what the file has of the parts that are there. -/
def Counts (s : PartsManager) (size n : Nat) : Prop :=
  s.readySize = ∑ i ∈ Finset.range n, if s.status i = .ready then piece size s.partSize i else 0

theorem Counts.congr (h : s.Counts size n) (hpartSize : s'.partSize = s.partSize)
    (hreadySize : s'.readySize = s.readySize) (hstatus : ∀ i, s'.status i = .ready ↔ s.status i = .ready) :
    s'.Counts size n := by
  rw [Counts, hreadySize, hpartSize, h]
  apply Finset.sum_congr rfl
  intro i _
  rw [if_congr (hstatus i) rfl rfl]

theorem Counts.counted (h : s.Counts size n) (hi : i < n) (hpending : s.status i = .pending)
    (bitmask : Bitmask) : (s.counted i (piece size s.partSize i) bitmask).Counts size n := by
  have hstatus := status_counted hpending (piece size s.partSize i) bitmask
  have hupdate := sum_range_update hi
    (f := fun j => if (s.counted i (piece size s.partSize i) bitmask).status j = .ready then
      piece size s.partSize j else 0)
    (g := fun j => if s.status j = .ready then piece size s.partSize j else 0)
    (by
      intro j hj
      rw [hstatus, if_neg hj])
  simp only [hstatus i, hpending, if_true, reduceCtorEq, if_false, Nat.add_zero] at hupdate
  have hold : s.readySize = _ := h
  show s.readySize + piece size s.partSize i = _
  rw [hold]
  exact hupdate.symm

theorem Counts.ready (h : s.Honest [] size readyParts) (hcounts : s.Counts size n) (hn : s.partCount ≤ n)
    (hknown : s.unknownSizeFlag = false) (hready : ∀ i, s.partSize * i < size → s.status i = .ready) :
    s.ready = true := by
  obtain ⟨hsize, hend⟩ := h.known hknown
  have hterm : ∀ i, (if s.status i = .ready then piece size s.partSize i else 0) =
      piece size s.partSize i := by
    intro i
    rcases Nat.lt_or_ge (s.partSize * i) size with hlt | hge
    · rw [if_pos (hready i hlt)]
    · rw [piece_eq_zero hge, ite_self]
  have hsum : s.readySize = s.size := by
    rw [hcounts, Finset.sum_congr rfl fun i _ => hterm i, sum_piece_range, hsize]
    exact cut_of_le (Nat.le_trans hend (Nat.mul_le_mul_left _ hn))
  simp [PartsManager.ready, uncheckedReady, hknown, hsum, h.needCheck]

end PartsManager

open PartsManager (choosePart_cases choosePart_first choosePart_frame choosePart_sizes onPartOk_learned
    startPart_cases status_choosePart)

namespace Transfer

variable {t t' : Transfer} {size : Nat} {readyParts : List Nat}

/-! ## One move -/

section

variable (h : t.parts.Honest t.inFlight size readyParts) {move : Move} (hmove : t.Moves size move t')

include h hmove

theorem Moves.cases :
    (∃ i u, move = .request i ∧ t.parts.choosePart = .ok (some i, u) ∧ i < u.partCount ∧ u.status i = .empty ∧
      i * u.partSize < u.totalSize ∧ t' = ⟨u.started i, t.inFlight ++ [u.getPart i]⟩) ∨
    (∃ choice u, move = .nothing ∧ t.parts.choosePart = .ok (choice, u) ∧ t' = ⟨u, t.inFlight⟩ ∧
      ∀ i, choice = some i → u.totalSize ≤ i * u.partSize) ∨
    (∃ i part parts, move = .complete i ∧ t.parts.Flies part i ∧
      t.parts.onPartOk i part.size (piece size t.parts.partSize i) = .ok parts ∧
      t' = ⟨parts, t.remove i⟩) := by
  cases hmove with
  | @request partId part parts hstart hid hpos =>
    obtain ⟨choice, u, hchoice, ⟨rfl, -⟩ | ⟨i, rfl, hi, hempty, hlt, rfl, rfl⟩⟩ :=
      startPart_cases h.inv hstart
    · exact absurd rfl hpos
    · have hsame : i = partId := Int.ofNat.inj hid
      simp_all
  | nothing hstart hzero =>
    obtain ⟨choice, u, hchoice, ⟨-, rfl, hstop⟩ | ⟨i, rfl, hi, hempty, hlt, rfl, rfl⟩⟩ :=
      startPart_cases h.inv hstart
    · refine .inr (.inl ⟨choice, _, rfl, hchoice, rfl, ?_⟩)
      intro i hi
      apply hstop i hi
      have hlimit := (h.choosePart hchoice).streamingLimit
      simp [inStreamingLimit, hlimit]
    · have hpos := size_pos_of_started (h.inv.choosePart hchoice).partSize_pos hlt
      exact absurd hzero (Nat.ne_of_gt hpos)
  | @complete i part parts hfind hok =>
    exact .inr (.inr ⟨i, part, parts, rfl, flies_of_find h.inv hfind, hok, rfl⟩)

theorem honest_of_moves : t'.parts.Honest t'.inFlight size readyParts := by
  obtain ⟨i, u, -, hchoice, hi, hempty, hlt, rfl⟩ | ⟨choice, u, -, hchoice, rfl, -⟩ |
    ⟨i, part, parts, -, hflies, hok, rfl⟩ := hmove.cases h
  · exact (h.choosePart hchoice).started hi hempty hlt
  · exact h.choosePart hchoice
  · exact h.came hflies hok

/-- How the statuses change: a part that is requested was empty, one that comes was pending. -/
theorem Moves.status : (∃ i, move = .request i ∧ t.parts.status i = .empty ∧ i < t'.parts.partCount ∧
      ∀ j, t'.parts.status j = if j = i then .pending else t.parts.status j) ∨
    (move = .nothing ∧ ∀ j, t'.parts.status j = t.parts.status j) ∨
    (∃ i, move = .complete i ∧ t.parts.status i = .pending ∧ i < t'.parts.partCount ∧
      ∀ j, t'.parts.status j = if j = i then .ready else t.parts.status j) := by
  obtain ⟨i, u, rfl, hchoice, hi, hempty, hlt, rfl⟩ | ⟨choice, u, rfl, hchoice, rfl, -⟩ |
    ⟨i, part, parts, rfl, hflies, hok, rfl⟩ := hmove.cases h
  · have hsame := status_choosePart h.inv hchoice
    refine .inl ⟨i, rfl, ?_, hi, ?_⟩
    · rw [← hsame]
      exact hempty
    · intro j
      rw [← hsame]
      exact status_setStatus (by rw [(h.inv.choosePart hchoice).length_eq]; exact hi) .pending j
  · exact .inr (.inl ⟨rfl, status_choosePart h.inv hchoice⟩)
  · obtain ⟨bitmask, minSize, maxSize, foundSize, unknown, rfl⟩ :=
      onPartOk_learned h.inv h.streamingLimit hflies hok
    exact .inr (.inr ⟨i, rfl, hflies.2.1, h.inv.lt_partCount (by rw [hflies.2.1]; decide),
      status_counted hflies.2.1 (piece size t.parts.partSize i) bitmask⟩)

/-- What a move leaves as it is, and how the number of parts grows. -/
theorem Moves.frame : t'.parts.partSize = t.parts.partSize ∧ t'.parts.partLimit = t.parts.partLimit ∧
    (t'.parts.partCount = t.parts.partCount ∨
      t'.parts.partCount = t.parts.partCount + 1 ∧ t'.parts.partCount ≤ t.parts.partLimit) := by
  obtain ⟨i, u, rfl, hchoice, hi, hempty, hlt, rfl⟩ | ⟨choice, u, rfl, hchoice, rfl, -⟩ |
    ⟨i, part, parts, rfl, hflies, hok, rfl⟩ := hmove.cases h
  · obtain ⟨_, _, _, _, rfl, hcount⟩ := choosePart_frame h.inv hchoice
    exact ⟨rfl, rfl, hcount⟩
  · obtain ⟨_, _, _, _, rfl, hcount⟩ := choosePart_frame h.inv hchoice
    exact ⟨rfl, rfl, hcount⟩
  · obtain ⟨_, _, _, _, _, rfl⟩ := onPartOk_learned h.inv h.streamingLimit hflies hok
    exact ⟨rfl, rfl, .inl rfl⟩

end

/-- As many parts as a transfer that begins with `parts` may come to have. -/
def mostParts (parts : PartsManager) : Nat := max parts.partCount parts.partLimit

/-- A transfer of a file of `size` bytes that began with `parts`. -/
structure Sound (t : Transfer) (parts : PartsManager) (size : Nat) (readyParts : List Nat) : Prop where
  honest : t.parts.Honest t.inFlight size readyParts
  partSize_eq : t.parts.partSize = parts.partSize
  partLimit_eq : t.parts.partLimit = parts.partLimit
  count_le : t.parts.partCount ≤ mostParts parts

variable {parts : PartsManager}

/-- **One move** keeps what holds of the transfer. -/
theorem Sound.moves (h : t.Sound parts size readyParts) {move : Move} (hmove : t.Moves size move t') :
    t'.Sound parts size readyParts := by
  obtain ⟨hpartSize, hpartLimit, hcount⟩ := hmove.frame h.honest
  have hle := h.count_le
  have hlimit := h.partLimit_eq
  exact
    { honest := honest_of_moves h.honest hmove
      partSize_eq := hpartSize.trans h.partSize_eq
      partLimit_eq := hpartLimit.trans h.partLimit_eq
      count_le := by unfold mostParts at *; omega }

theorem Sound.complete (h : t.Sound parts size readyParts) {i : Nat} {part : Part} (hfind : t.find i = some part) :
    ∃ parts', t.parts.onPartOk i part.size (piece size parts.partSize i) = .ok parts' := by
  rw [← h.partSize_eq]
  exact h.honest.onPartOk (flies_of_find h.honest.inv hfind)

/-- **Finite runs**: no part is requested twice. -/
theorem Sound.reaches {t0 : Transfer} (h : t0.Sound parts size readyParts) {ids : List Nat}
    (hreaches : Reaches size t0 ids t) :
    t.Sound parts size readyParts ∧ ids.Nodup ∧ ∀ i ∈ ids, t.parts.status i ≠ .empty := by
  induction hreaches with
  | start => exact ⟨h, nodup_nil, by simp⟩
  | @move ids t t' move _ hmove ih =>
    obtain ⟨hsound, hnodup, hrequested⟩ := ih
    refine ⟨hsound.moves hmove, ?_⟩
    obtain ⟨i, rfl, hempty, -, hstatus⟩ | ⟨rfl, hstatus⟩ | ⟨i, rfl, -, -, hstatus⟩ := hmove.status hsound.honest
    · refine ⟨?_, ?_⟩
      · rw [Move.requests, nodup_append]
        refine ⟨hnodup, nodup_singleton i, ?_⟩
        intro a ha b hb hab
        simp_all
      · intro j hj
        rw [hstatus]
        split
        · decide
        next hne =>
          simp_all [Move.requests, mem_append]
    · rw [Move.requests, append_nil]
      refine ⟨hnodup, ?_⟩
      intro j hj
      rw [hstatus]
      exact hrequested j hj
    · rw [Move.requests, append_nil]
      refine ⟨hnodup, ?_⟩
      intro j hj
      rw [hstatus]
      split
      · decide
      · exact hrequested j hj

/-! ## Whole runs -/

end Transfer

/-- How far a part has got. -/
def PartStatus.stage : PartStatus → Nat
  | .empty => 0
  | .pending => 1
  | .ready => 2

namespace PartsManager

variable {s s' : PartsManager} {i size n : Nat}

/-- How far the first `n` parts have got. -/
def progress (s : PartsManager) (n : Nat) : Nat := ∑ i ∈ Finset.range n, (s.status i).stage

theorem progress_le (s : PartsManager) (n : Nat) : s.progress n ≤ n * 2 := by
  have hle : ∀ i ∈ Finset.range n, (s.status i).stage ≤ 2 := by
    intro i _
    cases s.status i <;> decide
  simpa [progress] using Finset.sum_le_card_nsmul _ _ 2 hle

theorem progress_lt {st : PartStatus} (hi : i < n) (hstatus : ∀ j, s'.status j = if j = i then st else s.status j)
    (hlt : (s.status i).stage < st.stage) : s.progress n < s'.progress n := by
  have hupdate := sum_range_update hi (f := fun j => (s'.status j).stage) (g := fun j => (s.status j).stage)
    (by
      intro j hj
      rw [hstatus, if_neg hj])
  have hself : s'.status i = st := by rw [hstatus, if_pos rfl]
  rw [hself] at hupdate
  unfold progress
  omega

theorem progress_congr (hstatus : ∀ j, s'.status j = s.status j) (n : Nat) : s'.progress n = s.progress n := by
  apply Finset.sum_congr rfl
  intro j _
  rw [hstatus]

end PartsManager

theorem exists_greatest {f : Nat → Nat} {bound : Nat} (hle : ∀ n, f n ≤ bound) : ∃ n, ∀ m, f m ≤ f n := by
  have hbdd : BddAbove (Set.range f) := by
    refine ⟨bound, ?_⟩
    rintro _ ⟨n, rfl⟩
    exact hle n
  obtain ⟨n, hn⟩ := Nat.sSup_mem (Set.range_nonempty f) hbdd
  refine ⟨n, ?_⟩
  intro m
  rw [hn]
  exact le_csSup hbdd ⟨m, rfl⟩

namespace Transfer

variable {t t' : Transfer} {size : Nat} {readyParts : List Nat} {parts : PartsManager}
variable {move : Move} {state : Nat → Transfer} {moves : Nat → Option Move} {t0 : Transfer}

theorem Sound.progress (h : t.Sound parts size readyParts) {move : Option Move} (hgoes : t.Goes size move t') :
    ((move = none ∨ move = some .nothing) ∧
      t'.parts.progress (mostParts parts) = t.parts.progress (mostParts parts)) ∨
    t.parts.progress (mostParts parts) < t'.parts.progress (mostParts parts) := by
  cases move with
  | none =>
    obtain ⟨rfl, -⟩ := hgoes
    exact .inl ⟨.inl rfl, rfl⟩
  | some move =>
    have hle := (h.moves hgoes).count_le
    obtain ⟨i, -, hempty, hi, hstatus⟩ | ⟨rfl, hstatus⟩ | ⟨i, -, hpending, hi, hstatus⟩ :=
      Moves.status h.honest hgoes
    · exact .inr (progress_lt (Nat.lt_of_lt_of_le hi hle) hstatus (by rw [hempty]; decide))
    · exact .inl ⟨.inr rfl, progress_congr hstatus _⟩
    · exact .inr (progress_lt (Nat.lt_of_lt_of_le hi hle) hstatus (by rw [hpending]; decide))

/-- **The rule for runs**: what every move keeps holds all along. -/
theorem IsRun.induction {P : Transfer → Prop} (hrun : IsRun size t0 state moves) (hstart : P t0)
    (hmove : ∀ {t t' move}, P t → t.Moves size move t' → P t') (n : Nat) : P (state n) := by
  induction n with
  | zero =>
    rw [hrun.start]
    exact hstart
  | succ n ih =>
    have hgoes := hrun.move n
    cases hnext : moves n with
    | none =>
      rw [hnext] at hgoes
      rw [hgoes.1]
      exact ih
    | some move =>
      rw [hnext] at hgoes
      exact hmove ih hgoes

/-- The rule with what holds of the transfer at hand. -/
theorem IsRun.sound {P : Transfer → Prop} (hrun : IsRun size t0 state moves) (h : t0.Sound parts size readyParts)
    (hstart : P t0) (hmove : ∀ {t t' move}, t.Sound parts size readyParts → P t → t.Moves size move t' → P t')
    (n : Nat) : (state n).Sound parts size readyParts ∧ P (state n) :=
  hrun.induction (P := fun t => t.Sound parts size readyParts ∧ P t) ⟨h, hstart⟩
    (fun h hgoes => ⟨h.1.moves hgoes, hmove h.1 h.2 hgoes⟩) n

/-- No part is requested any more. -/
def AtRest (size : Nat) (t : Transfer) : Prop :=
  (∃ t', t.Moves size .nothing t') ∨ ∀ move t', ¬ t.Moves size move t'

/-- **Every run comes to rest**: at some state nothing is under way and nothing is left to
request. -/
theorem exists_rest (h : t0.Sound parts size readyParts) (hrun : IsRun size t0 state moves)
    (hfair : KeepsCompleting state moves) : ∃ n, (state n).inFlight = [] ∧ (state n).AtRest size := by
  have hsound := hrun.induction (P := fun t => t.Sound parts size readyParts) h fun h hmove => h.moves hmove
  obtain ⟨n, hgreatest⟩ := exists_greatest fun n => (state n).parts.progress_le (mostParts parts)
  have hmono : Monotone fun n => (state n).parts.progress (mostParts parts) := by
    apply monotone_nat_of_le_succ
    intro m
    rcases (hsound m).progress (hrun.move m) with ⟨-, heq⟩ | hlt
    · exact Nat.le_of_eq heq.symm
    · exact Nat.le_of_lt hlt
  have hnothing : ∀ m, n ≤ m → moves m = none ∨ moves m = some .nothing := by
    intro m hm
    rcases (hsound m).progress (hrun.move m) with ⟨hmove, -⟩ | hlt
    · exact hmove
    · have hle : (state n).parts.progress _ ≤ (state m).parts.progress _ := hmono hm
      have := hgreatest (m + 1)
      omega
  refine ⟨n, ?_, ?_⟩
  · by_contra hflight
    obtain ⟨m, hm, i, hcomplete⟩ := hfair n hflight
    rcases hnothing m hm with hnone | hsome
    · simp [hcomplete] at hnone
    · simp [hcomplete] at hsome
  · have hgoes := hrun.move n
    rcases hnothing n (Nat.le_refl n) with hnone | hsome
    · rw [hnone] at hgoes
      exact .inr hgoes.2
    · rw [hsome] at hgoes
      exact .inl ⟨_, hgoes⟩

/-! ## The end of a run -/

/-- What is counted stays what the file has of the parts that are there. -/
theorem Sound.counts (h : t.Sound parts size readyParts) (hcounts : t.parts.Counts size (mostParts parts))
    (hmove : t.Moves size move t') : t'.parts.Counts size (mostParts parts) := by
  obtain ⟨i, u, -, hchoice, hi, hempty, -, rfl⟩ | ⟨choice, u, -, hchoice, rfl, -⟩ |
    ⟨i, part, parts', -, hflies, hok, rfl⟩ := hmove.cases h.honest
  · have hsame := status_choosePart h.honest.inv hchoice
    have hlength : i < u.partStatus.length := by
      rw [(h.honest.inv.choosePart hchoice).length_eq]
      exact hi
    have hstatus : ∀ j, (u.started i).status j = if j = i then .pending else u.status j :=
      status_setStatus hlength .pending
    have hiff : ∀ j, (u.started i).status j = .ready ↔ t.parts.status j = .ready := by
      intro j
      rw [hstatus, ← hsame]
      by_cases hji : j = i
      · simp [hji, hempty]
      · simp [hji]
    obtain ⟨_, _, _, _, rfl, -⟩ := choosePart_frame h.honest.inv hchoice
    exact hcounts.congr rfl rfl hiff
  · have hsame := status_choosePart h.honest.inv hchoice
    have hiff : ∀ j, u.status j = .ready ↔ t.parts.status j = .ready := fun j => by rw [hsame]
    obtain ⟨_, _, _, _, rfl, -⟩ := choosePart_frame h.honest.inv hchoice
    exact hcounts.congr rfl rfl hiff
  · have hi := h.honest.inv.lt_partCount (by rw [hflies.2.1]; decide : t.parts.status i ≠ .empty)
    obtain ⟨bitmask, _, _, _, _, rfl⟩ :=
      onPartOk_learned h.honest.inv h.honest.streamingLimit hflies hok
    exact hcounts.counted (Nat.lt_of_lt_of_le hi h.count_le) hflies.2.1 bitmask

/-- Whatever `choosePart` finds, there is a move. -/
theorem exists_moves (h : t.parts.Inv t.inFlight) {choice : Option Nat} {u : PartsManager}
    (hchoice : t.parts.choosePart = .ok (choice, u)) : ∃ move t', t.Moves size move t' := by
  obtain ⟨part, parts', hstart⟩ := startPart_total h hchoice
  obtain ⟨_, _, hagain, ⟨hpart, -⟩ | ⟨i, -, -, -, hlt, -, hpart⟩⟩ := startPart_cases h hstart
  · exact ⟨_, _, .nothing hstart (by rw [hpart]; rfl)⟩
  · have hpos := size_pos_of_started (h.choosePart hagain).partSize_pos hlt
    rw [hpart] at hstart
    exact ⟨.request i, _, .request hstart rfl (Nat.ne_of_gt hpos)⟩

section

variable (h : t.Sound parts size readyParts) (hrest : t.parts.Honest [] size readyParts)
    (hlast : ∀ i ∈ readyParts, t.parts.partSize * (i + 1) < size)

include h hrest hlast

/-- **The run does not stop** while the size is unknown: all parts there may be would be
there, and the file ends before them. -/
theorem Sound.not_stuck (hfits : size < t.parts.partSize * t.parts.partLimit) :
    ∃ move t', t.Moves size move t' := by
  have hinv := h.honest.inv
  by_contra hstuck
  have hno : ∀ choice u, t.parts.choosePart ≠ .ok (choice, u) := fun _ _ hchoice =>
    hstuck (exists_moves hinv hchoice)
  have hunknown : t.parts.unknownSizeFlag ≠ false := by
    intro hknown
    obtain ⟨choice, u, hchoice⟩ := choosePart_known hknown
    exact hno choice u hchoice
  have hfull : ¬ (t.parts.updateFirstEmptyPart.firstStreamingEmptyPart = t.parts.partCount →
      t.parts.partCount + 1 ≤ t.parts.partLimit) := by
    intro hfits
    obtain ⟨choice, u, hchoice⟩ := choosePart_fits hfits
    exact hno choice u hchoice
  have hfirst : t.parts.updateFirstEmptyPart.firstStreamingEmptyPart = t.parts.updateFirstEmptyPart.firstEmptyPart :=
    if_pos h.honest.streamingOffset
  have hready : ∀ j < t.parts.partCount, t.parts.status j = .ready := by
    intro j hj
    exact hrest.ready_of_not_empty (hinv.updateFirstEmptyPart.notEmpty j (by omega))
  have hmul : t.parts.partSize * t.parts.partLimit ≤ t.parts.partSize * t.parts.partCount :=
    Nat.mul_le_mul_left _ (by omega)
  exact hunknown (hrest.not_unknown hlast hready (.inr (by omega)))

/-- If nothing is left to request, the parts that are there reach to the end of the file. -/
theorem Sound.reach_end (hmove : t.Moves size .nothing t') : ∃ n, (∀ j < n, t.parts.status j = .ready) ∧
    t.parts.unknownSizeFlag = false ∧ size ≤ t.parts.partSize * n := by
  obtain ⟨_, _, hrequest, -⟩ | ⟨choice, u, -, hchoice, -, hstop⟩ | ⟨_, _, _, hcomplete, -⟩ := hmove.cases h.honest
  · cases hrequest
  · have hsame := status_choosePart h.honest.inv hchoice
    have hnotEmpty : ∀ j < u.firstEmptyPart, t.parts.status j = .ready := by
      intro j hj
      apply hrest.ready_of_not_empty
      rw [← hsame]
      exact (h.honest.inv.choosePart hchoice).notEmpty j hj
    refine ⟨u.firstEmptyPart, hnotEmpty, ?_⟩
    cases choice with
    | none =>
      obtain ⟨_, hsome, -⟩ | ⟨-, -, hknown, hfirst⟩ := choosePart_cases h.honest.inv hchoice
      · cases hsome
      · rw [hfirst]
        exact ⟨hknown, (hrest.known hknown).2⟩
    | some i =>
      have hfirst := choosePart_first h.honest.streamingOffset hchoice
      have hle := hstop i rfl
      have hsizes := choosePart_sizes h.honest.inv hchoice
      rw [hsizes.1, hsizes.2, hfirst, Nat.mul_comm, totalSize] at hle
      have hknown : t.parts.unknownSizeFlag = false := by
        rw [← Bool.not_eq_true]
        intro hunknown
        rw [if_pos hunknown] at hle
        exact Bool.noConfusion ((hrest.not_unknown hlast hnotEmpty (.inl hle)).symm.trans hunknown)
      simpa [(hrest.known hknown).1, hknown] using hle
  · cases hcomplete

end

/-- **At rest the transfer is finished**, if the last part of the file was not there at
the beginning and there may be a part behind it. -/
theorem Sound.finished (h : t.Sound parts size readyParts) (hflight : t.inFlight = []) (hrests : t.AtRest size)
    (hlast : ∀ i ∈ readyParts, parts.partSize * (i + 1) < size) (hfits : size < parts.partSize * parts.partLimit)
    (hcounts : t.parts.Counts size (mostParts parts)) : t.Finished size := by
  have hrest : t.parts.Honest [] size readyParts := by
    rw [← hflight]
    exact h.honest
  rw [← h.partSize_eq] at hlast hfits
  rw [← h.partLimit_eq] at hfits
  rcases hrests with ⟨t', hmove⟩ | hstuck
  · obtain ⟨n, hready, hknown, hend⟩ := h.reach_end hrest hlast hmove
    refine ⟨hrest.pendingCount_eq, hknown, (hrest.known hknown).1, hcounts.ready hrest h.count_le hknown ?_⟩
    intro i hi
    exact hready i (Nat.lt_of_mul_lt_mul_left (Nat.lt_of_lt_of_le hi hend))
  · obtain ⟨move, t', hmove⟩ := h.not_stuck hrest hlast hfits
    exact absurd hmove (hstuck move t')

/-- **Every run finishes**, if the last part of the file was not there at the beginning and
there may be a part behind it. -/
theorem Sound.finishes (h : t0.Sound parts size readyParts) (hcounts : t0.parts.Counts size (mostParts parts))
    (hlast : ∀ i ∈ readyParts, parts.partSize * (i + 1) < size) (hfits : size < parts.partSize * parts.partLimit)
    (hrun : IsRun size t0 state moves) (hfair : KeepsCompleting state moves) : ∃ n, (state n).Finished size := by
  obtain ⟨n, hflight, hrests⟩ := exists_rest h hrun hfair
  obtain ⟨hsound, hcounted⟩ := hrun.sound h hcounts (fun h hcounts hmove => h.counts hcounts hmove) n
  exact ⟨n, hsound.finished hflight hrests hlast hfits hcounted⟩

/-! ## The size is not found -/

/-- While the size is unknown, a move leaves the bounds as they are, or a part comes and
moves them; only if they then meet the size is found. -/
theorem Sound.bounds (h : t.Sound parts size readyParts) (hunknown : t.parts.unknownSizeFlag = true)
    (hmove : t.Moves size move t') :
    (t'.parts.unknownSizeFlag = true ∧ t'.parts.minSize = t.parts.minSize ∧ t'.parts.maxSize = t.parts.maxSize) ∨
    ∃ i part, t.parts.Flies part i ∧
      (t.parts.newMinSize i (piece size t.parts.partSize i) ≠ t.parts.newMaxSize i (piece size t.parts.partSize i) →
        t'.parts.unknownSizeFlag = true ∧ t'.parts.minSize = t.parts.newMinSize i (piece size t.parts.partSize i) ∧
        t'.parts.maxSize = t.parts.newMaxSize i (piece size t.parts.partSize i)) := by
  obtain ⟨i, u, -, hchoice, -, -, -, rfl⟩ | ⟨choice, u, -, hchoice, rfl, -⟩ |
    ⟨i, part, parts', -, hflies, hok, rfl⟩ := hmove.cases h.honest
  · obtain ⟨_, _, _, _, rfl, -⟩ := choosePart_frame h.honest.inv hchoice
    exact .inl ⟨hunknown, rfl, rfl⟩
  · obtain ⟨_, _, _, _, rfl, -⟩ := choosePart_frame h.honest.inv hchoice
    exact .inl ⟨hunknown, rfl, rfl⟩
  · refine .inr ⟨i, part, hflies, fun hne => ?_⟩
    obtain ⟨bitmask, ⟨hknown, -⟩ | ⟨-, rfl⟩⟩ := onPartOk_unlimited h.honest.inv h.honest.streamingLimit hflies hok
    · exact Bool.noConfusion (hunknown.symm.trans hknown)
    · rw [bound_of_ne (by exact hne)]
      exact ⟨hunknown, rfl, rfl⟩

/-- The size is unknown, and there is more of the file than the parts say. -/
def Low (t : Transfer) (size : Nat) : Prop := t.parts.unknownSizeFlag = true ∧ t.parts.minSize < size

/-- **One move** does not find the size if the last part of the file was there: none that
comes reaches the end. -/
theorem Low.step (hlow : t.Low size) (h : t.Sound parts size readyParts) {last : Nat} (hmem : last ∈ readyParts)
    (hbegin : parts.partSize * last < size) (hend : size ≤ parts.partSize * (last + 1))
    (hmove : t.Moves size move t') : t'.Low size := by
  rw [← h.partSize_eq] at hbegin hend
  obtain ⟨hunknown, hlow⟩ := hlow
  obtain ⟨hunknown', hmin, -⟩ | ⟨i, part, hflies, hbounds⟩ := h.bounds hunknown hmove
  · exact ⟨hunknown', by omega⟩
  · have hne : i ≠ last := by
      rintro rfl
      have hpending := hflies.2.1
      rw [h.honest.restored i hmem] at hpending
      cases hpending
    have hnext : t.parts.partSize * (i + 1) = t.parts.partSize * i + t.parts.partSize := Nat.mul_succ _ _
    have hbefore : i < last → t.parts.partSize * (i + 1) ≤ t.parts.partSize * last := Nat.mul_le_mul_left _
    have hbehind : last < i → t.parts.partSize * (last + 1) ≤ t.parts.partSize * i := Nat.mul_le_mul_left _
    have hmin : t.parts.newMinSize i (piece size t.parts.partSize i) < size := by
      rw [newMinSize]
      unfold piece
      split
      · omega
      · exact hlow
    have hmax := le_newMaxSize (i := i) (h.honest.high hunknown)
    obtain ⟨hunknown', hmin', -⟩ := hbounds (by omega)
    exact ⟨hunknown', by omega⟩

/-- The size is unknown, and nothing says that the file ends anywhere. -/
def High (t : Transfer) : Prop := t.parts.unknownSizeFlag = true ∧ t.parts.maxSize = noMaxSize

/-- **One move** does not find the size if the file goes on behind all parts there may be:
none that comes is short. -/
theorem High.step (hhigh : t.High) (h : t.Sound parts size readyParts)
    (hlong : parts.partSize * mostParts parts ≤ size) (hmove : t.Moves size move t') : t'.High := by
  obtain ⟨hunknown, hhigh⟩ := hhigh
  obtain ⟨hunknown', -, hmax⟩ | ⟨i, part, hflies, hbounds⟩ := h.bounds hunknown hmove
  · exact ⟨hunknown', hmax.trans hhigh⟩
  · have hinv := h.honest.inv
    have hi : i < t.parts.partCount := hinv.lt_partCount (by rw [hflies.2.1]; decide)
    rw [← h.partSize_eq] at hlong
    have hwhole : piece size t.parts.partSize i = t.parts.partSize :=
      piece_eq_unit (Nat.le_trans (Nat.mul_le_mul_left _ (Nat.le_trans hi h.count_le)) hlong)
    have hmax : t.parts.newMaxSize i (piece size t.parts.partSize i) = noMaxSize := by
      simp [newMaxSize, isShortPart, hwhole, hhigh]
    have hne : t.parts.newMinSize i (piece size t.parts.partSize i) ≠
        t.parts.newMaxSize i (piece size t.parts.partSize i) := by
      intro hmeet
      obtain ⟨hsize, hle⟩ := h.honest.found hflies hunknown hmeet
      have hfits := hinv.partSize_le hunknown
      have := Nat.mul_lt_mul_of_pos_left hinv.count_lt hinv.partSize_pos
      omega
    obtain ⟨hunknown', -, hmax'⟩ := hbounds hne
    exact ⟨hunknown', hmax'.trans hmax⟩

theorem find_head {part : Part} {rest : List Part} {i : Nat} (hflight : t.inFlight = part :: rest)
    (hid : part.id = i) : t.find i = some part := by
  rw [find, hflight, List.find?_cons_of_pos]
  simp [hid]

/-- **There is a run** in which parts keep completing: whenever one is under way it comes. -/
theorem Sound.exists_run (h : t.Sound parts size readyParts) :
    ∃ state moves, IsRun size t state moves ∧ KeepsCompleting state moves := by
  have hnext : ∀ s : {t : Transfer // t.Sound parts size readyParts},
      ∃ r : Option Move × {t : Transfer // t.Sound parts size readyParts},
        s.val.Goes size r.1 r.2.val ∧ (s.val.inFlight ≠ [] → ∃ i, r.1 = some (.complete i)) := by
    rintro ⟨s, hs⟩
    cases hflight : s.inFlight with
    | nil =>
      by_cases hmoves : ∃ move s', s.Moves size move s'
      · obtain ⟨move, s', hmove⟩ := hmoves
        exact ⟨(some move, ⟨s', hs.moves hmove⟩), hmove, fun hne => absurd rfl hne⟩
      · exact ⟨(none, ⟨s, hs⟩), ⟨rfl, fun move s' hmove => hmoves ⟨move, s', hmove⟩⟩, fun hne => absurd rfl hne⟩
    | cons part rest =>
      obtain ⟨i, hflies⟩ := hs.honest.inv.flies part (by rw [hflight]; simp)
      obtain ⟨parts', hok⟩ := hs.honest.onPartOk hflies
      have hmove : s.Moves size (.complete i) ⟨parts', s.remove i⟩ := .complete (find_head hflight hflies.1) hok
      exact ⟨(some (.complete i), ⟨_, hs.moves hmove⟩), hmove, fun _ => ⟨i, rfl⟩⟩
  choose next hgoes hcompletes using hnext
  let state : Nat → {t : Transfer // t.Sound parts size readyParts} := fun n =>
    n.rec ⟨t, h⟩ fun _ s => (next s).2
  refine ⟨fun n => (state n).val, fun n => (next (state n)).1, ⟨rfl, fun n => hgoes (state n)⟩, ?_⟩
  intro n hflight
  exact ⟨n, Nat.le_refl n, hcompletes (state n) hflight⟩

/-! ## The beginning -/

theorem foldl_max_le {n : Nat} (ids : List Nat) {count : Nat} (hcount : count ≤ n) (hids : ∀ i ∈ ids, i + 1 ≤ n) :
    ids.foldl (fun count partId => max count (partId + 1)) count ≤ n := by
  induction ids generalizing count with
  | nil => exact hcount
  | cons i ids ih =>
    apply ih
    · exact Nat.max_le.mpr ⟨hcount, hids i (by simp)⟩
    · intro j hj
      exact hids j (by simp [hj])

variable {expectedSize partSize : Nat} {usePartCountLimit isUpload : Bool}

section

variable (hpart : partSize < 2 ^ 31)
    (hinit : init 0 expectedSize partSize readyParts usePartCountLimit isUpload = .ok parts)

include hpart hinit

theorem begins_of_init : PartsManager.Begins
    (beginning 0 expectedSize partSize readyParts usePartCountLimit isUpload) parts readyParts := by
  obtain ⟨-, -, hcommon⟩ := init_ok hinit
  refine (beginning_unstarted ?_).initCommon hcommon
  intro _
  rw [noMaxSize]
  omega

theorem unbounded_of_init : parts.unknownSizeFlag = true ∧ parts.minSize = 0 ∧ parts.maxSize = noMaxSize := by
  obtain ⟨_, _, _, _, _, _, rfl⟩ := (begins_of_init hpart hinit).same
  exact ⟨rfl, rfl, rfl⟩

theorem sound_of_init (hsize : size ≤ noMaxSize) : Sound ⟨parts, []⟩ parts size readyParts := by
  have hbegins := begins_of_init hpart hinit
  refine ⟨?_, rfl, rfl, Nat.le_max_left _ _⟩
  have hflying : ∀ i, parts.status i = .pending → ∃ part ∈ ([] : List Part), part.id = i := by
    intro i hi
    rw [hbegins.status] at hi
    split at hi <;> cases hi
  have hrestored : ∀ i ∈ readyParts, parts.status i = .ready := by
    intro i hi
    rw [hbegins.status, if_pos hi]
  have hreceived : ∀ i, parts.status i = .ready → i ∉ readyParts → parts.BoundsBy size i := by
    intro i hi hnot
    rw [hbegins.status, if_neg hnot] at hi
    cases hi
  have hinv := hbegins.inv
  obtain ⟨statuses, bitmask, readySize, a, b, c, rfl⟩ := hbegins.same
  exact
    { inv := hinv
      streamingOffset := rfl
      streamingLimit := rfl
      needCheck := rfl
      flying := hflying
      restored := hrestored
      known := fun hfalse => absurd hfalse.symm Bool.false_ne_true
      low := fun _ => Nat.zero_le _
      high := fun _ => hsize
      received := fun _ => hreceived }

theorem counts_of_init (hnodup : readyParts.Nodup) (hlast : ∀ i ∈ readyParts, parts.partSize * (i + 1) < size) :
    parts.Counts size (mostParts parts) := by
  have hbegins := begins_of_init hpart hinit
  obtain ⟨hunknown, -, hmax⟩ := unbounded_of_init hpart hinit
  have hsizes : ∀ i ∈ readyParts, (parts.getPart i).size = piece size parts.partSize i := by
    intro i hi
    have hlt := hbegins.mem_lt i hi
    rw [piece_eq_unit (Nat.le_of_lt (hlast i hi))]
    apply hbegins.inv.size_of_unknown hunknown hlt
    have hfits := hbegins.inv.partSize_le hunknown
    have hmul := Nat.mul_lt_mul_of_pos_left (Nat.lt_trans hlt hbegins.inv.count_lt) hbegins.inv.partSize_pos
    rw [totalSize, if_pos hunknown, hmax, Nat.mul_comm]
    omega
  rw [PartsManager.Counts, hbegins.readySize, map_congr_left hsizes]
  symm
  refine sum_of_status _ hnodup ?_ hbegins.status
  intro i hi
  exact Nat.lt_of_lt_of_le (hbegins.mem_lt i hi) (Nat.le_max_left _ _)

/-- No run finishes if the last part of the file was there at the beginning, or the file is
longer than all parts there may be. -/
theorem not_finished (hsize : size ≤ noMaxSize) (hready : ∀ i ∈ readyParts, parts.partSize * i < size)
    (hcond : ¬ ((∀ i ∈ readyParts, parts.partSize * (i + 1) < size) ∧ size < parts.partSize * parts.partLimit))
    (hrun : IsRun size ⟨parts, []⟩ state moves) (n : Nat) : ¬ (state n).Finished size := by
  have hsound := sound_of_init hpart hinit hsize
  obtain ⟨hunknown, hmin, hmax⟩ := unbounded_of_init hpart hinit
  suffices hstays : (state n).parts.unknownSizeFlag = true by
    intro hfinished
    exact Bool.noConfusion (hfinished.2.1.symm.trans hstays)
  by_cases hlast : ∀ i ∈ readyParts, parts.partSize * (i + 1) < size
  · have hpos : 0 < parts.partSize := hsound.honest.inv.partSize_pos
    have hcount : parts.partCount ≤ size / parts.partSize := by
      obtain ⟨_, _, _, _, _, _, rfl⟩ := (begins_of_init hpart hinit).same
      refine foldl_max_le readyParts (Nat.zero_le _) fun i hi => ?_
      rw [Nat.le_div_iff_mul_le hpos, Nat.mul_comm]
      exact Nat.le_of_lt (hlast i hi)
    have hlimit : parts.partLimit ≤ size / parts.partSize := by
      rw [Nat.le_div_iff_mul_le hpos, Nat.mul_comm]
      exact Nat.not_lt.mp fun hfits => hcond ⟨hlast, hfits⟩
    have hlong : parts.partSize * mostParts parts ≤ size :=
      Nat.le_trans (Nat.mul_le_mul_left _ (Nat.max_le.mpr ⟨hcount, hlimit⟩)) (Nat.mul_div_le _ _)
    exact (hrun.sound (P := High) hsound ⟨hunknown, hmax⟩ (fun h hhigh hmove => hhigh.step h hlong hmove) n).2.1
  · obtain ⟨last, hmem, hend⟩ : ∃ last ∈ readyParts, size ≤ parts.partSize * (last + 1) := by
      simpa using hlast
    have hbegin := hready last hmem
    have hlow : Low ⟨parts, []⟩ size := ⟨hunknown, show parts.minSize < size by omega⟩
    exact (hrun.sound (P := (Low · size)) hsound hlow
      (fun h hlow hmove => hlow.step h hmem hbegin hend hmove) n).2.1

end

/-- **A transfer of unknown size**, from any parts that are there, with parts that come
in any order. No part that comes is refused and none is requested twice. Every run that
goes on as long as it can and in which parts keep completing finishes, exactly if the last
part of the file was not there at the beginning and the file ends in, or right before, one
of the parts there may be. -/
theorem unknown_size_finishes_iff (hsize : size ≤ noMaxSize) (hpart : partSize < 2 ^ 31)
    (hnodup : readyParts.Nodup)
    (hinit : init 0 expectedSize partSize readyParts usePartCountLimit isUpload = .ok parts)
    (hready : ∀ i ∈ readyParts, parts.partSize * i < size) : (∀ ids t, Reaches size ⟨parts, []⟩ ids t →
      ids.Nodup ∧ ∀ i part, t.find i = some part →
        ∃ parts', t.parts.onPartOk i part.size (piece size parts.partSize i) = .ok parts') ∧
    ((∀ state moves, IsRun size ⟨parts, []⟩ state moves → KeepsCompleting state moves →
        ∃ n, (state n).Finished size) ↔
      (∀ i ∈ readyParts, parts.partSize * (i + 1) < size) ∧ size < parts.partSize * parts.partLimit) := by
  have hsound := sound_of_init hpart hinit hsize
  constructor
  · intro ids t hreaches
    obtain ⟨ht, hids, -⟩ := hsound.reaches hreaches
    exact ⟨hids, fun i part hfind => ht.complete hfind⟩
  constructor
  · intro hfinishes
    by_contra hcond
    obtain ⟨state, moves, hrun, hfair⟩ := hsound.exists_run
    obtain ⟨n, hn⟩ := hfinishes state moves hrun hfair
    exact not_finished hpart hinit hsize hready hcond hrun n hn
  · rintro ⟨hlast, hfits⟩ state moves hrun hfair
    exact hsound.finishes (counts_of_init hpart hinit hnodup hlast) hlast hfits hrun hfair

theorem exists_init_one : ∃ parts, init 0 0 65536 [0] false false = .ok parts ∧ parts.partSize = 65536 ∧
    parts.partLimit = 8064 :=
  ⟨_, eq_ok_getD (by decide +kernel) .fresh, by decide +kernel, by decide +kernel⟩

/-- A file of two parts and some bytes, the first part of which is there. -/
theorem unknown_size_finishes_iff_three : ∃ parts, init 0 0 65536 [0] false false = .ok parts ∧
      (∃ state moves, IsRun 140000 ⟨parts, []⟩ state moves ∧ KeepsCompleting state moves) ∧
      ∀ state moves, IsRun 140000 ⟨parts, []⟩ state moves → KeepsCompleting state moves →
        ∃ n, (state n).Finished 140000 := by
  obtain ⟨parts, hinit, hpartSize, hlimit⟩ := exists_init_one
  have hsize : 140000 ≤ noMaxSize := by decide
  refine ⟨_, hinit, (sound_of_init (by decide) hinit hsize).exists_run, ?_⟩
  refine (unknown_size_finishes_iff hsize (by decide) (by decide) hinit ?_).2.mpr ?_
  · simp
  · rw [hpartSize, hlimit]
    simp

/-- A file of exactly one part, which is there: parts keep completing, and the transfer
never finishes. -/
theorem restored_last_part_stalls : ∃ parts state moves, init 0 0 65536 [0] false false = .ok parts ∧
      IsRun 65536 ⟨parts, []⟩ state moves ∧ KeepsCompleting state moves ∧ ∀ n, ¬ (state n).Finished 65536 := by
  obtain ⟨parts, hinit, hpartSize, -⟩ := exists_init_one
  have hsize : 65536 ≤ noMaxSize := by decide
  obtain ⟨state, moves, hrun, hfair⟩ := (sound_of_init (by decide) hinit hsize).exists_run
  refine ⟨_, state, moves, hinit, hrun, hfair, not_finished (by decide) hinit hsize (by simp) ?_ hrun⟩
  simp [hpartSize]

end Transfer

end Tdlib.Files
