/-
The books of a transfer of known size. What the manager counts is what the statuses
of the parts say, the parts are the file cut into pieces, and no part is passed over:
when nothing is under way and nothing is left to start, every part is there.
-/
import Tdlib.Files.PartsInit

namespace Tdlib.Files

open Outcome Tiling List PartsManager

/-- The bytes of a part. -/
def Part.Has (part : Part) (x : Nat) : Prop := part.offset ≤ x ∧ x < part.offset + part.size

namespace PartsManager

variable {s s' : PartsManager} {i : Nat} {inFlight : List Part} {part : Part}

/-- The sum of the sizes of the parts that are there. -/
def readySum (s : PartsManager) : Nat :=
  ∑ i ∈ Finset.range s.partCount, if s.status i = .ready then (s.getPart i).size else 0

theorem readySum_eq (s : PartsManager) : s.readySum = { s with streamingLimit := 0 }.streamingReady := by
  apply Finset.sum_congr rfl
  intro i _
  have hlimit : { s with streamingLimit := 0 }.inStreamingLimit i = true := by simp [inStreamingLimit]
  rw [hlimit]
  simp only [Bool.true_and, beq_iff_eq]
  rfl

section

variable (hlen : s.partStatus.length = s.partCount) (hi : i < s.partCount) (hne : s.status i ≠ .ready)

include hlen hi hne

theorem readySum_setStatus {st : PartStatus} (hst : st ≠ .ready) : (s.setStatus i st).readySum = s.readySum := by
  rw [readySum_eq, readySum_eq]
  exact streamingReady_setStatus (s := { s with streamingLimit := 0 }) hlen hi hne hst

theorem readySum_set_ready : (s.setStatus i .ready).readySum = s.readySum + (s.getPart i).size := by
  have hset := streamingReady_set (s := { s with streamingLimit := 0 }) hlen hi hne
  rw [readySum_eq, readySum_eq]
  exact hset

end

/-! ## What stays true -/

/-- A manager of a file of known size, whose parts that are there are counted right. -/
structure Tracked (s : PartsManager) (size partSize : Nat) : Prop where
  known : s.unknownSizeFlag = false
  size_eq : s.size = size
  partSize_eq : s.partSize = partSize
  partCount_eq : s.partCount = calcPartCount size partSize
  readySize_eq : s.readySize = s.readySum

variable {size partSize : Nat}

section

variable (h : s.Tracked size partSize)

include h

theorem Tracked.totalSize : s.totalSize = size := by
  rw [PartsManager.totalSize, h.known, h.size_eq]
  rfl

theorem Tracked.finishStreamingOffset {limit : Int} {r : Nat × PartsManager}
    (heq : s.finishStreamingOffset limit = .ok r) : r.2.Tracked size partSize := by
  rw [finishStreamingOffset_eq] at heq
  cases heq
  exact { h with }

/-- An offset inside the file does not add parts. -/
theorem Tracked.setStreamingOffset (hpos : 0 < partSize) {offset limit : Int}
    {r : Nat × PartsManager} (heq : s.setStreamingOffset offset limit = .ok r) : r.2.Tracked size partSize := by
  have hzero : { s with streamingOffset := 0 }.Tracked size partSize := { h with }
  unfold PartsManager.setStreamingOffset at heq
  split at heq
  · rw [bind_ok_iff] at heq
    obtain ⟨_, -, heq⟩ := heq
    exact hzero.finishStreamingOffset heq
  next hinside =>
    dsimp only at heq
    split at heq
    · exact hzero.finishStreamingOffset heq
    · rw [bind_ok_iff] at heq
      obtain ⟨_, -, heq⟩ := heq
      have hle : offset.toNat / s.partSize ≤ s.partCount := by
        have hoffset : offset.toNat ≤ size := by
          have hknown := h.known
          have hsize := h.size_eq
          simp_all
        rw [h.partSize_eq, h.partCount_eq, calcPartCount]
        exact Nat.div_le_div_right (by omega)
      have hmoved : (s.movedTo offset.toNat) = { s with
          streamingOffset := offset.toNat
          firstStreamingEmptyPart := offset.toNat / s.partSize
          firstStreamingNotReadyPart := offset.toNat / s.partSize } := by
        rw [movedTo, Nat.max_eq_left hle, Nat.sub_eq_zero_of_le hle, replicate_zero, append_nil]
      have htracked : (s.movedTo offset.toNat).Tracked size partSize := by
        rw [hmoved]
        exact { h with }
      exact htracked.finishStreamingOffset heq

section

variable (hinv : s.Inv inFlight)

include hinv

theorem Tracked.choosePart {choice : Option Nat}
    (heq : s.choosePart = .ok (choice, s')) : s'.Tracked size partSize := by
  have hknown := h.known
  obtain ⟨i, -, -, -, ⟨rfl, -⟩ | ⟨-, hunknown, -⟩⟩ | ⟨-, rfl, -⟩ := choosePart_cases hinv heq
  · exact { h with }
  · rw [hknown] at hunknown
    cases hunknown
  · exact { h with }

theorem Tracked.startPart (heq : s.startPart = .ok (part, s')) : s'.Tracked size partSize := by
  obtain ⟨choice, u, hchoice, ⟨-, rfl, -⟩ | ⟨i, -, hi, hempty, -, rfl, -⟩⟩ := startPart_cases hinv heq
  · exact h.choosePart hinv hchoice
  · have hu := h.choosePart hinv hchoice
    have hsum : (u.setStatus i .pending).readySum = u.readySum :=
      readySum_setStatus (hinv.choosePart hchoice).length_eq hi (by rw [hempty]; decide) (by decide)
    have hready := hu.readySize_eq
    rw [← hsum] at hready
    exact { hu with readySize_eq := hready }

theorem Tracked.onPartOk (hflies : s.Flies part i)
    {actualSize : Nat} (hactual : actualSize ≤ part.size) (heq : s.onPartOk i part.size actualSize = .ok s') :
    s'.Tracked size partSize := by
  have hpending := hflies.2.1
  obtain ⟨bitmask, ⟨-, hsize, rfl⟩ | ⟨hunknown, -⟩⟩ := onPartOk_cases hinv.toCore hflies heq
  · have hsum := readySum_set_ready hinv.length_eq (hinv.lt_partCount (by rw [hpending]; decide))
      (by rw [hpending]; decide : s.status i ≠ .ready)
    have hready : s.readySize + actualSize = (s.setStatus i .ready).readySum := by
      rw [hsum, h.readySize_eq, ← hsize hactual]
    exact { h with readySize_eq := hready }
  · exact Bool.noConfusion (hunknown.symm.trans h.known)

theorem Tracked.onPartFailed (hpending : s.status i = .pending)
    (heq : s.onPartFailed i = .ok s') : s'.Tracked size partSize := by
  have hsum : (s.setStatus i .empty).readySum = s.readySum :=
    readySum_setStatus hinv.length_eq (hinv.lt_partCount (by rw [hpending]; decide)) (by rw [hpending]; decide)
      (by decide)
  have hready := h.readySize_eq
  rw [← hsum] at hready
  unfold PartsManager.onPartFailed at heq
  rw [check_true hpending, ok_bind] at heq
  dsimp only at heq
  split at heq
  · cases heq
    exact { h with readySize_eq := hready }
  · rw [bind_ok_iff] at heq
    obtain ⟨_, -, heq⟩ := heq
    cases heq
    split
    · exact { h with readySize_eq := hready }
    · exact { h with readySize_eq := hready }

end

end

theorem sum_of_status {readyParts : List Nat} {n : Nat} (f : Nat → Nat) (hnodup : readyParts.Nodup)
    (hlt : ∀ i ∈ readyParts, i < n) (hstatus : ∀ i, s.status i = if i ∈ readyParts then .ready else .empty) :
    (∑ i ∈ Finset.range n, if s.status i = .ready then f i else 0) = (readyParts.map f).sum := by
  have hterm : ∀ i, (if s.status i = .ready then f i else 0) = if i ∈ readyParts.toFinset then f i else 0 := by
    intro i
    rw [hstatus]
    by_cases hmem : i ∈ readyParts
    · simp [hmem]
    · simp [hmem]
  have hinter : Finset.range n ∩ readyParts.toFinset = readyParts.toFinset := by
    apply Finset.inter_eq_right.mpr
    intro i hi
    exact Finset.mem_range.mpr (hlt i (mem_toFinset.mp hi))
  rw [Finset.sum_congr rfl fun i _ => hterm i, Finset.sum_ite_mem, hinter, sum_toFinset _ hnodup]

theorem tracked_of_init {expectedSize : Nat} {readyParts : List Nat} {usePartCountLimit isUpload : Bool}
    (hsize : size ≠ 0) (hnodup : readyParts.Nodup)
    (heq : init size expectedSize partSize readyParts usePartCountLimit isUpload = .ok s) :
    s.Inv [] ∧ s.Tracked size s.partSize := by
  obtain ⟨-, -, hcommon⟩ := init_ok heq
  have hbegins := (beginning_unstarted fun hzero => absurd hzero hsize).initCommon hcommon
  have hready : s.readySize = s.readySum := by
    rw [hbegins.readySize, readySum]
    exact (sum_of_status (fun i => (s.getPart i).size) hnodup hbegins.mem_lt hbegins.status).symm
  refine ⟨hbegins.inv, ?_⟩
  obtain ⟨statuses, bitmask, readySize, a, b, c, rfl⟩ := hbegins.same
  exact
    { known := decide_eq_false hsize
      size_eq := rfl
      partSize_eq := rfl
      partCount_eq := if_neg hsize
      readySize_eq := hready }

/-! ## Starting a part -/

theorem choosePart_known (hknown : s.unknownSizeFlag = false) : ∃ choice u, s.choosePart = .ok (choice, u) := by
  have hknown' : s.updateFirstEmptyPart.unknownSizeFlag = false := hknown
  unfold choosePart
  simp only [hknown', Bool.false_eq_true, if_false]
  split
  · split <;> exact ⟨_, _, rfl⟩
  · exact ⟨_, _, rfl⟩

theorem status_of_started (h : s.Inv inFlight) (heq : s.startPart = .ok (part, s')) (hne : part ≠ getEmptyPart) :
    ∃ i, part = s'.getPart i ∧ s.status i = .empty ∧ s'.status i = .pending := by
  obtain ⟨choice, u, hchoice, ⟨hempty, -⟩ | ⟨i, hsome, hi, hstatus, -, rfl, rfl⟩⟩ := startPart_cases h heq
  · exact absurd hempty hne
  · refine ⟨i, rfl, ?_, ?_⟩
    · obtain ⟨_, -, -, -, ⟨rfl, -⟩ | ⟨rfl, -⟩⟩ | ⟨-, rfl, -⟩ := choosePart_cases h hchoice
      · exact hstatus
      · rw [grown, status, ← replicate_one, status_append_empty] at hstatus
        exact hstatus
      · exact hstatus
    · show (u.setStatus i .pending).status i = _
      rw [status_setStatus (by rw [(h.choosePart hchoice).length_eq]; exact hi), if_pos rfl]

/-- Without a limit nothing is started only if no part is empty. -/
theorem not_empty_of_stopped (h : s.Inv inFlight) (htracked : s.Tracked size partSize) (hlimit : s.streamingLimit = 0)
    (heq : s.startPart = .ok (getEmptyPart, s')) (hi : i < s.partCount) : s.status i ≠ .empty := by
  obtain ⟨choice, u, hchoice, ⟨-, rfl, hstop⟩ | ⟨j, -, -, -, hlt, -, hpart⟩⟩ := startPart_cases h heq
  · have hu := htracked.choosePart h hchoice
    have hinv := h.choosePart hchoice
    obtain ⟨j, hsome, hj, -, hcases⟩ | ⟨-, rfl, -, hfirst⟩ := choosePart_cases h hchoice
    · have hlimit' : s'.streamingLimit = 0 := by
        rcases hcases with ⟨rfl, -⟩ | ⟨rfl, -⟩
        · exact hlimit
        · exact hlimit
      have hle := hstop j hsome (by simp [inStreamingLimit, hlimit'])
      rw [hu.totalSize, hu.partSize_eq, Nat.mul_comm] at hle
      rw [hu.partCount_eq, calcPartCount] at hj
      have hpos : 0 < partSize := hu.partSize_eq ▸ hinv.partSize_pos
      have hbounds := mul_divUp_bounds hpos size
      have hnext := Nat.mul_le_mul_left partSize (show j + 1 ≤ (size + partSize - 1) / partSize from hj)
      rw [Nat.mul_succ] at hnext
      omega
    · exact hinv.notEmpty i (by rw [hfirst]; exact hi)
  · have hpos := size_pos_of_started (h.choosePart hchoice).partSize_pos hlt
    rw [← hpart] at hpos
    exact absurd hpos (by decide)

/-! ## The parts of the file -/

theorem Tracked.has_iff (h : s.Tracked size partSize) (hpos : 0 < partSize) (x : Nat) :
    (s.getPart i).Has x ↔ i = x / partSize ∧ x < size := by
  have hsize : (s.getPart i).size = piece size partSize i := by
    rw [size_getPart, h.totalSize, h.partSize_eq]
  have hoffset : (s.getPart i).offset = partSize * i := by
    rw [← h.partSize_eq]
    rfl
  rw [Part.Has, hsize, hoffset, piece]
  constructor
  · intro hx
    refine ⟨?_, by omega⟩
    symm
    apply Nat.div_eq_of_lt_le
    · rw [Nat.mul_comm]
      exact hx.1
    · rw [Nat.mul_comm, Nat.mul_succ]
      omega
  · intro hx
    obtain ⟨rfl, hlt⟩ := hx
    obtain ⟨hle, hgt⟩ := mul_div_bounds hpos x
    rw [Nat.mul_succ] at hgt
    omega

theorem Tracked.div_lt (h : s.Tracked size partSize) (hpos : 0 < partSize) {x : Nat} (hx : x < size) :
    x / partSize < s.partCount := by
  rw [h.partCount_eq, calcPartCount]
  exact lt_divUp hpos (Nat.lt_of_le_of_lt (mul_div_bounds hpos x).1 hx)

end PartsManager

namespace Transfer

variable {t t' : Transfer} {size partSize : Nat}

/-- A transfer of known size with right books. -/
structure Tracked (t : Transfer) (size partSize : Nat) : Prop where
  inv : t.Inv
  tracked : t.parts.Tracked size partSize

/-- **One call** keeps the books right. -/
theorem Tracked.becomes (h : t.Tracked size partSize) {limit : Option Int} (hstep : t.Becomes limit t') :
    t'.Tracked size partSize := by
  obtain ⟨hinv, hparts⟩ := h
  refine ⟨hinv.becomes hstep, ?_⟩
  cases hstep with
  | same => exact hparts
  | asked => exact { hparts with }
  | moved hoffset => exact hparts.setStreamingOffset (hparts.partSize_eq ▸ hinv.partSize_pos) hoffset
  | limited limit => exact { hparts with }
  | started hstart => exact hparts.startPart hinv hstart
  | came hfind hactual hok => exact hparts.onPartOk hinv (flies_of_find hinv hfind) hactual hok
  | failed hfind hfailed => exact hparts.onPartFailed hinv (flies_of_find hinv hfind).2.1 hfailed

/-- **The books of a transfer of known size**, after any calls that did not fail. What
is there and what is pending is counted right; the parts are disjoint and cover the
file; a part can be started, which was empty, or there is none to start, and if then
nothing is pending and there is no limit, every part is there. -/
theorem known_size_bookkeeping {expectedSize : Nat} {readyParts : List Nat} {usePartCountLimit isUpload : Bool}
    {parts : PartsManager} {calls : List Call} (hsize : size ≠ 0) (hnodup : readyParts.Nodup)
    (hinit : init size expectedSize partSize readyParts usePartCountLimit isUpload = .ok parts)
    (hrun : run ⟨parts, []⟩ calls = .ok t) :
    t.parts.readySize =
      ∑ i ∈ Finset.range t.parts.partCount, (if t.parts.status i = .ready then (t.parts.getPart i).size else 0) ∧
    t.parts.pendingCount = t.parts.partStatus.count .pending ∧
    t.parts.partStatus.length = t.parts.partCount ∧
    (∀ x, (∃ i < t.parts.partCount, (t.parts.getPart i).Has x) ↔ x < size) ∧
    (∀ i j x, (t.parts.getPart i).Has x → (t.parts.getPart j).Has x → i = j) ∧
    ∃ part parts', t.parts.startPart = .ok (part, parts') ∧
      (part ≠ getEmptyPart →
        ∃ i, part = parts'.getPart i ∧ t.parts.status i = .empty ∧ parts'.status i = .pending) ∧
      (part = getEmptyPart → t.parts.streamingLimit = 0 → t.parts.pendingCount = 0 →
        ∀ i < t.parts.partCount, t.parts.status i = .ready) := by
  obtain ⟨hinv₀, htracked₀⟩ := tracked_of_init hsize hnodup hinit
  have hbegin : Tracked ⟨parts, []⟩ size parts.partSize := ⟨hinv₀, htracked₀⟩
  have htracked : t.Tracked size parts.partSize :=
    run_induction (P := fun t => t.Tracked size parts.partSize) (fun h hstep => h.becomes hstep) hbegin hrun
  obtain ⟨hinv, hparts⟩ := htracked
  have hpos : 0 < parts.partSize := hinv₀.partSize_pos
  refine ⟨hparts.readySize_eq, hinv.pending, hinv.length_eq, ?_, ?_, ?_⟩
  · intro x
    constructor
    · intro hsome
      obtain ⟨i, -, hx⟩ := hsome
      exact ((hparts.has_iff hpos x).mp hx).2
    · intro hx
      exact ⟨x / parts.partSize, hparts.div_lt hpos hx, (hparts.has_iff hpos x).mpr ⟨rfl, hx⟩⟩
  · intro i j x hi hj
    rw [((hparts.has_iff hpos x).mp hi).1, ((hparts.has_iff hpos x).mp hj).1]
  · obtain ⟨choice, u, hchoice⟩ := choosePart_known hparts.known
    obtain ⟨part, parts', hstart⟩ := startPart_total hinv hchoice
    refine ⟨part, parts', hstart, fun hne => status_of_started hinv hstart hne, ?_⟩
    intro hempty hlimit hpending i hi
    rw [hempty] at hstart
    have hne := not_empty_of_stopped hinv hparts hlimit hstart hi
    have hnotPending : t.parts.status i ≠ .pending := by
      intro hstatus
      have hcount := hinv.pending
      have hlength : i < t.parts.partStatus.length := by rw [hinv.length_eq]; exact hi
      have hmem : PartStatus.pending ∈ t.parts.partStatus := by
        simp [← hstatus, status, hlength]
      have := count_pos_iff.mpr hmem
      omega
    cases hstatus : t.parts.status i with
    | empty => exact absurd hstatus hne
    | pending => exact absurd hstatus hnotPending
    | ready => rfl

/-- A part that comes short fails, and what is ready is counted wrong from then on: ten
bytes beside a ready part of 65536. -/
theorem failed_part_miscounted : ∃ parts t s message, init 200000 200000 65536 [] false false = .ok parts ∧
      run ⟨parts, []⟩ [.startPart] = .ok t ∧ t.parts.onPartOkStatus 0 65536 10 = .ok (some message, s) ∧
      s.readySize = 10 ∧
      ∑ i ∈ Finset.range s.partCount, (if s.status i = .ready then (s.getPart i).size else 0) = 65536 := by
  have hinit := eq_ok_getD (x := init 200000 200000 65536 [] false false) (by decide +kernel) .fresh
  have hrun := eq_ok_getD (x := run ⟨(init 200000 200000 65536 [] false false).getD .fresh, []⟩ [.startPart])
    (by decide +kernel) ⟨.fresh, []⟩
  refine ⟨_, _, _, _, hinit, hrun, rfl, by decide +kernel, by decide +kernel⟩

/-- A file of two parts: the first one has come, the second one is under way. -/
theorem known_size_bookkeeping_two : ∃ parts t, init 100000 100000 65536 [] false false = .ok parts ∧
      run ⟨parts, []⟩ [.startPart, .startPart, .partOk 0 65536] = .ok t ∧
      t.parts.readySize =
        ∑ i ∈ Finset.range t.parts.partCount, (if t.parts.status i = .ready then (t.parts.getPart i).size else 0) ∧
      t.parts.pendingCount = t.parts.partStatus.count .pending ∧
      t.parts.readySize = 65536 ∧ t.parts.pendingCount = 1 := by
  have hinit : init 100000 100000 65536 [] false false =
      .ok ((init 100000 100000 65536 [] false false).getD .fresh) := eq_ok_getD (by decide +kernel) _
  have hrun : run ⟨(init 100000 100000 65536 [] false false).getD .fresh, []⟩
      [.startPart, .startPart, .partOk 0 65536] = .ok _ := eq_ok_getD (by decide +kernel) ⟨.fresh, []⟩
  obtain ⟨hready, hpending, -⟩ := known_size_bookkeeping (by decide) nodup_nil hinit hrun
  exact ⟨_, _, hinit, hrun, hready, hpending, by decide +kernel, by decide +kernel⟩

end Transfer

end Tdlib.Files
