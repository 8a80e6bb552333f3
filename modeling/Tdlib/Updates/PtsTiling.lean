/-
What `add_pending_pts_update` applies: as long as no update comes again while a copy
of it waits, the updates that were applied are the PTS cut into pieces, from where it
began to where it is. The totals then tell the truth: the counts of the updates that
wait fill what is between the PTS and the greatest PTS seen, exactly if the updates do.
-/
import Mathlib
import Tdlib.Lib.Cover
import Tdlib.Updates.PtsUpdates

namespace Tdlib.Updates

open List hiding Disjoint
open Outcome PendingPtsUpdate

/-- What an update brings: the numbers from `pts - pts_count`, exclusive, to `pts`. -/
def PendingPtsUpdate.interval (u : PendingPtsUpdate) : Finset Int :=
  @Finset.Ioc Int Int.instLinearOrder.toPreorder _ (u.pts - u.ptsCount) u.pts

/-- Updates that do not meet and fill `(first, last]`. -/
def Tiles (first last : Int) (updates : List PendingPtsUpdate) : Prop :=
  updates.Pairwise (fun u v => Disjoint u.interval v.interval) ∧
    Cover.cover interval updates = Finset.Ioc first last

/-- The updates that were applied. -/
def applied (actions : List Action) : List PendingPtsUpdate :=
  actions.filterMap fun
    | .processPtsUpdate u => some u
    | _ => none

/-- Whenever the PTS is set, what was applied so far fills what is below it. -/
def SetsTile (first : Int) : List PendingPtsUpdate → List Action → Prop
  | _, [] => True
  | seen, .setPts pts :: actions => Tiles first pts seen ∧ SetsTile first seen actions
  | seen, action :: actions => SetsTile first (seen ++ applied [action]) actions

variable {first : Int} {seen : List PendingPtsUpdate} {u v : PendingPtsUpdate}

/-! ## Actions -/

@[simp] theorem applied_append (actions more : List Action) :
    applied (actions ++ more) = applied actions ++ applied more := filterMap_append

theorem setsTile_append (actions more : List Action) : SetsTile first seen (actions ++ more) ↔
      SetsTile first seen actions ∧ SetsTile first (seen ++ applied actions) more := by
  induction actions generalizing seen with
  | nil => simp [SetsTile, applied]
  | cons action actions ih => cases action <;> simp [SetsTile, applied, ih, and_assoc]

variable {updates rest : List PendingPtsUpdate} {pts : Int} {actions : List Action}

theorem tiles_of_setsTile {before after : List Action} (h : SetsTile first [] actions)
    (heq : actions = before ++ .setPts pts :: after) : Tiles first pts (applied before) := by
  rw [heq, setsTile_append] at h
  exact h.2.1

/-! ## Intervals -/

theorem mem_interval {x : Int} : x ∈ u.interval ↔ u.pts - u.ptsCount < x ∧ x ≤ u.pts := Finset.mem_Ioc

theorem card_interval (hcount : 0 ≤ u.ptsCount) : (u.interval.card : Int) = u.ptsCount := by
  rw [interval, Int.card_Ioc]
  omega

theorem le_of_disjoint (hdisjoint : Disjoint u.interval v.interval)
    (hfirst : u.pts - u.ptsCount ≤ v.pts - v.ptsCount) (hle : u.pts ≤ v.pts) : u.pts ≤ v.pts - v.ptsCount := by
  by_contra hlt
  have hu : v.pts - v.ptsCount + 1 ∈ u.interval := mem_interval.mpr (by omega)
  have hv : v.pts - v.ptsCount + 1 ∈ v.interval := mem_interval.mpr (by omega)
  exact Finset.disjoint_left.mp hdisjoint hu hv

theorem Tiles.append {last next : Int} (h : Tiles first last seen)
    (hnext : Tiles last next updates) (hle : first ≤ last) (hle' : last ≤ next) :
    Tiles first next (seen ++ updates) := by
  obtain ⟨hseen, hcover⟩ := h
  obtain ⟨hupdates, hcover'⟩ := hnext
  refine ⟨pairwise_append.mpr ⟨hseen, hupdates, ?_⟩, ?_⟩
  · intro a ha b hb
    have hsub := hcover ▸ Cover.subset_cover ha
    have hsub' := hcover' ▸ Cover.subset_cover hb
    exact (Finset.Ioc_disjoint_Ioc_of_le (Int.le_refl last)).mono hsub hsub'
  · rw [Cover.cover_append, hcover, hcover', Finset.Ioc_union_Ioc_eq_Ioc hle hle']

theorem tiles_single (u : PendingPtsUpdate) : Tiles (u.pts - u.ptsCount) u.pts [u] := by
  simp [Tiles, Cover.cover, interval]

theorem tiles_nil (pts : Int) : Tiles pts pts [] := by
  simp [Tiles, Cover.cover]

theorem sum_count (hcount : ∀ u ∈ updates, 0 ≤ u.ptsCount) :
    (((updates.map fun u => u.interval.card).sum : Nat) : Int) = (updates.map ptsCount).sum := by
  induction updates with
  | nil => rfl
  | cons u updates ih =>
    simp [card_interval (hcount u (by simp)), ih fun v hv => hcount v (by simp [hv])]

section

variable {updates : List PendingPtsUpdate} {last : Int}

section

variable (hdisjoint : updates.Pairwise fun u v => Disjoint u.interval v.interval)
    (hcount : ∀ u ∈ updates, 0 ≤ u.ptsCount) (hbegin : ∀ u ∈ updates, first ≤ u.pts - u.ptsCount)
    (hend : ∀ u ∈ updates, u.pts ≤ last)

include hdisjoint hcount hbegin hend

/-- Updates between two numbers have at most so many counts as there are between them. -/
theorem sum_count_le (hle : first ≤ last) : (updates.map ptsCount).sum ≤ last - first := by
  have hsub : ∀ u ∈ updates, u.interval ⊆ Finset.Ioc first last := fun u hu =>
    Finset.Ioc_subset_Ioc (hbegin u hu) (hend u hu)
  have hsum := Cover.sum_card_le hdisjoint hsub
  rw [Int.card_Ioc] at hsum
  rw [← sum_count hcount]
  omega

theorem tiles_of_sum_count (hsum : (updates.map ptsCount).sum = last - first) : Tiles first last updates := by
  have hsub : ∀ u ∈ updates, u.interval ⊆ Finset.Ioc first last := fun u hu =>
    Finset.Ioc_subset_Ioc (hbegin u hu) (hend u hu)
  refine ⟨hdisjoint, Cover.cover_eq_of_card_le hdisjoint hsub ?_⟩
  rw [← sum_count hcount] at hsum
  rw [Int.card_Ioc]
  omega

end

end

/-! ## The updates that wait -/

theorem perm_insertUpdate (u : PendingPtsUpdate) (updates : List PendingPtsUpdate) :
    (insertUpdate u updates).Perm (u :: updates) := by
  induction updates with
  | nil => exact List.Perm.refl _
  | cons v updates ih =>
    rw [insertUpdate]
    split
    · exact List.Perm.refl _
    · exact (ih.cons v).trans (List.Perm.swap u v updates)

@[simp] theorem mem_insertUpdate : v ∈ insertUpdate u updates ↔ v = u ∨ v ∈ updates := by
  rw [(perm_insertUpdate u updates).mem_iff, mem_cons]

theorem before_eq_false_iff : v.before u = false ↔ u.pts < v.pts ∨ u.pts = v.pts ∧ v.ptsCount ≤ u.ptsCount := by
  unfold before
  split <;> simp <;> omega

/-- The order of `pending_pts_updates_`. -/
def Ordered (updates : List PendingPtsUpdate) : Prop := updates.Pairwise fun u v => v.before u = false

theorem ordered_insertUpdate (h : Ordered updates) : Ordered (insertUpdate u updates) := by
  induction updates with
  | nil => exact pairwise_singleton _ _
  | cons v updates ih =>
    obtain ⟨hhead, htail⟩ := pairwise_cons.mp h
    rw [insertUpdate]
    split
    next hbefore =>
      refine pairwise_cons.mpr ⟨?_, h⟩
      intro w hw
      have hle := mt before_eq_false_iff.mpr (by simpa using hbefore : ¬ u.before v = false)
      rw [before_eq_false_iff]
      rcases mem_cons.mp hw with rfl | hw
      · omega
      · have := before_eq_false_iff.mp (hhead w hw)
        omega
    next hbefore =>
      refine pairwise_cons.mpr ⟨?_, ih htail⟩
      simpa using ⟨by simpa using hbefore, hhead⟩

namespace PtsUpdates

variable {s s' : PtsUpdates}

/-- `1 << 30`, below which all values are. -/
def maxValue : Int := 1073741824

/-- Updates that wait behind the PTS: they do not meet, and are in order. -/
structure Waits (pts : Int) (updates : List PendingPtsUpdate) : Prop where
  ordered : Ordered updates
  disjoint : updates.Pairwise fun u v => Disjoint u.interval v.interval
  count_nonneg : ∀ u ∈ updates, 0 ≤ u.ptsCount
  behind : ∀ u ∈ updates, pts ≤ u.pts - u.ptsCount
  lt_maxValue : ∀ u ∈ updates, u.pts < maxValue

/-- What was applied fills what is below the PTS. -/
structure Applied (first : Int) (s : PtsUpdates) : Prop where
  one_le : 1 ≤ first
  le_pts : first ≤ s.pts
  tiles : Tiles first s.pts (applied s.actions)
  sets : SetsTile first [] s.actions

/-- Actions that neither apply an update nor set the PTS. -/
def Quiet (actions : List Action) : Prop := ∀ a ∈ actions, (∀ u, a ≠ .processPtsUpdate u) ∧ ∀ pts, a ≠ .setPts pts

theorem Quiet.applied (h : Quiet actions) : applied actions = [] := by
  rw [Updates.applied, filterMap_eq_nil_iff]
  intro a ha
  have := h a ha
  cases a <;> simp_all

theorem setsTile_of_forall (h : ∀ a ∈ actions, ∀ pts, a ≠ .setPts pts)
    (seen : List PendingPtsUpdate) : SetsTile first seen actions := by
  induction actions generalizing seen with
  | nil => trivial
  | cons a actions ih => cases a <;> simp_all [SetsTile]

variable {t : PtsUpdates}

/-- Updates that fill what is between the PTS and another number are applied, and the
PTS is set. -/
theorem Applied.advance (h : s.Applied first) {more : List Action}
    (hactions : t.actions = s.actions ++ (actions ++ .setPts t.pts :: more))
    (htiles : Tiles s.pts t.pts (applied actions)) (hle : s.pts ≤ t.pts)
    (hsets : ∀ a ∈ actions, ∀ pts, a ≠ .setPts pts) (hmore : Quiet more) :
    t.Applied first ∧ applied t.actions = applied s.actions ++ applied actions := by
  have hall := h.tiles.append htiles h.le_pts hle
  have heq : applied t.actions = applied s.actions ++ applied actions := by
    have := hmore.applied
    simp_all [applied]
  refine ⟨⟨h.one_le, Int.le_trans h.le_pts hle, heq ▸ hall, ?_⟩, heq⟩
  rw [hactions, setsTile_append, setsTile_append]
  exact ⟨h.sets, setsTile_of_forall hsets _, by simpa using hall, setsTile_of_forall (fun a ha => (hmore a ha).2) _⟩

theorem Applied.quiet (h : s.Applied first) (hactions : t.actions = s.actions ++ actions)
    (hpts : t.pts = s.pts) (hquiet : Quiet actions) : t.Applied first ∧ applied t.actions = applied s.actions := by
  have heq : applied t.actions = applied s.actions := by rw [hactions, applied_append, hquiet.applied, append_nil]
  refine ⟨⟨h.one_le, hpts ▸ h.le_pts, by rw [heq, hpts]; exact h.tiles, ?_⟩, heq⟩
  rw [hactions, setsTile_append]
  exact ⟨h.sets, setsTile_of_forall (fun a ha => (hquiet a ha).2) _⟩

theorem setPts_eq (hle : s.pts ≤ pts) (hpos : 0 < pts) (hlt : pts < maxValue) :
    s.setPts pts = { s with pts := pts, actions := s.actions ++ [.setPts pts] } := by
  have hmax : ¬ pts = maxPts := by
    rw [maxValue] at hlt
    rw [maxPts]
    omega
  simp only [setPts, act, if_neg hmax, addPts, if_pos hpos]
  split
  · rfl
  · rw [show pts = s.pts by omega]

/-! ## Updates are applied one by one -/

theorem Waits.tail (h : Waits pts (u :: rest)) : Waits pts rest :=
  { ordered := (pairwise_cons.mp h.ordered).2
    disjoint := (pairwise_cons.mp h.disjoint).2
    count_nonneg := fun v hv => h.count_nonneg v (by simp [hv])
    behind := fun v hv => h.behind v (by simp [hv])
    lt_maxValue := fun v hv => h.lt_maxValue v (by simp [hv]) }

/-- After the first update has been applied the others still wait behind the PTS. -/
theorem Waits.advance (h : Waits pts (u :: rest)) (hbegin : pts = u.pts - u.ptsCount) : Waits u.pts rest := by
  refine { h.tail with behind := ?_ }
  intro v hv
  have hdisjoint := (pairwise_cons.mp h.disjoint).1 v hv
  have hbefore := before_eq_false_iff.mp ((pairwise_cons.mp h.ordered).1 v hv)
  have hbehind := h.behind v (by simp [hv])
  by_cases hpos : 0 < u.ptsCount
  · exact le_of_disjoint hdisjoint (by omega) (by omega)
  · omega

/-- The manager after an update of the loop. -/
def taken (s : PtsUpdates) (u : PendingPtsUpdate) (actions : List Action) : PtsUpdates :=
  { s with
    pts := u.pts
    accumulatedPtsCount := s.accumulatedPtsCount - u.ptsCount
    actions := s.actions ++ actions }

/-- An update of the loop begins at the PTS, and the PTS goes to where it ends. -/
theorem applyPending_ok (h : s.Applied first) (hbegin : s.pts = u.pts - u.ptsCount) (hcount : 0 ≤ u.ptsCount)
    (hlt : u.pts < maxValue) (hacc : u.pts ≤ s.accumulatedPts) (hsum : u.ptsCount ≤ s.accumulatedPtsCount) :
    ∃ actions, s.applyPending u = .ok (s.taken u actions) ∧ (s.taken u actions).Applied first ∧
      applied (s.taken u actions).actions = applied s.actions ++ (if 0 < u.ptsCount then [u] else []) := by
  have hone := h.one_le
  have hle := h.le_pts
  unfold applyPending
  split
  next hpos =>
    have hset := setPts_eq (s := s.act (.processPtsUpdate u)) (show s.pts ≤ u.pts by omega) (by omega) hlt
    have hadvance : ∀ s' : PtsUpdates, s'.pts = u.pts →
        s'.actions = s.actions ++ ([.processPtsUpdate u] ++ .setPts u.pts :: [.setValue u.promise]) →
        s'.Applied first ∧ applied s'.actions = applied s.actions ++ [u] := by
      intro s' hpts hactions
      exact h.advance (hpts ▸ hactions) (by rw [hbegin, hpts]; exact tiles_single u) (by omega) (by simp)
        (by simp [Quiet])
    refine ⟨[.processPtsUpdate u] ++ .setPts u.pts :: [.setValue u.promise], ?_, hadvance _ rfl rfl⟩
    rw [hset]
    simp [act, hacc, hsum, taken, show s.accumulatedPts ≠ -1 by omega]
  next hpos =>
    refine ⟨[.setValue u.promise], ?_, ?_⟩
    · simp [act, taken, show u.pts = s.pts by omega, show u.ptsCount = 0 by omega]
    · simpa using h.quiet (t := s.taken u [.setValue u.promise]) rfl (show u.pts = s.pts by omega) (by simp [Quiet])

/-- What the loop of `process_pending_pts_updates` leaves: updates were taken from the
beginning, as long as one began at the PTS. -/
structure Drained (first : Int) (s s' : PtsUpdates) (updates : List PendingPtsUpdate) : Prop where
  applied : s'.Applied first
  split : ∃ done, updates = done ++ s'.pending ∧
    Updates.applied s'.actions = Updates.applied s.actions ++ done.filter fun u => 0 < u.ptsCount
  waits : Waits s'.pts s'.pending
  count_eq : s'.accumulatedPtsCount = (s'.pending.map ptsCount).sum
  stops : ∀ u rest, s'.pending = u :: rest → s'.pts ≠ u.pts - u.ptsCount
  pts_le : s.pts ≤ s'.pts
  pts_lt : s.pts < maxValue → s'.pts < maxValue
  last_le : s'.pending = [] → ∀ u ∈ updates, u.pts ≤ s'.pts
  same : s'.accumulatedPts = s.accumulatedPts ∧ s'.runningGetDifference = s.runningGetDifference ∧
    s'.postponed = s.postponed ∧ s'.sessionCount = s.sessionCount

section

variable (h : s.Applied first) (hwaits : Waits s.pts updates)
    (hcount : s.accumulatedPtsCount = (updates.map ptsCount).sum)

include h hwaits hcount

theorem Drained.stop (hstops : ∀ u rest, updates = u :: rest → s.pts ≠ u.pts - u.ptsCount) :
    Drained first s { s with pending := updates } updates :=
  { applied := { h with }
    split := ⟨[], by simp⟩
    waits := hwaits
    count_eq := hcount
    stops := hstops
    pts_le := Int.le_refl _
    pts_lt := fun hlt => hlt
    last_le := by simp +contextual
    same := ⟨rfl, rfl, rfl, rfl⟩ }

theorem processPending_ok (hacc : ∀ u ∈ updates, u.pts ≤ s.accumulatedPts) :
    ∃ isApplied s', processPending updates s = .ok (isApplied, s') ∧ Drained first s s' updates := by
  induction updates generalizing s with
  | nil => exact ⟨false, _, rfl, .stop h hwaits hcount (by simp)⟩
  | cons u rest ih =>
    by_cases hbegin : s.pts = u.pts - u.ptsCount
    · have hnonneg := hwaits.count_nonneg u (by simp)
      have hlt := hwaits.lt_maxValue u (by simp)
      have hrest : 0 ≤ (rest.map ptsCount).sum :=
        sum_nonneg (by simpa using hwaits.tail.count_nonneg)
      rw [map_cons, sum_cons] at hcount
      obtain ⟨actions, hok, htaken, hactions⟩ := applyPending_ok h hbegin hnonneg hlt (hacc u (by simp)) (by omega)
      obtain ⟨_, s', hloop, hdrained⟩ := ih htaken (hwaits.advance hbegin)
        (show s.accumulatedPtsCount - u.ptsCount = _ by omega) fun v hv => hacc v (by simp [hv])
      obtain ⟨done, hsplit, hdone⟩ := hdrained.split
      have hle : u.pts ≤ s'.pts := hdrained.pts_le
      refine ⟨true, s', by simp [processPending, hbegin, hok, hloop], { hdrained with
        split := ⟨u :: done, by rw [hsplit]; rfl, ?_⟩, pts_le := by omega, pts_lt := fun _ => hdrained.pts_lt hlt
        last_le := ?_ }⟩
      · rw [hdone, hactions, filter_cons]
        split <;> simp_all
      · intro hnil
        exact forall_mem_cons.mpr ⟨hle, hdrained.last_le hnil⟩
    · refine ⟨false, _, by simp only [processPending, if_pos hbegin]; rfl, .stop h hwaits hcount ?_⟩
      intro v rest' heq
      obtain ⟨rfl, -⟩ := List.cons.inj heq
      exact hbegin

end

/-! ## One call -/

/-- What holds between the calls. While something waits, the totals are those of what
waits. -/
structure Inv (first : Int) (s : PtsUpdates) (received : List PendingPtsUpdate) : Prop where
  applied : s.Applied first
  idle : s.runningGetDifference = false
  pts_lt : s.pts < maxValue
  waits : Waits s.pts s.pending
  count_eq : s.accumulatedPtsCount = (s.pending.map ptsCount).sum
  acc_ge : ∀ u ∈ s.pending, u.pts ≤ s.accumulatedPts
  acc_mem : s.pending = [] ∧ s.accumulatedPts ≤ s.pts ∨ ∃ u ∈ s.pending, u.pts = s.accumulatedPts
  applied_mem : ∀ u ∈ Updates.applied s.actions, u ∈ received
  pending_mem : ∀ u ∈ s.pending, u ∈ received

variable {received : List PendingPtsUpdate}

/-- A call that does nothing to the updates that wait. -/
structure Ignored (s s' : PtsUpdates) : Prop where
  same : s'.pts = s.pts ∧ s'.runningGetDifference = s.runningGetDifference ∧ s'.pending = s.pending ∧
    s'.accumulatedPtsCount = s.accumulatedPtsCount ∧ s'.accumulatedPts = s.accumulatedPts
  actions : ∃ actions, s'.actions = s.actions ++ actions ∧ Quiet actions

theorem Ignored.inv (h : Ignored s s') (hinv : s.Inv first received) (u : PendingPtsUpdate) :
    s'.Inv first (received ++ [u]) := by
  obtain ⟨hpts, hrunning, hpending, hcount, hacc⟩ := h.same
  obtain ⟨actions, hactions, hquiet⟩ := h.actions
  obtain ⟨happlied, hsame⟩ := hinv.applied.quiet hactions hpts hquiet
  obtain ⟨-, hidle, hlt, hwaits, hcount', hge, hmem, hin, hin'⟩ := hinv
  refine ⟨happlied, ?_, ?_, ?_, ?_, ?_, ?_, ?_, ?_⟩ <;> grind

/-- A call that counts the update: it waits, or it is applied, alone or with others. -/
structure Advanced (first : Int) (s s' : PtsUpdates) (u : PendingPtsUpdate) : Prop where
  applied : s'.Applied first
  pts_lt : s'.pts < maxValue
  split : ∃ done chosen, insertUpdate u s.pending = done ++ s'.pending ∧
    Updates.applied s'.actions = Updates.applied s.actions ++ chosen ∧
    (∀ v ∈ chosen, v ∈ done) ∧ ∀ v ∈ done, 0 < v.ptsCount → v ∈ chosen
  waits : Waits s'.pts s'.pending
  count_eq : s'.accumulatedPtsCount = (s'.pending.map ptsCount).sum
  acc : s'.pending = [] ∧ s'.accumulatedPts ≤ s'.pts ∨
    s'.accumulatedPts = (s.accumulate u).accumulatedPts ∧ ∃ v ∈ s'.pending, v.pts = s'.accumulatedPts
  stops : s'.pending = insertUpdate u s.pending ∧ s'.pts = s.pts ∧ s.pts ≠ u.pts - u.ptsCount ∨
    ∀ v rest, s'.pending = v :: rest → s'.pts ≠ v.pts - v.ptsCount
  same : s'.runningGetDifference = s.runningGetDifference ∧ s'.postponed = s.postponed

/-- The updates that wait, with one more. -/
structure Counted (s : PtsUpdates) (u : PendingPtsUpdate) : Prop where
  waits : Waits s.pts (insertUpdate u s.pending)
  count_eq : (s.accumulate u).accumulatedPtsCount =
    ((insertUpdate u s.pending).map ptsCount).sum
  acc_ge : ∀ v ∈ insertUpdate u s.pending, v.pts ≤ (s.accumulate u).accumulatedPts
  acc_mem : ∃ v ∈ insertUpdate u s.pending, v.pts = (s.accumulate u).accumulatedPts

theorem Inv.counted (h : s.Inv first received) (hdisjoint : ∀ v ∈ s.pending, Disjoint u.interval v.interval)
    (hlt : u.pts < maxValue) (hcount : 0 ≤ u.ptsCount) (hbehind : s.pts ≤ u.pts - u.ptsCount)
    (hnew : s.pts < u.pts) : s.Counted u := by
  have hperm := perm_insertUpdate u s.pending
  have hwaits := h.waits
  have hacc : (s.accumulate u).accumulatedPts = max s.accumulatedPts u.pts := by
    show (if s.accumulatedPts < u.pts then u.pts else s.accumulatedPts) = _
    split <;> omega
  refine ⟨⟨ordered_insertUpdate hwaits.ordered, ?_, by simpa using ⟨hcount, hwaits.count_nonneg⟩,
    by simpa using ⟨hbehind, hwaits.behind⟩, by simpa using ⟨hlt, hwaits.lt_maxValue⟩⟩, ?_, ?_, ?_⟩
  · rw [hperm.pairwise_iff (by intro a b hab; exact hab.symm), pairwise_cons]
    exact ⟨hdisjoint, hwaits.disjoint⟩
  · rw [(hperm.map _).sum_eq, map_cons, sum_cons, ← h.count_eq, Int.add_comm]
    rfl
  · intro v hv
    have := h.acc_ge v
    grind
  · have := h.acc_mem
    grind

theorem Counted.pts_lt_acc (h : s.Counted u) (hnew : s.pts < u.pts) : s.pts < (s.accumulate u).accumulatedPts := by
  have := h.acc_ge u (by simp)
  omega

theorem Counted.acc_lt (h : s.Counted u) : (s.accumulate u).accumulatedPts < maxValue := by
  obtain ⟨v, hv, heq⟩ := h.acc_mem
  rw [← heq]
  exact h.waits.lt_maxValue v hv

/-- The totals never say that more was seen than is between the PTS and the greatest one. -/
theorem Counted.count_le (h : s.Counted u) (hnew : s.pts < u.pts) :
    (s.accumulate u).accumulatedPtsCount ≤ (s.accumulate u).accumulatedPts - s.pts := by
  rw [h.count_eq]
  exact sum_count_le h.waits.disjoint h.waits.count_nonneg h.waits.behind h.acc_ge (Int.le_of_lt (h.pts_lt_acc hnew))

/-- If they say that as much was seen, all that is between was seen. -/
theorem Counted.tiles (h : s.Counted u)
    (heq : s.pts = (s.accumulate u).accumulatedPts - (s.accumulate u).accumulatedPtsCount) :
    Tiles s.pts (s.accumulate u).accumulatedPts (insertUpdate u s.pending) := by
  refine tiles_of_sum_count h.waits.disjoint h.waits.count_nonneg h.waits.behind h.acc_ge ?_
  rw [← h.count_eq]
  omega

theorem Applied.emptied (h : s'.Applied first) (hlt : s'.pts < maxValue)
    (hall : Updates.applied s'.actions = Updates.applied s.actions ++ insertUpdate u s.pending)
    (hsame : s'.pending = [] ∧ s'.accumulatedPtsCount = 0 ∧ s'.accumulatedPts = -1 ∧
      s'.runningGetDifference = s.runningGetDifference ∧ s'.postponed = s.postponed) : Advanced first s s' u := by
  have hone := h.one_le
  have hle := h.le_pts
  obtain ⟨hpending, hcount, hacc, hrunning, hpostponed⟩ := hsame
  refine ⟨h, hlt, ⟨_, _, by rw [hpending, append_nil], hall, fun _ hv => hv, fun _ hv _ => hv⟩, ?_, ?_,
    .inl ⟨hpending, by omega⟩,
    .inr ?_, hrunning, hpostponed⟩
  · rw [hpending]
    exact ⟨.nil, .nil, by simp, by simp, by simp⟩
  · simp [hpending, hcount]
  · simp [hpending]

/-- The manager with one more update that waits. -/
def queued (s : PtsUpdates) (u : PendingPtsUpdate) : PtsUpdates :=
  { s with
    pending := insertUpdate u s.pending
    accumulatedPtsCount := (s.accumulate u).accumulatedPtsCount
    accumulatedPts := (s.accumulate u).accumulatedPts }

theorem processAll_eq (updates : List PendingPtsUpdate) (s : PtsUpdates) :
    ∃ actions, processAll updates s = { s with actions := s.actions ++ actions } ∧ applied actions = updates ∧
      ∀ a ∈ actions, ∀ pts, a ≠ .setPts pts := by
  induction updates generalizing s with
  | nil => exact ⟨[], by simp [processAll], rfl, by simp⟩
  | cons u updates ih =>
    obtain ⟨actions, heq, happlied, hsets⟩ := ih ((s.act (.processPtsUpdate u)).act (.setValue u.promise))
    simp_all [processAll, act, applied]

section

variable (h : s.Counted u) (happlied : s.Applied first)

include h happlied

/-- The totals meet: everything that waits is applied. -/
theorem Counted.all (hnew : s.pts < u.pts)
    (heq : s.pts = (s.accumulate u).accumulatedPts - (s.accumulate u).accumulatedPtsCount) :
    Advanced first s (s.queued u).processAllPendingPtsUpdates u := by
  have hone := happlied.one_le
  have hle := happlied.le_pts
  have hlt := h.pts_lt_acc hnew
  obtain ⟨actions, hall, hactions, hsets⟩ := processAll_eq (s.queued u).pending (s.queued u)
  have hset := setPts_eq (s := { s.queued u with actions := s.actions ++ actions }) (Int.le_of_lt hlt)
    (show 0 < (s.accumulate u).accumulatedPts by omega) h.acc_lt
  have hresult : (s.queued u).processAllPendingPtsUpdates = { s with
      pts := (s.accumulate u).accumulatedPts, pending := [], accumulatedPtsCount := 0, accumulatedPts := -1
      hasPtsGapTimeout := false
      actions := s.actions ++ (actions ++ [.setPts (s.accumulate u).accumulatedPts]) } := by
    simp_all [processAllPendingPtsUpdates, dropAllPendingPtsUpdates, queued]
  rw [hresult]
  have hquiet : Quiet [] := by simp [Quiet]
  obtain ⟨happlied', hsame⟩ := happlied.advance (t := { s with
      pts := (s.accumulate u).accumulatedPts, pending := [], accumulatedPtsCount := 0, accumulatedPts := -1
      hasPtsGapTimeout := false
      actions := s.actions ++ (actions ++ [.setPts (s.accumulate u).accumulatedPts]) }) rfl
    (hactions ▸ h.tiles heq) (Int.le_of_lt hlt) hsets hquiet
  exact happlied'.emptied h.acc_lt (hsame.trans (congrArg _ hactions)) ⟨rfl, rfl, rfl, rfl, rfl⟩

theorem Counted.some (hlt : s.pts < maxValue) :
    ∃ s', (s.queued u).processPendingPtsUpdates = .ok s' ∧ Advanced first s s' u := by
  have happlied' : (s.queued u).Applied first := { happlied with }
  obtain ⟨isApplied, t, hloop, hdrained⟩ := processPending_ok happlied' h.waits h.count_eq h.acc_ge
  obtain ⟨done, hsplit, hactions⟩ := hdrained.split
  obtain ⟨hmax, hrunning, hpostponed, -⟩ := hdrained.same
  -- The greatest PTS is that of the last update, so that it waits unless nothing does.
  have hrest : t.pending = [] ∧ t.accumulatedPts ≤ t.pts ∨
      t.accumulatedPts = (s.accumulate u).accumulatedPts ∧ ∃ v ∈ t.pending, v.pts = t.accumulatedPts := by
    obtain ⟨v, hv, heq⟩ := h.acc_mem
    have hmax' : t.accumulatedPts = (s.accumulate u).accumulatedPts := hmax
    cases hpending : t.pending with
    | nil =>
      have hle := hdrained.last_le hpending v hv
      exact .inl ⟨rfl, by omega⟩
    | cons w rest =>
      refine .inr ⟨hmax', ?_⟩
      have hordered := h.waits.ordered
      have hge := h.acc_ge w
      rw [hsplit, hpending] at hordered hv hge
      rcases mem_append.mp hv with hdone | hrest
      · have hbefore := before_eq_false_iff.mp ((pairwise_append.mp hordered).2.2 v hdone w (by simp))
        have hge := hge (by simp)
        exact ⟨w, by simp, by omega⟩
      · exact ⟨v, hrest, by omega⟩
  have hadvanced : ∀ hasTimeout : Bool, Advanced first s { t with hasPtsGapTimeout := hasTimeout } u := fun _ =>
    { applied := { hdrained.applied with }
      pts_lt := hdrained.pts_lt hlt
      split := ⟨done, done.filter fun u => 0 < u.ptsCount, hsplit, hactions, by simp +contextual, by simp +contextual⟩
      waits := hdrained.waits
      count_eq := hdrained.count_eq
      acc := hrest
      stops := .inr hdrained.stops
      same := ⟨hrunning, hpostponed⟩ }
  have hloop' : processPending (s.queued u).pending (s.queued u) = .ok (isApplied, t) := hloop
  have hkept : Advanced first s t u := hadvanced t.hasPtsGapTimeout
  rw [processPendingPtsUpdates, hloop', ok_bind]
  refine ⟨_, rfl, ?_⟩
  split <;> split
  · exact hadvanced true
  · exact hadvanced false
  · exact hadvanced true
  · exact hkept

theorem Counted.waiting (hlt : s.pts < maxValue)
    (hbegin : s.pts ≠ u.pts - u.ptsCount) : Advanced first s (s.queued u).setPtsGapTimeout u :=
  { applied := { happlied with }
    pts_lt := hlt
    split := ⟨[], [], rfl, (append_nil _).symm, by simp, by simp⟩
    waits := h.waits
    count_eq := h.count_eq
    acc := .inr ⟨rfl, h.acc_mem⟩
    stops := .inl ⟨rfl, rfl, hbegin⟩
    same := ⟨rfl, rfl⟩ }

/-- An update that is counted: no assertion fails, and it is not postponed. -/
theorem Counted.addCounted (hlt : s.pts < maxValue)
    (hnew : s.pts < u.pts) (hinv : s.pending = [] → s.accumulatedPts ≤ s.pts ∧ s.accumulatedPtsCount = 0) :
    ∃ s', (s.accumulate u).addCounted u = .ok s' ∧ Advanced first s s' u := by
  have hle := h.count_le hnew
  have hone := happlied.one_le
  have hfirst := happlied.le_pts
  have hpts : (s.accumulate u).pts = s.pts := rfl
  rw [PtsUpdates.addCounted, if_neg (by omega)]
  split
  next hfast =>
    obtain ⟨hnil, heq, -⟩ := hfast
    have hnil' : s.pending = [] := hnil
    obtain ⟨hold, hzero⟩ := hinv hnil'
    have hacc : (s.accumulate u).accumulatedPts = u.pts := if_pos (by omega)
    have hcount : (s.accumulate u).accumulatedPtsCount = u.ptsCount := by
      show s.accumulatedPtsCount + u.ptsCount = _
      omega
    rw [hacc, hcount, hpts] at heq
    rw [if_pos (by omega)]
    have hlt' := h.waits.lt_maxValue u (by simp)
    have hset := setPts_eq (s := (s.accumulate u).act (.processPtsUpdate u)) (show s.pts ≤ u.pts by omega) (by omega)
      hlt'
    rw [hacc, hset]
    refine ⟨_, rfl, ?_⟩
    have hadvance := happlied.advance (t := { s with
      pts := u.pts, accumulatedPtsCount := 0, accumulatedPts := -1
      actions := s.actions ++ ([.processPtsUpdate u] ++ .setPts u.pts :: [.setValue u.promise]) }) rfl
      (by rw [heq]; exact tiles_single u) (show s.pts ≤ u.pts by omega) (by simp) (by simp [Quiet])
    simp only [act, append_assoc, cons_append, nil_append] at hadvance ⊢
    exact hadvance.1.emptied hlt' (by rw [hnil']; exact hadvance.2) ⟨hnil', rfl, rfl, rfl, rfl⟩
  next =>
    rw [addToPending]
    split
    next =>
      split
      next => exact h.some happlied hlt
      next hbegin => exact ⟨_, rfl, h.waiting happlied hlt hbegin⟩
    next hmeet =>
      have heq : s.pts = (s.accumulate u).accumulatedPts - (s.accumulate u).accumulatedPtsCount := by
        have hmeet' : ¬ s.pts < (s.accumulate u).accumulatedPts - (s.accumulate u).accumulatedPtsCount := hmeet
        omega
      rw [check_true (by exact heq)]
      exact ⟨_, rfl, h.all happlied hnew heq⟩

end

theorem Ignored.of_quiet (h : Ignored s s')
    (hsame : t.pts = s'.pts ∧ t.runningGetDifference = s'.runningGetDifference ∧ t.pending = s'.pending ∧
    t.accumulatedPtsCount = s'.accumulatedPtsCount ∧ t.accumulatedPts = s'.accumulatedPts)
    (hactions : t.actions = s'.actions ++ actions) (hquiet : Quiet actions) : Ignored s t := by
  obtain ⟨hs, actions', hactions', hquiet'⟩ := h
  refine ⟨by grind, actions' ++ actions, by rw [hactions, hactions', append_assoc], ?_⟩
  exact forall_mem_append.mpr ⟨hquiet', hquiet⟩

theorem Ignored.setValue (h : Ignored s s') (promise : Nat) : Ignored s (s'.act (.setValue promise)) :=
  h.of_quiet ⟨rfl, rfl, rfl, rfl, rfl⟩ rfl (by simp [Quiet])

theorem Ignored.timeout (h : Ignored s s') : Ignored s s'.setPtsGapTimeout :=
  h.of_quiet ⟨rfl, rfl, rfl, rfl, rfl⟩ (append_nil _).symm (by simp [Quiet])

theorem Ignored.refl (s : PtsUpdates) : Ignored s s :=
  ⟨⟨rfl, rfl, rfl, rfl, rfl⟩, [], by simp, by simp [Quiet]⟩

theorem ignored_skip (s : PtsUpdates) (u : PendingPtsUpdate) : Ignored s (s.act (.skipOldPendingPtsUpdate u)) :=
  (Ignored.refl s).of_quiet ⟨rfl, rfl, rfl, rfl, rfl⟩ rfl (by simp [Quiet])

theorem ignored_postponePtsUpdate (s : PtsUpdates) (u : PendingPtsUpdate) : Ignored s (s.postponePtsUpdate u) := by
  have hcan : Ignored s s.canPostponeUpdates.2 := by
    rw [canPostponeUpdates]
    split
    · exact .refl s
    · exact { Ignored.refl s with }
  rw [postponePtsUpdate]
  dsimp only
  split
  · exact hcan.setValue u.promise
  · exact { hcan with }

/-- Why a call does nothing to the updates that wait, and postpones nothing. -/
def Skips (s : PtsUpdates) (u : PendingPtsUpdate) (source : Source) : Prop :=
  u.ptsCount < 0 ∨ u.pts ≤ u.ptsCount ∨ u.update.isPtsUpdate = false ∨ u.pts ≤ s.pts ∨
    source = .afterGetDifference ∧ s.pts < u.pts - maxPostponedDistance

/-- Why an update is postponed. -/
def Postpones (s : PtsUpdates) (u : PendingPtsUpdate) (source : Source) : Prop :=
  s.postponed ≠ [] ∨ source = .afterGetDifference ∧ u.update.isAcceptable = false ∨
    s.pts < u.pts ∧ u.pts - u.ptsCount < s.pts

section

variable (h : s.Inv first received) (hdisjoint : ∀ v ∈ s.pending, Disjoint u.interval v.interval)
    (hlt : u.pts < maxValue)

include h hdisjoint hlt

theorem addNew_cases (hcount : 0 ≤ u.ptsCount) (hnew : s.pts < u.pts) (source : Source) :
    ∃ s', s.addNew u source = .ok s' ∧ (Ignored s s' ∧ s.Postpones u source ∨ Advanced first s s' u ∧ s.Counted u) := by
  have hpostpone := ignored_postponePtsUpdate s u
  have hpostpone' := hpostpone.timeout
  unfold addNew
  split
  next hpostponed =>
    rw [h.idle] at hpostponed
    exact ⟨_, rfl, .inl ⟨hpostpone, .inl (hpostponed.resolve_left Bool.false_ne_true)⟩⟩
  next =>
    split
    next hunacceptable => exact ⟨_, rfl, .inl ⟨hpostpone', .inr (.inl hunacceptable)⟩⟩
    next =>
      split
      next hmeets => exact ⟨_, rfl, .inl ⟨hpostpone', .inr (.inr ⟨hnew, hmeets⟩)⟩⟩
      next hbehind =>
        have hcounted := h.counted hdisjoint hlt hcount (by omega) hnew
        have hnil : s.pending = [] → s.accumulatedPts ≤ s.pts ∧ s.accumulatedPtsCount = 0 := by
          intro hnil
          have hsum := h.count_eq
          rw [hnil] at hsum
          rcases h.acc_mem with ⟨-, hle⟩ | ⟨v, hv, -⟩
          · exact ⟨hle, hsum⟩
          · rw [hnil] at hv
            cases hv
        obtain ⟨s', hok, hadvanced⟩ := hcounted.addCounted h.applied h.pts_lt hnew hnil
        exact ⟨s', hok, .inr ⟨hadvanced, hcounted⟩⟩

/-- An update that passed the first checks, after the timer may have been set. -/
theorem addAfterTimer_cases (hcount : 0 ≤ u.ptsCount) (source : Source) :
    ∃ s', (if u.pts ≤ s.pts ∨ (1 ≤ s.pts ∧ s.pts < u.pts - oldPtsDistance) then
          pure ((s.act (.skipOldPendingPtsUpdate u)).act (.setValue u.promise))
        else if source = .afterGetDifference ∧ 1 ≤ s.pts ∧ s.pts < u.pts - maxPostponedDistance then
          pure (s.act (.setValue u.promise))
        else s.addNew u source) = .ok s' ∧
      (Ignored s s' ∧ (s.Skips u source ∧ s'.postponed = s.postponed ∨ s.Postpones u source) ∨
        Advanced first s s' u ∧ s.Counted u) := by
  split
  next hold =>
    have hold' : u.pts ≤ s.pts := by
      rw [maxValue] at hlt
      rw [oldPtsDistance] at hold
      omega
    exact ⟨_, rfl, .inl ⟨(ignored_skip s u).setValue _, .inl ⟨.inr (.inr (.inr (.inl hold'))), rfl⟩⟩⟩
  next hnew =>
    split
    next hfar =>
      exact ⟨_, rfl, .inl ⟨(Ignored.refl s).setValue _,
        .inl ⟨.inr (.inr (.inr (.inr ⟨hfar.1, hfar.2.2⟩))), rfl⟩⟩⟩
    next =>
      have hnew' : s.pts < u.pts := by omega
      obtain ⟨s', hok, ⟨hignored, hwhy⟩ | hadvanced⟩ := addNew_cases h hdisjoint hlt hcount hnew' source
      · exact ⟨s', hok, .inl ⟨hignored, .inr hwhy⟩⟩
      · exact ⟨s', hok, .inr hadvanced⟩

/-- **What a call can do**, unless the update waits already: it ignores the update, or
counts it. No assertion fails. -/
theorem addPendingPtsUpdate_cases (source : Source) : ∃ s', s.addPendingPtsUpdate u source = .ok s' ∧
      (Ignored s s' ∧ (s.Skips u source ∧ s'.postponed = s.postponed ∨ s.Postpones u source) ∨
        Advanced first s s' u ∧ s.Counted u) := by
  unfold addPendingPtsUpdate
  split
  next hwrong => exact ⟨_, rfl, .inl ⟨(Ignored.refl s).setValue _, .inl ⟨hwrong.imp_right .inl, rfl⟩⟩⟩
  next hvalues =>
    split
    next hkind => exact ⟨_, rfl, .inl ⟨(Ignored.refl s).setValue _, .inl ⟨.inr (.inr (.inl hkind)), rfl⟩⟩⟩
    next =>
      have hmax : s.pts < 1073741824 := h.pts_lt
      have hcount : 0 ≤ u.ptsCount := by omega
      unfold addChecked
      rw [if_neg (by omega)]
      split
      · have htimer : s.setPtsGapTimeout.Inv first received := { h with applied := { h.applied with } }
        obtain ⟨s', hok, ⟨hignored, hwhy⟩ | hadvanced⟩ := addAfterTimer_cases htimer hdisjoint hlt hcount source
        · exact ⟨s', hok, .inl ⟨{ hignored with }, hwhy⟩⟩
        · exact ⟨s', hok, .inr ⟨{ hadvanced.1 with }, { hadvanced.2 with }⟩⟩
      · exact addAfterTimer_cases h hdisjoint hlt hcount source

end

/-- **One call** keeps the invariant. -/
theorem Advanced.inv (h : Advanced first s s' u) (hinv : s.Inv first received)
    (hcounted : s.Counted u) : s'.Inv first (received ++ [u]) := by
  obtain ⟨done, chosen, hsplit, happlied, hchosen, -⟩ := h.split
  have hmem : ∀ v ∈ insertUpdate u s.pending, v ∈ received ++ [u] := by
    intro v hv
    rcases mem_insertUpdate.mp hv with rfl | hv
    · simp
    · exact mem_append_left _ (hinv.pending_mem v hv)
  have hpending : ∀ v ∈ s'.pending, v ∈ insertUpdate u s.pending := by
    intro v hv
    simp [hsplit, hv]
  exact
    { applied := h.applied
      idle := h.same.1.trans hinv.idle
      pts_lt := h.pts_lt
      waits := h.waits
      count_eq := h.count_eq
      acc_ge := by
        intro v hv
        rcases h.acc with ⟨hnil, -⟩ | ⟨hacc, -⟩
        · rw [hnil] at hv
          cases hv
        · rw [hacc]
          exact hcounted.acc_ge v (hpending v hv)
      acc_mem := h.acc.imp_right And.right
      applied_mem := by
        intro v hv
        rw [happlied] at hv
        rcases mem_append.mp hv with hold | hnew
        · exact mem_append_left _ (hinv.applied_mem v hold)
        · simp_all
      pending_mem := fun v hv => hmem v (hpending v hv) }

end PtsUpdates

end Tdlib.Updates
