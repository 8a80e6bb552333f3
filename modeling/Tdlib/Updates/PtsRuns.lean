/-
Runs of `add_pending_pts_update`. Updates that do not meet are applied once each, the
PTS is set only to where they reach without a gap, and it does get there
(`pts_updates_applied`).

A copy of an update that still waits is counted again, so that the totals can meet
over a gap: the PTS then passes updates that never came (`copies_fill_gap`). As long as
no copy comes while the update waits, it passes none (`pts_updates_covered`).
-/
import Tdlib.Updates.PtsTiling

namespace Tdlib.Updates

open PendingPtsUpdate
open List hiding Disjoint
open Outcome

/-- The same piece of the PTS. -/
def PendingPtsUpdate.IsCopyOf (u v : PendingPtsUpdate) : Prop := u.pts = v.pts ∧ u.ptsCount = v.ptsCount

instance (u v : PendingPtsUpdate) : Decidable (u.IsCopyOf v) := instDecidableAnd

namespace PtsUpdates

variable {first : Int} {s s' : PtsUpdates} {u v : PendingPtsUpdate} {received : List PendingPtsUpdate}

/-- A manager before the first call: nothing waits. -/
structure Starts (first : Int) (s : PtsUpdates) : Prop where
  pts_eq : s.pts = first
  one_le : 1 ≤ first
  lt_maxValue : first < maxValue
  idle : s.runningGetDifference = false
  pending : s.pending = []
  count : s.accumulatedPtsCount = 0
  acc : s.accumulatedPts = -1
  actions : s.actions = []

/-- The manager of a client that has just started. -/
def fresh (pts : Int) : PtsUpdates :=
  { pts := pts
    runningGetDifference := false
    pending := []
    postponed := []
    accumulatedPtsCount := 0
    accumulatedPts := -1
    hasPtsGapTimeout := false
    skippedPostponedUpdatesAfterStart := 50000
    sessionCount := 1
    actions := [] }

theorem starts_fresh {pts : Int} (hone : 1 ≤ pts) (hlt : pts < maxValue) : (fresh pts).Starts pts :=
  ⟨rfl, hone, hlt, rfl, rfl, rfl, rfl, rfl⟩

theorem Starts.inv (h : s.Starts first) : s.Inv first [] := by
  have hpts := h.pts_eq
  have hone := h.one_le
  have hacc := h.acc
  exact
    { applied :=
        { one_le := hone
          le_pts := by omega
          tiles := by
            rw [h.actions, hpts]
            exact tiles_nil first
          sets := by
            rw [h.actions]
            trivial }
      idle := h.idle
      pts_lt := by rw [hpts]; exact h.lt_maxValue
      waits := by
        rw [h.pending]
        exact ⟨List.Pairwise.nil, List.Pairwise.nil, by simp, by simp, by simp⟩
      count_eq := by rw [h.count, h.pending]; rfl
      acc_ge := by simp [h.pending]
      acc_mem := .inl ⟨h.pending, by omega⟩
      applied_mem := by simp [h.actions, Updates.applied]
      pending_mem := by simp [h.pending] }

/-- What holds at every call of a run. -/
def AtCalls (p : PtsUpdates → PendingPtsUpdate → Source → Prop) :
    List (PendingPtsUpdate × Source) → PtsUpdates → Prop
  | [], _ => True
  | (u, source) :: calls, s => p s u source ∧ ∀ s', s.addPendingPtsUpdate u source = .ok s' → AtCalls p calls s'

variable {p : PtsUpdates → PendingPtsUpdate → Source → Prop} {calls : List (PendingPtsUpdate × Source)}
variable {source : Source} {updates more : List PendingPtsUpdate}

theorem atCalls_cons (hcall : p s u source) (hok : s.addPendingPtsUpdate u source = .ok s')
    (h : AtCalls p calls s') : AtCalls p ((u, source) :: calls) s := by
  refine ⟨hcall, ?_⟩
  intro t ht
  rw [hok] at ht
  injection ht with ht
  rwa [← ht]

/-- No copy of the update waits. -/
def Fresh (s : PtsUpdates) (u : PendingPtsUpdate) (_ : Source) : Prop :=
  0 < u.ptsCount → ∀ v ∈ s.pending, ¬ u.IsCopyOf v

instance (s : PtsUpdates) (u : PendingPtsUpdate) (source : Source) : Decidable (s.Fresh u source) :=
  inferInstanceAs (Decidable (_ → _))

theorem disjoint_of_count_le (h : u.ptsCount ≤ 0) (v : PendingPtsUpdate) : Disjoint u.interval v.interval := by
  rw [Finset.disjoint_left]
  intro x hx
  rw [mem_interval] at hx
  omega

/-- **Runs** keep what each call keeps, as long as what was received is admitted. -/
theorem run_ok {P : PtsUpdates → List PendingPtsUpdate → Prop} {R : List PendingPtsUpdate → Prop}
    (hcall : ∀ {s received u source}, P s received → R (received ++ [u]) → p s u source →
      ∃ s', addPendingPtsUpdate s u source = .ok s' ∧ P s' (received ++ [u]))
    (hbefore : ∀ l more, R (l ++ more) → R l) (h : P s received) (hreceived : R (received ++ calls.map Prod.fst))
    (hcalls : AtCalls p calls s) : ∃ s', run calls s = .ok s' ∧ P s' (received ++ calls.map Prod.fst) := by
  induction calls generalizing s received with
  | nil => exact ⟨s, rfl, by simpa using h⟩
  | cons call calls ih =>
    rw [map_cons, append_cons] at hreceived ⊢
    obtain ⟨s1, hok, h1⟩ := hcall h (hbefore _ _ hreceived) hcalls.1
    obtain ⟨s', hrun, h'⟩ := ih h1 hreceived (hcalls.2 s1 hok)
    exact ⟨s', by rw [run, hok, ok_bind, hrun], h'⟩

/-- Updates that are the same or do not meet. -/
def Apart (updates : List PendingPtsUpdate) : Prop :=
  ∀ u ∈ updates, u.pts < maxValue ∧ ∀ v ∈ updates, u.IsCopyOf v ∨ Disjoint u.interval v.interval

instance (updates : List PendingPtsUpdate) : Decidable (Apart updates) :=
  inferInstanceAs (Decidable (∀ u ∈ updates, _ ∧ ∀ v ∈ updates, _))

/-- **One call** keeps the invariant, unless a copy of the update waits. -/
theorem Inv.call (h : s.Inv first received) (hapart : Apart (received ++ [u]))
    (hfresh : s.Fresh u source) : ∃ s', s.addPendingPtsUpdate u source = .ok s' ∧ s'.Inv first (received ++ [u]) := by
  obtain ⟨hlt, hu⟩ := hapart u (by simp)
  have hdisjoint : ∀ v ∈ s.pending, Disjoint u.interval v.interval := by
    intro v hv
    by_cases hpos : 0 < u.ptsCount
    · exact (hu v (by simp [h.pending_mem v hv])).resolve_left (hfresh hpos v hv)
    · exact disjoint_of_count_le (by omega) v
  obtain ⟨s', hok, ⟨hignored, -⟩ | ⟨hadvanced, hcounted⟩⟩ := addPendingPtsUpdate_cases h hdisjoint hlt source
  · exact ⟨s', hok, hignored.inv h u⟩
  · exact ⟨s', hok, hadvanced.inv h hcounted⟩

theorem Inv.covered (h : s.Inv first received) {x : Int} (hfirst : first < x) (hle : x ≤ s.pts) :
    ∃ u ∈ received, x ∈ u.interval := by
  have hx : x ∈ Cover.cover interval (Updates.applied s.actions) := by
    rw [h.applied.tiles.2]
    exact Finset.mem_Ioc.mpr ⟨hfirst, hle⟩
  obtain ⟨u, hu, hxu⟩ := Cover.mem_cover.mp hx
  exact ⟨u, h.applied_mem u hu, hxu⟩

/-- **The PTS passes no update that has not come**, in every run of calls with updates that
do not meet, any of which may come again when no copy of it waits. -/
theorem pts_updates_covered {calls : List (PendingPtsUpdate × Source)} (hstart : s.Starts first)
    (hupdates : Apart (calls.map Prod.fst)) (hfresh : AtCalls Fresh calls s) :
    ∃ s', run calls s = .ok s' ∧ ∀ x, first < x → x ≤ s'.pts → ∃ u ∈ calls.map Prod.fst, x ∈ u.interval := by
  obtain ⟨s', hrun, hinv⟩ := run_ok (P := fun s received => s.Inv first received) Inv.call
    (fun l more h u hu => ⟨(h u (by simp [hu])).1, fun v hv => (h u (by simp [hu])).2 v (by simp [hv])⟩)
    hstart.inv hupdates hfresh
  exact ⟨s', hrun, fun x hfirst hle => hinv.covered hfirst hle⟩

/-- A PTS update that brings the PTS to `pts`. -/
def ptsUpdate (pts ptsCount : Int) : PendingPtsUpdate :=
  { update := { id := 0, isPtsUpdate := true, isAcceptable := true }, pts := pts, ptsCount := ptsCount, promise := 0 }

/-- A copy that comes when the update was applied is old. -/
theorem pts_updates_covered_again :
    ∃ s', run [(ptsUpdate 3 1, .other), (ptsUpdate 2 1, .other), (ptsUpdate 3 1, .other)] (fresh 1) = .ok s' ∧
      ∀ x, 1 < x → x ≤ s'.pts → ∃ u ∈ [ptsUpdate 3 1, ptsUpdate 2 1, ptsUpdate 3 1], x ∈ u.interval := by
  refine pts_updates_covered (starts_fresh (by decide) (by decide)) (by decide) ?_
  refine atCalls_cons (by decide) rfl ?_
  refine atCalls_cons (by decide) rfl ?_
  exact atCalls_cons (by decide) rfl trivial

/-- The update to 5 comes four times: the counts of its copies fill the gap from 1, and
the PTS passes 2, 3 and 4, which no update brought. -/
theorem copies_fill_gap : (fresh 1).Starts 1 ∧
      ∃ s', run (List.replicate 4 (ptsUpdate 5 1, .other)) (fresh 1) = .ok s' ∧ s'.pts = 5 ∧
        ∀ u ∈ (List.replicate 4 (ptsUpdate 5 1, Source.other)).map Prod.fst, 2 ∉ u.interval :=
  ⟨starts_fresh (by decide) (by decide), _, rfl, by decide, by decide⟩

/-! ## Updates that do not meet -/

/-- No update of count zero is strictly inside another. -/
def NoneInside (updates : List PendingPtsUpdate) : Prop :=
  ∀ u ∈ updates, ∀ v ∈ updates, u.ptsCount = 0 → ¬ (v.pts - v.ptsCount < u.pts ∧ u.pts < v.pts)

instance (updates : List PendingPtsUpdate) : Decidable (NoneInside updates) :=
  inferInstanceAs (Decidable (∀ u ∈ updates, ∀ v ∈ updates, _ → ¬ _))

/-- What holds between calls with updates that do not meet: all are kept, and none that
waits begins at the PTS. -/
structure Ready (first : Int) (s : PtsUpdates) (received : List PendingPtsUpdate) : Prop where
  inv : s.Inv first received
  postponed : s.postponed = []
  kept : ∀ u ∈ received, 0 < u.ptsCount → u ∈ applied s.actions ∨ u ∈ s.pending
  stuck : ∀ u ∈ s.pending, 0 < u.ptsCount → s.pts ≠ u.pts - u.ptsCount

/-- A PTS update that brings nothing the PTS began with. -/
structure Good (first : Int) (u : PendingPtsUpdate) : Prop where
  isPtsUpdate : u.update.isPtsUpdate = true
  above : 0 < u.ptsCount → first ≤ u.pts - u.ptsCount
  lt_maxValue : u.pts < maxValue

/-- An update from getDifference is acceptable, and not far ahead of the PTS. -/
def Near (s : PtsUpdates) (u : PendingPtsUpdate) (source : Source) : Prop :=
  source = .afterGetDifference → u.update.isAcceptable = true ∧ u.pts - maxPostponedDistance ≤ s.pts

instance (s : PtsUpdates) (u : PendingPtsUpdate) (source : Source) : Decidable (s.Near u source) :=
  inferInstanceAs (Decidable (_ → _ ∧ _))

section

variable (h : s.Inv first received) (hgood : Good first u) (hpos : 0 < u.ptsCount)
    (hdisjoint : ∀ v ∈ received, Disjoint u.interval v.interval)

include h hgood hpos hdisjoint

theorem Inv.behind : s.pts ≤ u.pts - u.ptsCount := by
  by_contra hlt
  have habove := hgood.above hpos
  -- the first number of the update would be among those applied
  obtain ⟨v, hv, hx⟩ := h.covered (x := u.pts - u.ptsCount + 1) (by omega) (by omega)
  have hu : u.pts - u.ptsCount + 1 ∈ u.interval := mem_interval.mpr ⟨by omega, by omega⟩
  exact Finset.disjoint_left.mp (hdisjoint v hv) hu hx

theorem Inv.not_skips (hnear : s.Near u source) : ¬ s.Skips u source := by
  have hbehind := h.behind hgood hpos hdisjoint
  have hone := h.applied.one_le
  have hle := h.applied.le_pts
  rintro (hneg | hsmall | hkind | hold | ⟨hsource, hfar⟩)
  · omega
  · omega
  · rw [hgood.isPtsUpdate] at hkind
    cases hkind
  · omega
  · have := (hnear hsource).2
    omega

end

theorem Ready.not_postpones (h : s.Ready first received) (hgood : Good first u)
    (hdisjoint : ∀ v ∈ received, Disjoint u.interval v.interval) (hnear : s.Near u source) :
    ¬ s.Postpones u source := by
  rintro (hpostponed | ⟨hsource, hunacceptable⟩ | ⟨hnew, hmeets⟩)
  · exact hpostponed h.postponed
  · rw [(hnear hsource).1] at hunacceptable
    cases hunacceptable
  · have := h.inv.behind hgood (by omega) hdisjoint
    omega

/-- The first of the updates that wait begins at the PTS if any does: one before it would
meet that one, or be of count zero inside it. -/
theorem stuck_of_head {pts : Int} (hwaits : Waits pts updates)
    (hinside : NoneInside updates) (hhead : ∀ v rest, updates = v :: rest → pts ≠ v.pts - v.ptsCount) :
    ∀ v ∈ updates, 0 < v.ptsCount → pts ≠ v.pts - v.ptsCount := by
  intro v hv hpos hbegin
  obtain _ | ⟨w, rest⟩ := updates
  · cases hv
  have hw := hhead w rest rfl
  rcases mem_cons.mp hv with rfl | hrest
  · exact hw hbegin
  have hbefore := before_eq_false_iff.mp ((pairwise_cons.mp hwaits.ordered).1 v hrest)
  have hdisjoint := (pairwise_cons.mp hwaits.disjoint).1 v hrest
  have hcount := hwaits.count_nonneg w (by simp)
  have hbehind := hwaits.behind w (by simp)
  by_cases hzero : w.ptsCount = 0
  · exact hinside w (by simp) v hv hzero (by omega)
  · have hwin : w.pts ∈ w.interval := mem_interval.mpr ⟨by omega, by omega⟩
    have hvin : w.pts ∈ v.interval := mem_interval.mpr ⟨by omega, by omega⟩
    exact Finset.disjoint_left.mp hdisjoint hwin hvin

theorem NoneInside.mono (h : NoneInside more) (hsub : ∀ u ∈ updates, u ∈ more) : NoneInside updates :=
  fun u hu v hv => h u (hsub u hu) v (hsub v hv)

theorem Advanced.stuck (h : Advanced first s s' u) (hinv : s'.Inv first (received ++ [u]))
    (hstuck : ∀ v ∈ s.pending, 0 < v.ptsCount → s.pts ≠ v.pts - v.ptsCount) (hinside : NoneInside (received ++ [u])) :
    ∀ v ∈ s'.pending, 0 < v.ptsCount → s'.pts ≠ v.pts - v.ptsCount := by
  rcases h.stops with ⟨hpending, hpts, hbegin⟩ | hhead
  · intro v hv hpos
    rw [hpending] at hv
    rw [hpts]
    rcases mem_insertUpdate.mp hv with rfl | hv
    · exact hbegin
    · exact hstuck v hv hpos
  · exact stuck_of_head h.waits (hinside.mono hinv.pending_mem) hhead

theorem Advanced.kept (h : Advanced first s s' u)
    (hkept : ∀ v ∈ received, 0 < v.ptsCount → v ∈ Updates.applied s.actions ∨ v ∈ s.pending) :
    ∀ v ∈ received ++ [u], 0 < v.ptsCount → v ∈ Updates.applied s'.actions ∨ v ∈ s'.pending := by
  obtain ⟨done, chosen, hsplit, happlied, -, hchosen⟩ := h.split
  have hinserted : ∀ v ∈ insertUpdate u s.pending, 0 < v.ptsCount →
      v ∈ Updates.applied s'.actions ∨ v ∈ s'.pending := by
    intro v hv hpos
    rw [hsplit] at hv
    rcases mem_append.mp hv with hdone | hpending
    · simp_all
    · exact .inr hpending
  intro v hv hpos
  rcases mem_append.mp hv with hreceived | hu
  · rcases hkept v hreceived hpos with hdone | hpending
    · simp [happlied, hdone]
    · exact hinserted v (mem_insertUpdate.mpr (.inr hpending)) hpos
  · exact hinserted v (mem_insertUpdate.mpr (.inl (mem_singleton.mp hu))) hpos

/-- Updates that do not meet. -/
structure Separate (first : Int) (updates : List PendingPtsUpdate) : Prop where
  good : ∀ u ∈ updates, Good first u
  disjoint : updates.Pairwise fun u v => Disjoint u.interval v.interval
  inside : NoneInside updates

/-- **One call** with an update that meets none received. -/
theorem Ready.call (h : s.Ready first received) (hseparate : Separate first (received ++ [u]))
    (hnear : s.Near u source) : ∃ s', s.addPendingPtsUpdate u source = .ok s' ∧ s'.Ready first (received ++ [u]) := by
  have hgood := hseparate.good u (by simp)
  have hdisjoint : ∀ v ∈ received, Disjoint u.interval v.interval := fun v hv =>
    ((pairwise_append.mp hseparate.disjoint).2.2 v hv u (by simp)).symm
  obtain ⟨s', hok, ⟨hignored, ⟨hskips, hpostponed⟩ | hpostpones⟩ | ⟨hadvanced, hcounted⟩⟩ :=
    addPendingPtsUpdate_cases h.inv (fun v hv => hdisjoint v (h.inv.pending_mem v hv)) hgood.lt_maxValue source
  · obtain ⟨hpts, -, hpending, -⟩ := hignored.same
    obtain ⟨actions, hactions, hquiet⟩ := hignored.actions
    have hzero : ¬ 0 < u.ptsCount := fun hpos => h.inv.not_skips hgood hpos hdisjoint hnear hskips
    refine ⟨s', hok, hignored.inv h.inv u, hpostponed.trans h.postponed, ?_, by rw [hpts, hpending]; exact h.stuck⟩
    rw [hactions, applied_append, hquiet.applied, append_nil, hpending]
    simpa [or_imp, forall_and, hzero] using h.kept
  · exact absurd hpostpones (h.not_postpones hgood hdisjoint hnear)
  · have hinv := hadvanced.inv h.inv hcounted
    exact ⟨s', hok, hinv, hadvanced.same.2.trans h.postponed, hadvanced.kept h.kept,
      hadvanced.stuck hinv h.stuck hseparate.inside⟩

/-- When the updates received fill `(first, r]`, they were applied. -/
theorem Ready.reaches (h : s.Ready first received) {r : Int}
    (hcover : Finset.Ioc first r ⊆ Cover.cover interval received) : r ≤ s.pts := by
  by_contra hlt
  have hle := h.inv.applied.le_pts
  -- the update that brings the number after the PTS
  obtain ⟨u, hu, hx⟩ := Cover.mem_cover.mp (hcover (Finset.mem_Ioc.mpr ⟨by omega, by omega⟩ : s.pts + 1 ∈ _))
  rw [mem_interval] at hx
  rcases h.kept u hu (by omega) with happlied | hpending
  · have hin : u.pts ∈ Finset.Ioc first s.pts := by
      rw [← h.inv.applied.tiles.2]
      exact Cover.mem_cover.mpr ⟨u, happlied, mem_interval.mpr ⟨by omega, by omega⟩⟩
    rw [Finset.mem_Ioc] at hin
    omega
  · have hbehind := h.inv.waits.behind u hpending
    exact h.stuck u hpending (by omega) (by omega)

/-- No update is in two places of what was applied, unless its count is zero. -/
theorem nodup_of_tiles {last : Int} (h : Tiles first last updates) :
    (updates.filter fun u => 0 < u.ptsCount).Nodup := by
  refine (h.1.filter _).imp_of_mem ?_
  rintro u v hu - hdisjoint rfl
  have hpos := (mem_filter.mp hu).2
  have hin : u.pts ∈ u.interval := mem_interval.mpr (by simp only [decide_eq_true_eq] at hpos; omega)
  exact Finset.disjoint_left.mp hdisjoint hin hin

theorem Starts.ready (h : s.Starts first) (hpostponed : s.postponed = []) : s.Ready first [] :=
  ⟨h.inv, hpostponed, by simp, by simp [h.pending]⟩

theorem Separate.of_append (h : Separate first (updates ++ more)) : Separate first updates :=
  ⟨fun u hu => h.good u (by simp [hu]), (pairwise_append.mp h.disjoint).1, h.inside.mono fun u hu => by simp [hu]⟩

/-- **Updates that do not meet are applied once each, and without gaps**: the PTS is set
only to what those applied so far reach, and it gets as far as those received reach. -/
theorem pts_updates_applied {calls : List (PendingPtsUpdate × Source)} (hstart : s.Starts first)
    (hpostponed : s.postponed = []) (hupdates : Separate first (calls.map Prod.fst)) (hnear : AtCalls Near calls s) :
    ∃ s', run calls s = .ok s' ∧
      ((applied s'.actions).filter fun u => 0 < u.ptsCount).Nodup ∧
      (∀ before q after, s'.actions = before ++ .setPts q :: after → Tiles first q (applied before)) ∧
      ∀ r, Finset.Ioc first r ⊆ Cover.cover interval (calls.map Prod.fst) → r ≤ s'.pts := by
  obtain ⟨s', hrun, hready⟩ := run_ok (P := fun s received => s.Ready first received) Ready.call
    (fun l more h => h.of_append) (hstart.ready hpostponed) hupdates hnear
  refine ⟨s', hrun, nodup_of_tiles hready.inv.applied.tiles, ?_, fun r hcover => hready.reaches hcover⟩
  intro before q after hactions
  exact tiles_of_setsTile hready.inv.applied.sets hactions

/-- 2 and 3 come in the other order, then 5. -/
theorem pts_updates_applied_three :
    ∃ s', run [(ptsUpdate 3 1, .other), (ptsUpdate 2 1, .other), (ptsUpdate 5 1, .afterGetDifference)] (fresh 1) =
        .ok s' ∧
      ((applied s'.actions).filter fun u => 0 < u.ptsCount).Nodup ∧
      (∀ before q after, s'.actions = before ++ .setPts q :: after → Tiles 1 q (applied before)) ∧
      ∀ r, Finset.Ioc 1 r ⊆ Cover.cover interval [ptsUpdate 3 1, ptsUpdate 2 1, ptsUpdate 5 1] →
        r ≤ s'.pts := by
  refine pts_updates_applied (starts_fresh (by decide) (by decide)) rfl ⟨?_, by decide, by decide⟩ ?_
  · simp only [map_cons, map_nil, forall_mem_cons]
    exact ⟨⟨rfl, by decide, by decide⟩, ⟨rfl, by decide, by decide⟩, ⟨rfl, by decide, by decide⟩, by simp⟩
  · refine atCalls_cons (by decide) rfl ?_
    refine atCalls_cons (by decide) rfl ?_
    exact atCalls_cons (by decide) rfl trivial

/-- An update from getDifference that is more than `1 << 21` ahead is dropped, though it
follows the PTS. -/
theorem far_update_dropped : (fresh 1).Starts 1 ∧ Good 1 (ptsUpdate 3000000 2999999) ∧
      ∃ s', run [(ptsUpdate 3000000 2999999, .afterGetDifference)] (fresh 1) = .ok s' ∧ s'.pts = 1 ∧
        Finset.Ioc 1 3000000 ⊆ Cover.cover interval [ptsUpdate 3000000 2999999] :=
  ⟨starts_fresh (by decide) (by decide), ⟨rfl, by decide, by decide⟩, _, rfl, by decide, by
    intro x hx
    rw [Finset.mem_Ioc] at hx
    refine Cover.mem_cover.mpr ⟨ptsUpdate 3000000 2999999, mem_singleton_self _, mem_interval.mpr ?_⟩
    simp only [ptsUpdate]
    omega⟩

end PtsUpdates

end Tdlib.Updates
