/-
Sets of integers cut into pieces. There is one set for each index and one set of
cut points for all of them. A piece is a range of one set that begins at a cut
point, has no cut point inside and goes as far as it can.

A list that has every piece once is a list of what a sweep over the line emits
when it stops at each cut point; two such lists are the same up to order.
-/
import Mathlib.Data.Int.Basic
import Mathlib.Data.Set.Basic
import Mathlib.Data.List.Perm.Basic
import Mathlib.Data.List.Nodup

namespace Tdlib

structure Piece (ι : Type) where
  index : ι
  first : ℤ
  last : ℤ
  deriving DecidableEq

namespace Piece

variable {ι : Type} {C D : ι → Set ℤ} {K L : Set ℤ} {p q : Piece ι} {a b c x : ℤ} {ps qs : List (Piece ι)}

def Has (p : Piece ι) (x : ℤ) : Prop := p.first ≤ x ∧ x < p.last

structure IsPiece (C : ι → Set ℤ) (K : Set ℤ) (p : Piece ι) : Prop where
  lt : p.first < p.last
  sub : ∀ x, p.Has x → x ∈ C p.index
  cut : p.first ∈ K
  uncut : ∀ x, p.first < x → x < p.last → x ∉ K
  ends : p.last ∈ K ∨ p.last ∉ C p.index

theorem IsPiece.has_first (h : IsPiece C K p) : p.Has p.first := ⟨le_refl _, h.lt⟩

section

variable (hp : IsPiece C K p) (hq : IsPiece C K q)

include hp hq

theorem IsPiece.first_eq (hpx : p.Has x) (hqx : q.Has x) : p.first = q.first := by
  have hle : ¬ p.first < q.first := fun hlt => hp.uncut _ hlt (lt_of_le_of_lt hqx.1 hpx.2) hq.cut
  have hge : ¬ q.first < p.first := fun hlt => hq.uncut _ hlt (lt_of_le_of_lt hpx.1 hqx.2) hp.cut
  omega

theorem IsPiece.last_le (hindex : p.index = q.index) (hpx : p.Has x) (hqx : q.Has x) : p.last ≤ q.last := by
  by_contra hlt
  have hbegin := hp.first_eq hq hpx hqx
  have hlast : q.last ∈ C q.index := hindex ▸ hp.sub q.last ⟨by have := hq.lt; omega, by omega⟩
  exact hq.ends.elim (fun hcut => hp.uncut _ (by have := hq.lt; omega) (by omega) hcut) fun hnot => hnot hlast

theorem IsPiece.eq_of_has (hindex : p.index = q.index) (hpx : p.Has x) (hqx : q.Has x) : p = q := by
  have hfirst := hp.first_eq hq hpx hqx
  have hlast := le_antisymm (hp.last_le hq hindex hpx hqx) (hq.last_le hp hindex.symm hqx hpx)
  cases p
  cases q
  simp_all

theorem IsPiece.apart (hne : p ≠ q) : p.last ≤ q.first ∨ q.last ≤ p.first ∨ p.first = q.first ∧ p.index ≠ q.index := by
  by_cases hpq : p.last ≤ q.first
  · exact .inl hpq
  · by_cases hqp : q.last ≤ p.first
    · exact .inr (.inl hqp)
    · have hlt := hp.lt
      have hlt' := hq.lt
      have hpx : p.Has (max p.first q.first) := ⟨le_max_left _ _, max_lt hlt (by omega)⟩
      have hqx : q.Has (max p.first q.first) := ⟨le_max_right _ _, max_lt (by omega) hlt'⟩
      exact .inr (.inr ⟨hp.first_eq hq hpx hqx, fun hindex => hne (hp.eq_of_has hq hindex hpx hqx)⟩)

end

/-- A range between cut points is on one side of a piece or around it. -/
theorem IsPiece.apart_of_mem (hp : IsPiece C K p) (ha : a ∈ K) (hb : b ∈ K) :
    p.last ≤ a ∨ b ≤ p.first ∨ a ≤ p.first ∧ p.last ≤ b := by
  have hacut : ¬ (p.first < a ∧ a < p.last) := fun h => hp.uncut a h.1 h.2 ha
  have hbcut : ¬ (p.first < b ∧ b < p.last) := fun h => hp.uncut b h.1 h.2 hb
  omega

/-- Only the cut points in the sets themselves matter. -/
theorem IsPiece.congr (h : IsPiece C K p) (hcuts : ∀ x ∈ C p.index, x ∈ K ↔ x ∈ L) : IsPiece C L p where
  lt := h.lt
  sub := h.sub
  cut := (hcuts _ (h.sub _ h.has_first)).mp h.cut
  uncut x hfirst hlast := fun hx => h.uncut x hfirst hlast ((hcuts x (h.sub x ⟨hfirst.le, hlast⟩)).mpr hx)
  ends := by
    by_cases hlast : p.last ∈ C p.index
    · exact .inl ((hcuts _ hlast).mp (h.ends.resolve_right fun hnot => hnot hlast))
    · exact .inr hlast

theorem IsPiece.restrict (h : IsPiece C K p) (hsub : ∀ i, D i ⊆ C i) (hin : ∀ x, p.Has x → x ∈ D p.index) :
    IsPiece D K p where
  lt := h.lt
  sub := hin
  cut := h.cut
  uncut := h.uncut
  ends := h.ends.imp_right fun hnot hlast => hnot (hsub _ hlast)

/-- All pieces between `a` and `b`, each once. -/
structure Cuts (C : ι → Set ℤ) (K : Set ℤ) (a b : ℤ) (ps : List (Piece ι)) : Prop where
  nodup : ps.Nodup
  sound : ∀ p ∈ ps, IsPiece C K p
  within : ∀ p ∈ ps, a ≤ p.first ∧ p.last ≤ b
  complete : ∀ i x, a ≤ x → x < b → x ∈ C i → ∃ p ∈ ps, p.index = i ∧ p.Has x

theorem Cuts.nil (hnone : ∀ i x, a ≤ x → x < b → x ∉ C i) : Cuts C K a b [] where
  nodup := List.nodup_nil
  sound := by simp
  within := by simp
  complete i x ha hb hx := absurd hx (hnone i x ha hb)

theorem Cuts.append (hps : Cuts C K a b ps) (hqs : Cuts C K b c qs) (hab : a ≤ b) (hbc : b ≤ c) :
    Cuts C K a c (ps ++ qs) where
  nodup := by
    refine List.nodup_append'.mpr ⟨hps.nodup, hqs.nodup, fun p hp hq => ?_⟩
    have hlast := (hps.within p hp).2
    have hfirst := (hqs.within p hq).1
    have hlt := (hps.sound p hp).lt
    omega
  sound p hp := (List.mem_append.mp hp).elim (hps.sound p) (hqs.sound p)
  within p hp := by
    rcases List.mem_append.mp hp with hp | hp
    · have := hps.within p hp
      omega
    · have := hqs.within p hp
      omega
  complete i x ha hc hx := by
    by_cases hb : x < b
    · obtain ⟨p, hp, hcover⟩ := hps.complete i x ha hb hx
      exact ⟨p, List.mem_append_left _ hp, hcover⟩
    · obtain ⟨p, hp, hcover⟩ := hqs.complete i x (by omega) hc hx
      exact ⟨p, List.mem_append_right _ hp, hcover⟩

theorem Cuts.restrict (h : Cuts C K a b ps) (hsub : ∀ i, D i ⊆ C i)
    (hin : ∀ i x, a ≤ x → x < b → x ∈ C i → x ∈ D i) : Cuts D K a b ps where
  nodup := h.nodup
  sound p hp := (h.sound p hp).restrict hsub fun x hx =>
    hin _ x (by have := (h.within p hp).1; have := hx.1; omega) (by have := (h.within p hp).2; have := hx.2; omega)
      ((h.sound p hp).sub x hx)
  within := h.within
  complete i x ha hb hx := h.complete i x ha hb (hsub i hx)

theorem Cuts.congr (h : Cuts C K a b ps) (hcuts : ∀ i, ∀ x ∈ C i, x ∈ K ↔ x ∈ L) : Cuts C L a b ps where
  nodup := h.nodup
  sound p hp := (h.sound p hp).congr (hcuts p.index)
  within := h.within
  complete := h.complete

theorem Cuts.mem_iff (h : Cuts C K a b ps) (hC : ∀ i, ∀ x ∈ C i, a ≤ x ∧ x < b) : p ∈ ps ↔ IsPiece C K p := by
  refine ⟨h.sound p, fun hp => ?_⟩
  have hfirst := hp.sub _ hp.has_first
  obtain ⟨q, hq, hindex, hhas⟩ := h.complete _ _ (hC _ _ hfirst).1 (hC _ _ hfirst).2 hfirst
  rwa [hp.eq_of_has (h.sound q hq) hindex.symm hp.has_first hhas]

theorem Cuts.perm (hps : Cuts C K a b ps) (hqs : Cuts C K a b qs) (hC : ∀ i, ∀ x ∈ C i, a ≤ x ∧ x < b) : ps.Perm qs :=
  (List.perm_ext_iff_of_nodup hps.nodup hqs.nodup).mpr fun _ => (hps.mem_iff hC).trans (hqs.mem_iff hC).symm

/-- The points at which one of the sets begins. -/
def starts (C : ι → Set ℤ) : Set ℤ := {x | ∃ i, x ∈ C i ∧ x - 1 ∉ C i}

/-- Taking a set away from all of them makes no new starts but at its ends. -/
theorem mem_cuts_diff_iff {P : Set ℤ} (hends : ∀ x, x - 1 ∈ P → x ∉ P → x ∈ K) {i : ι} (hx : x ∈ C i \ P) :
    x ∈ K ∪ starts C ↔ x ∈ K ∪ starts fun i => C i \ P := by
  constructor
  · rintro (hcut | ⟨j, hj, hbefore⟩)
    · exact .inl hcut
    · exact .inr ⟨j, ⟨hj, hx.2⟩, fun h => hbefore h.1⟩
  · rintro (hcut | ⟨j, hj, hbefore⟩)
    · exact .inl hcut
    · by_cases hP : x - 1 ∈ P
      · exact .inl (hends x hP hx.2)
      · exact .inr ⟨j, hj.1, fun h => hbefore ⟨h, hP⟩⟩

end Piece
end Tdlib
