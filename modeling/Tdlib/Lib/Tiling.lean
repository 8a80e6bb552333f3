/-
A range of numbers that begins at zero, cut at the multiples of a unit. The last
piece may be short, and the pieces behind it are empty. What is proved about a set
of pieces is how much of the range it covers.
-/
import Mathlib.Algebra.BigOperators.Intervals
import Mathlib.Algebra.Order.BigOperators.Group.Finset
import Mathlib.Tactic.Ring

namespace Tdlib

open Finset

namespace Tiling

variable {total unit a b i j n x : Nat}

/-- Where piece `i` begins, or the end of the range. -/
def cut (total unit i : Nat) : Nat := min total (unit * i)

/-- The length of piece `i`. -/
def piece (total unit i : Nat) : Nat := min unit (total - unit * i)

theorem cut_zero : cut total unit 0 = 0 := by simp [cut]

theorem cut_le : cut total unit i ≤ total := Nat.min_le_left _ _

theorem cut_mono (total unit : Nat) : Monotone (cut total unit) := by
  intro i j hij
  have := Nat.mul_le_mul_left unit hij
  unfold cut
  omega

theorem cut_of_le (h : total ≤ unit * i) : cut total unit i = total := Nat.min_eq_left h

theorem cut_add_piece (total unit i : Nat) : cut total unit i + piece total unit i = cut total unit (i + 1) := by
  have hnext : unit * (i + 1) = unit * i + unit := Nat.mul_succ unit i
  unfold cut piece
  omega

theorem piece_eq_unit (h : unit * (i + 1) ≤ total) : piece total unit i = unit := by
  rw [Nat.mul_succ] at h
  unfold piece
  omega

theorem piece_eq_zero (h : total ≤ unit * i) : piece total unit i = 0 := by
  unfold piece
  omega

theorem piece_pos (hunit : 0 < unit) : 0 < piece total unit i ↔ unit * i < total := by
  unfold piece
  omega

theorem sum_piece (hab : a ≤ b) : ∑ i ∈ Finset.Ico a b, piece total unit i = cut total unit b - cut total unit a := by
  induction b, hab using Nat.le_induction with
  | base => simp
  | succ b hab ih =>
    have hstep := cut_add_piece total unit b
    have hmono := cut_mono total unit hab
    rw [sum_Ico_succ_top hab, ih]
    omega

theorem sum_piece_range : ∑ i ∈ Finset.range n, piece total unit i = cut total unit n := by
  rw [range_eq_Ico, sum_piece (Nat.zero_le n), cut_zero, Nat.sub_zero]

/-- Pieces that are in a row, or empty, cover no more than the row. -/
theorem sum_piece_le {s : Finset Nat} (hab : a ≤ b) (h : ∀ i ∈ s, 0 < piece total unit i → a ≤ i ∧ i < b) :
    ∑ i ∈ s, piece total unit i ≤ cut total unit b - cut total unit a := by
  rw [← sum_piece hab]
  apply sum_le_sum_of_ne_zero
  intro i hi hne
  rw [mem_Ico]
  exact h i hi (Nat.pos_of_ne_zero hne)

/-- Pieces of two rows cover no more than the two rows. -/
theorem sum_piece_le_add {s : Finset Nat} {a' b' : Nat} (hab : a ≤ b) (hab' : a' ≤ b')
    (h : ∀ i ∈ s, 0 < piece total unit i → (a ≤ i ∧ i < b) ∨ (a' ≤ i ∧ i < b')) : ∑ i ∈ s, piece total unit i ≤
      (cut total unit b - cut total unit a) + (cut total unit b' - cut total unit a') := by
  have hsplit := sum_filter_add_sum_filter_not s (fun i => a ≤ i ∧ i < b) (piece total unit)
  rw [← hsplit]
  apply Nat.add_le_add
  · apply sum_piece_le hab
    intro i hi _
    exact (mem_filter.mp hi).2
  · apply sum_piece_le hab'
    intro i hi hpos
    obtain ⟨his, hnot⟩ := mem_filter.mp hi
    exact (h i his hpos).resolve_left hnot

theorem mul_div_bounds (hunit : 0 < unit) (x : Nat) : unit * (x / unit) ≤ x ∧ x < unit * (x / unit + 1) := by
  refine ⟨Nat.mul_div_le x unit, ?_⟩
  rw [Nat.mul_comm]
  exact Nat.lt_mul_of_div_lt (Nat.lt_succ_self _) hunit

theorem mul_divUp_bounds (hunit : 0 < unit) (x : Nat) :
    x ≤ unit * ((x + unit - 1) / unit) ∧ unit * ((x + unit - 1) / unit) < x + unit := by
  obtain ⟨hle, hlt⟩ := mul_div_bounds hunit (x + unit - 1)
  rw [Nat.mul_succ] at hlt
  omega

theorem lt_divUp (hunit : 0 < unit) (h : unit * i < x) : i < (x + unit - 1) / unit := by
  obtain ⟨hle, -⟩ := mul_divUp_bounds hunit x
  exact Nat.lt_of_mul_lt_mul_left (Nat.lt_of_lt_of_le h hle)

theorem div_le (hunit : 0 < unit) (h : x < unit * (i + 1)) : x / unit ≤ i := by
  rw [Nat.mul_comm] at h
  exact Nat.lt_succ_iff.mp ((Nat.div_lt_iff_lt_mul hunit).mpr h)

end Tiling

theorem sum_range_update {f g : Nat → Nat} {n k : Nat} (hk : k < n) (h : ∀ i, i ≠ k → f i = g i) :
    ∑ i ∈ Finset.range n, f i + g k = ∑ i ∈ Finset.range n, g i + f k := by
  have hmem : k ∈ Finset.range n := mem_range.mpr hk
  have hrest : ∑ i ∈ (Finset.range n).erase k, f i = ∑ i ∈ (Finset.range n).erase k, g i := by
    apply sum_congr rfl
    intro i hi
    exact h i (ne_of_mem_erase hi)
  have hf := add_sum_erase (Finset.range n) f hmem
  have hg := add_sum_erase (Finset.range n) g hmem
  omega

end Tdlib
