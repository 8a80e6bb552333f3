/-
Words as sets of flags.

`FlagsIn a b` says that every bit of `a` is a bit of `b`. Code tests it by
masking `a` with the complement of `b`.
-/
import Mathlib.Data.List.Basic

namespace Tdlib

open BitVec

variable {w : Nat} {a b c : BitVec w}

/-- Every bit of `a` is a bit of `b`. -/
def FlagsIn (a b : BitVec w) : Prop := ∀ i, a.getLsbD i = true → b.getLsbD i = true

theorem FlagsIn.refl (a : BitVec w) : FlagsIn a a := fun _ h => h

theorem FlagsIn.trans (h : FlagsIn a b) (h' : FlagsIn b c) : FlagsIn a c := fun i hi => h' i (h i hi)

theorem FlagsIn.zero (b : BitVec w) : FlagsIn 0 b := by
  intro i hi
  simp at hi

theorem FlagsIn.or (h : FlagsIn a c) (h' : FlagsIn b c) : FlagsIn (a ||| b) c := by
  intro i hi
  rw [getLsbD_or, Bool.or_eq_true] at hi
  exact hi.elim (h i) (h' i)

theorem FlagsIn.or_left (a b : BitVec w) : FlagsIn a (a ||| b) := by
  intro i hi
  rw [getLsbD_or, hi, Bool.true_or]

theorem FlagsIn.or_right (a b : BitVec w) : FlagsIn b (a ||| b) := by
  intro i hi
  rw [getLsbD_or, hi, Bool.or_true]

theorem FlagsIn.and_left (a b : BitVec w) : FlagsIn (a &&& b) a := by
  intro i hi
  rw [getLsbD_and, Bool.and_eq_true] at hi
  exact hi.1

theorem FlagsIn.and_right (a b : BitVec w) : FlagsIn (a &&& b) b := by
  intro i hi
  rw [getLsbD_and, Bool.and_eq_true] at hi
  exact hi.2

theorem flagsIn_iff : FlagsIn a b ↔ a &&& ~~~b = 0 := by
  constructor
  · intro h
    apply eq_of_getLsbD_eq
    intro i hi
    have := h i
    simp only [getLsbD_and, getLsbD_not, hi, decide_true, Bool.true_and]
    cases ha : a.getLsbD i <;> simp_all
  · intro h i hi
    have hbit : (a &&& ~~~b).getLsbD i = false := by rw [h]; simp
    have hlt : i < w := lt_of_getLsbD hi
    simpa [hi, hlt] using hbit

theorem flagsIn_iff_not_and : FlagsIn a b ↔ ~~~b &&& a = 0 := by
  rw [flagsIn_iff, BitVec.and_comm]

theorem FlagsIn.or_eq (h : FlagsIn a b) : b ||| a = b := by
  apply eq_of_getLsbD_eq
  intro i hi
  have := h i
  rw [getLsbD_or]
  cases ha : a.getLsbD i <;> simp_all

theorem and_twoPow_ne_zero {i : Nat} (hi : i < w) : a &&& BitVec.twoPow w i ≠ 0 ↔ a.getLsbD i = true := by
  have hne : BitVec.twoPow w i ≠ 0 := by
    intro h
    have hbit : (BitVec.twoPow w i).getLsbD i = false := by rw [h]; simp
    simp [hi] at hbit
  rw [and_twoPow]
  cases ha : a.getLsbD i with
  | false => simp
  | true => simpa using hne

theorem FlagsIn.of_and_ne_zero {i : Nat} (hi : i < w) (h : a &&& BitVec.twoPow w i ≠ 0) :
    FlagsIn (BitVec.twoPow w i) a := by
  intro j hj
  rw [getLsbD_twoPow, Bool.and_eq_true, decide_eq_true_eq, decide_eq_true_eq] at hj
  rw [← hj.2]
  exact (and_twoPow_ne_zero hi).mp h

end Tdlib
