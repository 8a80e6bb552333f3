/-
Numbers of a fixed width as groups of bits, the highest bit first. A change of width,
such as that from bytes to the digits of a code, is another grouping of the same bits,
with zeros behind them.
-/
import Mathlib.Data.List.Basic
import Mathlib.Data.Nat.Bitwise

namespace Tdlib

open List

variable {w n m a b : Nat}

/-! ## Bits of a number -/

/-- The `w` lowest bits of `n`, the highest first. -/
def bits : Nat → Nat → List Bool
  | 0, _ => []
  | w + 1, n => n.testBit w :: bits w n

@[simp] theorem bits_width_zero (n : Nat) : bits 0 n = [] := rfl

theorem bits_succ (w n : Nat) : bits (w + 1) n = n.testBit w :: bits w n := rfl

@[simp] theorem length_bits (w n : Nat) : (bits w n).length = w := by
  induction w with
  | zero => rfl
  | succ w ih => rw [bits_succ, length_cons, ih]

theorem bits_eq_iff : bits w n = bits w m ↔ ∀ i < w, n.testBit i = m.testBit i := by
  induction w with
  | zero => simp
  | succ w ih =>
    rw [bits_succ, bits_succ, List.cons.injEq, ih]
    constructor
    · intro ⟨hw, hlt⟩ i hi
      rcases Nat.lt_succ_iff_lt_or_eq.mp hi with hi | rfl
      · exact hlt i hi
      · exact hw
    · intro h
      exact ⟨h w (Nat.lt_succ_self w), fun i hi => h i (Nat.lt_succ_of_lt hi)⟩

theorem bits_mod (h : a ≤ b) (n : Nat) : bits a (n % 2 ^ b) = bits a n := by
  refine bits_eq_iff.mpr fun i hi => ?_
  rw [Nat.testBit_mod_two_pow, decide_eq_true (Nat.lt_of_lt_of_le hi h), Bool.true_and]

theorem mod_eq_of_bits_eq (h : bits w n = bits w m) : n % 2 ^ w = m % 2 ^ w := by
  refine Nat.eq_of_testBit_eq fun i => ?_
  rw [Nat.testBit_mod_two_pow, Nat.testBit_mod_two_pow]
  by_cases hi : i < w
  · rw [bits_eq_iff.mp h i hi]
  · rw [decide_eq_false hi, Bool.false_and, Bool.false_and]

theorem bits_inj (hn : n < 2 ^ w) (hm : m < 2 ^ w) (h : bits w n = bits w m) : n = m := by
  have hmod := mod_eq_of_bits_eq h
  rwa [Nat.mod_eq_of_lt hn, Nat.mod_eq_of_lt hm] at hmod

theorem bits_add (a b n : Nat) : bits (a + b) n = bits a (n >>> b) ++ bits b n := by
  induction a with
  | zero => rw [Nat.zero_add, bits_width_zero, nil_append]
  | succ a ih => rw [Nat.succ_add, bits_succ, bits_succ, ih, Nat.testBit_shiftRight, Nat.add_comm b a, cons_append]

theorem bits_shiftLeft_or (a n : Nat) (hm : m < 2 ^ b) : bits (a + b) (n <<< b ||| m) = bits a n ++ bits b m := by
  rw [bits_add]
  congr 1
  · refine bits_eq_iff.mpr fun i _ => ?_
    rw [Nat.testBit_shiftRight, Nat.testBit_or, Nat.testBit_shiftLeft, decide_eq_true (Nat.le_add_right ..),
      Nat.add_sub_cancel_left, Nat.testBit_lt_two_pow (x := m)]
    · simp
    · exact Nat.lt_of_lt_of_le hm (Nat.pow_le_pow_right (by decide) (Nat.le_add_right ..))
  · refine bits_eq_iff.mpr fun i hi => ?_
    rw [Nat.testBit_or, Nat.testBit_shiftLeft, decide_eq_false (by omega), Bool.false_and, Bool.false_or]

@[simp] theorem bits_zero (w : Nat) : bits w 0 = List.replicate w false := by
  induction w with
  | zero => rfl
  | succ w ih => rw [bits_succ, ih, Nat.zero_testBit, replicate_succ]

theorem bits_shiftLeft (a b n : Nat) : bits (a + b) (n <<< b) = bits a n ++ List.replicate b false := by
  have hzero := bits_shiftLeft_or (b := b) a n (m := 0) (Nat.two_pow_pos b)
  rwa [Nat.or_zero, bits_zero] at hzero

/-! ## Groups of bits -/

/-- The bits of numbers of width `w`, one number after the other. -/
def grouped (w : Nat) (ns : List Nat) : List Bool := ns.flatMap (bits w)

@[simp] theorem grouped_nil (w : Nat) : grouped w [] = [] := rfl

@[simp] theorem grouped_cons (w n : Nat) (ns : List Nat) : grouped w (n :: ns) = bits w n ++ grouped w ns := rfl

theorem grouped_append (w : Nat) (ns ms : List Nat) : grouped w (ns ++ ms) = grouped w ns ++ grouped w ms :=
  flatMap_append

/-- The groups are found again, before a rest that is too short for one more. -/
theorem grouped_cut {ns ms : List Nat} {rest rest' : List Bool} (hns : ∀ n ∈ ns, n < 2 ^ w) (hms : ∀ m ∈ ms, m < 2 ^ w)
    (hrest : rest.length < w) (hrest' : rest'.length < w) (h : grouped w ns ++ rest = grouped w ms ++ rest') :
    ns = ms ∧ rest = rest' := by
  induction ns generalizing ms with
  | nil =>
    cases ms with
    | nil => exact ⟨rfl, h⟩
    | cons m ms =>
      have hlength := congrArg List.length h
      simp only [grouped_nil, grouped_cons, nil_append, length_append, length_bits] at hlength
      omega
  | cons n ns ih =>
    cases ms with
    | nil =>
      have hlength := congrArg List.length h
      simp only [grouped_nil, grouped_cons, nil_append, length_append, length_bits] at hlength
      omega
    | cons m ms =>
      rw [grouped_cons, grouped_cons, append_assoc, append_assoc] at h
      obtain ⟨hhead, htail⟩ := append_inj h (by rw [length_bits, length_bits])
      obtain ⟨rfl, hrests⟩ := ih (fun k hk => hns k (mem_cons_of_mem _ hk))
        (fun k hk => hms k (mem_cons_of_mem _ hk)) htail
      have heq := bits_inj (hns n mem_cons_self) (hms m mem_cons_self) hhead
      exact ⟨by rw [heq], hrests⟩

end Tdlib
