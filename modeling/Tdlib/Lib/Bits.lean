/-
The bits of byte strings, the most significant bit of a byte first, and the
common prefix of two lists.
-/
import Mathlib.Tactic.IntervalCases
import Tdlib.Lib.Bytes

namespace Tdlib

open List

/-! ## Bits of a byte -/

/-- Bit `j` of a byte, the most significant first. -/
def byteBit (x : UInt8) (j : Nat) : Bool := x.toNat.testBit (7 - j)

theorem byteBit_def (x : UInt8) (j : Nat) : byteBit x j = x.toNat.testBit (7 - j) := rfl

theorem byte_ext {x y : UInt8} (h : ∀ j < 8, byteBit x j = byteBit y j) : x = y := by
  apply UInt8.toNat_inj.mp
  apply Nat.eq_of_testBit_eq
  intro i
  by_cases hi : i < 8
  · have := h (7 - i) (by omega)
    simpa [byteBit_def, show 7 - (7 - i) = i by omega] using this
  · have hpow : 2 ^ 8 ≤ 2 ^ i := Nat.pow_le_pow_right (by decide) (by omega)
    have hx := x.toNat_lt
    have hy := y.toNat_lt
    rw [Nat.testBit_lt_two_pow (by omega), Nat.testBit_lt_two_pow (by omega)]

@[simp] theorem byteBit_zero (j : Nat) : byteBit 0 j = false := by simp [byteBit_def]

@[simp] theorem byteBit_and (x y : UInt8) (j : Nat) : byteBit (x &&& y) j = (byteBit x j && byteBit y j) := by
  simp [byteBit_def, UInt8.toNat_and]

@[simp] theorem byteBit_or (x y : UInt8) (j : Nat) : byteBit (x ||| y) j = (byteBit x j || byteBit y j) := by
  simp [byteBit_def, UInt8.toNat_or]

@[simp] theorem byteBit_xor (x y : UInt8) (j : Nat) : byteBit (x ^^^ y) j = (byteBit x j ^^ byteBit y j) := by
  simp [byteBit_def, UInt8.toNat_xor]

/-- The byte with the bits `f 0`, …, `f 7`. -/
def packByte (f : Nat → Bool) : UInt8 :=
  UInt8.ofNat ((List.range 8).foldl (fun n i => 2 * n + (f i).toNat) 0)

theorem testBit_zero_append (n : Nat) (b : Bool) : (2 * n + b.toNat).testBit 0 = b := by
  rw [Nat.testBit_zero, Nat.mul_add_mod]
  cases b <;> rfl

theorem testBit_succ_append (n i : Nat) (b : Bool) : (2 * n + b.toNat).testBit (i + 1) = n.testBit i := by
  rw [Nat.testBit_succ, Nat.mul_add_div (by decide), Nat.div_eq_of_lt (Bool.toNat_lt b), Nat.add_zero]

theorem byteBit_packByte (f : Nat → Bool) {j : Nat} (hj : j < 8) : byteBit (packByte f) j = f j := by
  rw [byteBit_def, packByte, UInt8.toNat_ofNat', Nat.testBit_mod_two_pow, decide_eq_true (by omega), Bool.true_and]
  have hfold : (List.range 8).foldl (fun n i => 2 * n + (f i).toNat) 0 = 2 * (2 * (2 * (2 * (2 * (2 * (2 * (2 * 0 +
      (f 0).toNat) + (f 1).toNat) + (f 2).toNat) + (f 3).toNat) + (f 4).toNat) + (f 5).toNat) + (f 6).toNat) +
      (f 7).toNat := rfl
  rw [hfold]
  interval_cases j <;> simp only [Nat.reduceSub, testBit_succ_append, testBit_zero_append]

/-! ## Bits of a byte string -/

/-- Bit `i` of a byte string. Past its end all bits are zero. -/
def bitAt (bs : Bytes) (i : Nat) : Bool := byteBit (bs.getD (i / 8) 0) (i % 8)

theorem bitAt_def (bs : Bytes) (i : Nat) : bitAt bs i = byteBit (bs.getD (i / 8) 0) (i % 8) := rfl

theorem byteBit_getD (bs : Bytes) (k : Nat) {j : Nat} (hj : j < 8) :
    byteBit (bs.getD k 0) j = bitAt bs (8 * k + j) := by
  rw [bitAt_def, show (8 * k + j) / 8 = k by omega, show (8 * k + j) % 8 = j by omega]

/-- The `n` bits from bit `s` on. -/
def bitsAt (bs : Bytes) (s n : Nat) : List Bool := (List.range n).map fun i => bitAt bs (s + i)

theorem bitsAt_def (bs : Bytes) (s n : Nat) : bitsAt bs s n = (List.range n).map fun i => bitAt bs (s + i) := rfl

@[simp] theorem length_bitsAt (bs : Bytes) (s n : Nat) : (bitsAt bs s n).length = n := by simp [bitsAt_def]

theorem getElem?_bitsAt {bs : Bytes} {s n i : Nat} (h : i < n) : (bitsAt bs s n)[i]? = some (bitAt bs (s + i)) := by
  simp [bitsAt_def, h]

theorem getD_bitsAt (bs : Bytes) (s n i : Nat) :
    (bitsAt bs s n).getD i false = (decide (i < n) && bitAt bs (s + i)) := by
  by_cases h : i < n
  · rw [getD_eq_getElem?_getD, getElem?_bitsAt h, decide_eq_true h]
    rfl
  · rw [getD_eq_default _ _ (by simpa using h), decide_eq_false h, Bool.false_and]

theorem bitsAt_eq_iff {bs cs : Bytes} {s t n : Nat} :
    bitsAt bs s n = bitsAt cs t n ↔ ∀ i < n, bitAt bs (s + i) = bitAt cs (t + i) := by
  simp [bitsAt_def]

theorem take_bitsAt (bs : Bytes) {s n k : Nat} (h : k ≤ n) : (bitsAt bs s n).take k = bitsAt bs s k := by
  apply ext_getElem
  · simp [h]
  · intro i h1 h2
    simp [bitsAt_def]

theorem drop_bitsAt (bs : Bytes) (s n k : Nat) : (bitsAt bs s n).drop k = bitsAt bs (s + k) (n - k) := by
  apply ext_getElem
  · simp
  · intro i h1 h2
    simp [bitsAt_def, Nat.add_assoc]

theorem take_drop_bitsAt (bs : Bytes) (s n pos len : Nat) :
    ((bitsAt bs s n).drop pos).take len = bitsAt bs (s + pos) (min len (n - pos)) := by
  rw [drop_bitsAt]
  rcases Nat.le_total len (n - pos) with hle | hle
  · rw [take_bitsAt _ hle, Nat.min_eq_left hle]
  · rw [take_of_length_le (by simpa using hle), Nat.min_eq_right hle]

theorem bytes_ext {bs cs : Bytes} (hlen : bs.length = cs.length)
    (h : ∀ i < 8 * bs.length, bitAt bs i = bitAt cs i) : bs = cs := by
  apply ext_getElem hlen
  intro k hk hk'
  apply byte_ext
  intro j hj
  have := h (8 * k + j) (by omega)
  simpa only [bitAt_def, show (8 * k + j) / 8 = k by omega, show (8 * k + j) % 8 = j by omega,
    getD_eq_getElem _ _ hk, getD_eq_getElem _ _ hk'] using this

theorem bitAt_of_length_le {bs : Bytes} {i : Nat} (h : 8 * bs.length ≤ i) : bitAt bs i = false := by
  rw [bitAt_def, getD_eq_default _ _ (by omega), byteBit_zero]

theorem bitAt_append (bs cs : Bytes) (i : Nat) :
    bitAt (bs ++ cs) i = if i < 8 * bs.length then bitAt bs i else bitAt cs (i - 8 * bs.length) := by
  split
  · rw [bitAt_def, bitAt_def, getD_append _ _ _ _ (by omega)]
  · rw [bitAt_def, bitAt_def, getD_append_right _ _ _ _ (by omega)]
    rw [show (i - 8 * bs.length) / 8 = i / 8 - bs.length by omega, show (i - 8 * bs.length) % 8 = i % 8 by omega]

theorem bitAt_singleton (x : UInt8) {i : Nat} (h : i < 8) : bitAt [x] i = byteBit x i := by
  simp [bitAt_def, show i / 8 = 0 by omega, show i % 8 = i by omega]

theorem bitAt_drop (bs : Bytes) (k i : Nat) : bitAt (bs.drop k) i = bitAt bs (8 * k + i) := by
  simp only [bitAt_def, getD_eq_getElem?_getD, List.getElem?_drop]
  rw [show (8 * k + i) / 8 = k + i / 8 by omega, show (8 * k + i) % 8 = i % 8 by omega]

theorem bitAt_take {bs : Bytes} {k i : Nat} (h : i < 8 * k) : bitAt (bs.take k) i = bitAt bs i := by
  simp only [bitAt_def, getD_eq_getElem?_getD]
  rw [List.getElem?_take_of_lt (by omega)]

theorem bitAt_set_or (bs : Bytes) (k : Nat) (v : UInt8) (i : Nat) (hk : k < bs.length) :
    bitAt (bs.set k (bs.getD k 0 ||| v)) i = (bitAt bs i || (decide (i / 8 = k) && byteBit v (i % 8))) := by
  simp only [bitAt_def, getD_eq_getElem?_getD]
  by_cases h : i / 8 = k
  · simp_all
  · rw [List.getElem?_set_ne (Ne.symm h), decide_eq_false h, Bool.false_and, Bool.or_false]

@[simp] theorem bitAt_replicate_zero (n i : Nat) : bitAt (List.replicate n 0) i = false := by
  rw [bitAt_def, getD_eq_getElem?_getD, List.getElem?_replicate]
  split <;> simp

/-! ## Packing -/

/-- The bytes of `bits` with the first of them at bit `b`, zeros around. -/
def packBits (b : Nat) (bits : List Bool) : Bytes :=
  (List.range ((b + bits.length + 7) / 8)).map fun k =>
    packByte fun j => decide (b ≤ 8 * k + j) && bits.getD (8 * k + j - b) false

@[simp] theorem length_packBits (b : Nat) (bits : List Bool) :
    (packBits b bits).length = (b + bits.length + 7) / 8 := by
  simp [packBits]

theorem bitAt_packBits (b : Nat) (bits : List Bool) (i : Nat) :
    bitAt (packBits b bits) i = (decide (b ≤ i) && bits.getD (i - b) false) := by
  by_cases hi : i / 8 < (b + bits.length + 7) / 8
  · grind [bitAt_def, getD_eq_getElem, packBits, byteBit_packByte]
  · rw [bitAt_of_length_le (by rw [length_packBits]; omega), getD_eq_default _ _ (by omega), Bool.and_false]

theorem bitsAt_packBits (b : Nat) (bits : List Bool) : bitsAt (packBits b bits) b bits.length = bits := by
  apply ext_getElem (by simp)
  intro i h1 h2
  simp_all [bitsAt_def, getElem_map, getElem_range, bitAt_packBits]

theorem packBits_injective {b : Nat} {bits bits' : List Bool} (hlen : bits.length = bits'.length)
    (h : packBits b bits = packBits b bits') : bits = bits' := by
  rw [← bitsAt_packBits b bits, h, hlen, bitsAt_packBits]

/-! ## Common prefixes -/

section Lcp

variable {α : Type} [DecidableEq α]

/-- The length of the longest common prefix. -/
def lcp : List α → List α → Nat
  | a :: as, b :: bs => if a = b then lcp as bs + 1 else 0
  | _, _ => 0

theorem lcp_nil_left (bs : List α) : lcp [] bs = 0 := rfl

theorem lcp_nil_right (as : List α) : lcp as [] = 0 := by cases as <;> rfl

theorem lcp_cons (a b : α) (as bs : List α) : lcp (a :: as) (b :: bs) = if a = b then lcp as bs + 1 else 0 := rfl

theorem lcp_comm (as bs : List α) : lcp as bs = lcp bs as := by
  induction as generalizing bs with
  | nil => cases bs <;> rfl
  | cons a as ih =>
    cases bs with
    | nil => rfl
    | cons b bs => simp [lcp_cons, ih bs, eq_comm]

theorem lcp_append_left (c as bs : List α) : lcp (c ++ as) (c ++ bs) = c.length + lcp as bs := by
  induction c with
  | nil => simp
  | cons a c ih =>
    simp only [cons_append, lcp_cons, if_true, ih, length_cons]
    omega

theorem lcp_append (c as : List α) : lcp c (c ++ as) = c.length := by
  have := lcp_append_left c [] as
  simpa [lcp_nil_left] using this

theorem lcp_diverge {a b : α} (h : a ≠ b) (c as bs : List α) : lcp (c ++ a :: as) (c ++ b :: bs) = c.length := by
  rw [lcp_append_left, lcp_cons, if_neg h, Nat.add_zero]

variable {as bs : List α}

theorem lcp_eq_of {r : Nat} (ha : r ≤ as.length) (hb : r ≤ bs.length)
    (same : ∀ i < r, as[i]? = bs[i]?) (stop : r < as.length → r < bs.length → as[r]? ≠ bs[r]?) : lcp as bs = r := by
  induction as generalizing bs r with
  | nil => simp only [length_nil] at ha; rw [lcp_nil_left]; omega
  | cons a as ih =>
    cases bs with
    | nil => simp only [length_nil] at hb; rw [lcp_nil_right]; omega
    | cons b bs =>
      cases r with
      | zero =>
        have hne : a ≠ b := by simpa using stop (by simp) (by simp)
        rw [lcp_cons, if_neg hne]
      | succ r =>
        have hab : a = b := by simpa using same 0 (by omega)
        rw [lcp_cons, if_pos hab, ih (by simpa using ha) (by simpa using hb)]
        · intro i hi
          simpa using same (i + 1) (by omega)
        · intro h1 h2
          simpa using stop (by simpa using h1) (by simpa using h2)

theorem lcp_le (as bs : List α) : lcp as bs ≤ as.length ∧ lcp as bs ≤ bs.length := by
  induction as generalizing bs with
  | nil => simp [lcp_nil_left]
  | cons a as ih =>
    cases bs with
    | nil => simp [lcp_nil_right]
    | cons b bs =>
      simp only [lcp_cons, length_cons]
      have := ih bs
      split <;> omega

theorem getElem?_of_lt_lcp {i : Nat} (h : i < lcp as bs) : as[i]? = bs[i]? := by
  induction as generalizing bs i with
  | nil => simp [lcp_nil_left] at h
  | cons a as ih =>
    cases bs with
    | nil => simp [lcp_nil_right] at h
    | cons b bs =>
      rw [lcp_cons] at h
      split at h
      next hab =>
        cases i with
        | zero => simp [hab]
        | succ i => simpa using ih (by omega)
      next => omega

theorem getElem?_lcp_ne (ha : lcp as bs < as.length) (hb : lcp as bs < bs.length) :
    as[lcp as bs]? ≠ bs[lcp as bs]? := by
  induction as generalizing bs with
  | nil => simp at ha
  | cons a as ih =>
    cases bs with
    | nil => simp at hb
    | cons b bs =>
      by_cases hab : a = b
      · simp_all [lcp_cons, length_cons]
      · simpa [lcp_cons, if_neg hab] using hab

theorem lcp_lt_of_ne (hlen : as.length = bs.length) (hne : as ≠ bs) : lcp as bs < as.length := by
  by_contra hge
  apply hne
  apply ext_getElem? fun i => ?_
  by_cases hi : i < as.length
  · exact getElem?_of_lt_lcp (by omega)
  · rw [List.getElem?_eq_none (by omega), List.getElem?_eq_none (by omega)]

/-- Two lists, the first the shorter: it is a prefix of the other, or they part
at some bit. -/
theorem extends_or_diverge {as bs : List Bool} (h : as.length ≤ bs.length) :
    (∃ rest, bs = as ++ rest) ∨ ∃ c a x y, as = c ++ a :: x ∧ bs = c ++ (!a) :: y := by
  induction as generalizing bs with
  | nil => exact .inl ⟨bs, rfl⟩
  | cons a as ih =>
    cases bs with
    | nil => simp at h
    | cons b bs =>
      by_cases hab : a = b
      · subst hab
        rcases ih (by simpa using h) with ⟨rest, rfl⟩ | ⟨c, a', x, y, rfl, rfl⟩
        · exact .inl ⟨rest, rfl⟩
        · exact .inr ⟨a :: c, a', x, y, rfl, rfl⟩
      · exact .inr ⟨[], a, as, bs, rfl, by rw [Bool.eq_not.mpr (Ne.symm hab)]; rfl⟩

end Lcp

end Tdlib
