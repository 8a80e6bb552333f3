/-
What the operations on bit strings compute, in terms of bits.

Every string that occurs is a `view`: `n` bits of a buffer from bit `s` on.
Two views compare, and are stored, by their bits and by the position of the
first bit within its byte.
-/
import Tdlib.E2e.BitString

namespace Tdlib.E2e

open List hiding beq_eq_decide pure_def
open Outcome

/-! ## Masks -/

theorem byteBit_beginMask {b j : Nat} (hb : b ≤ 8) (hj : j < 8) : byteBit (beginMask b) j = decide (b ≤ j) := by
  have key : ∀ b : Fin 9, ∀ j : Fin 8, byteBit (beginMask b) j = decide (b.val ≤ j.val) := by decide
  exact key ⟨b, by omega⟩ ⟨j, hj⟩

theorem byteBit_endMask {e j : Nat} (he : e ≤ 8) (hj : j < 8) : byteBit (endMask e) j = decide (j < e) := by
  have key : ∀ e : Fin 9, ∀ j : Fin 8, byteBit (endMask e) j = decide (j.val < e.val) := by decide
  exact key ⟨e, by omega⟩ ⟨j, hj⟩

theorem shiftRight_and_one (x : UInt8) {j : Nat} (hj : j < 8) :
    (x >>> UInt8.ofNat (7 - j)) &&& 1 = if byteBit x j then 1 else 0 := by
  have hshift : (UInt8.ofNat (7 - j)).toNat % 8 = 7 - j := by
    rw [UInt8.toNat_ofNat']
    omega
  apply UInt8.toNat_inj.mp
  rw [UInt8.toNat_and, UInt8.toNat_shiftRight, hshift, UInt8.toNat_one, Nat.and_one_is_mod, Nat.shiftRight_eq_div_pow,
    byteBit, Nat.testBit_eq_decide_div_mod_eq]
  rcases Nat.mod_two_eq_zero_or_one (x.toNat / 2 ^ (7 - j)) with h | h <;> simp [h]

/-- Where the bits of two bytes between `b` and `e` part. -/
theorem countCommonBits_spec (x y : UInt8) {b e : Nat} (hbe : b ≤ e) (he : e ≤ 8) : countCommonBits x y b e ≤ e - b ∧
    (∀ j, b ≤ j → j < b + countCommonBits x y b e → byteBit x j = byteBit y j) ∧
    (countCommonBits x y b e < e - b →
      byteBit x (b + countCommonBits x y b e) ≠ byteBit y (b + countCommonBits x y b e)) := by
  -- `z` has the bits in question, the last of them as its lowest bit
  obtain ⟨z, hz⟩ : ∃ z, z = ((x ^^^ y) &&& beginMask b).toNat >>> (8 - e) := ⟨_, rfl⟩
  have hbit : ∀ i, z.testBit i = (decide (i < e - b) && (byteBit x (e - 1 - i) ^^ byteBit y (e - 1 - i))) := by
    intro i
    rw [hz, Nat.testBit_shiftRight]
    by_cases hi : i < e
    · have hmasked : ((x ^^^ y) &&& beginMask b).toNat.testBit (8 - e + i) =
          byteBit ((x ^^^ y) &&& beginMask b) (e - 1 - i) := by
        have hpos : 7 - (e - 1 - i) = 8 - e + i := by omega
        rw [byteBit, hpos]
      grind [byteBit_and, byteBit_xor, byteBit_beginMask, Bool.and_comm]
    · have hlt := ((x ^^^ y) &&& beginMask b).toNat_lt
      have hpow : 2 ^ 8 ≤ 2 ^ (8 - e + i) := Nat.pow_le_pow_right (by decide) (by omega)
      rw [Nat.testBit_lt_two_pow (by omega), decide_eq_false (by omega), Bool.false_and]
  have same : ∀ j, b ≤ j → j < e → z.testBit (e - 1 - j) = false → byteBit x j = byteBit y j := by
    intro j hb hj h
    have hpos : e - 1 - (e - 1 - j) = j := by omega
    rw [hbit, decide_eq_true (by omega), Bool.true_and, hpos] at h
    simpa using h
  have hc : countCommonBits x y b e = countLeadingZeroes32 z + (e - b) - 32 := by rw [hz]; rfl
  rw [hc, countLeadingZeroes32]
  by_cases h0 : z = 0
  · rw [if_pos h0, Nat.add_sub_cancel_left]
    refine ⟨Nat.le_refl _, fun j hb hj => same j hb (by omega) (by simp [h0]), by omega⟩
  · have htop := Nat.testBit_log2 h0
    have hlog : z.log2 < e - b := by
      simp_all
    have hcount : 31 - z.log2 + (e - b) - 32 = e - b - 1 - z.log2 := by omega
    rw [if_neg h0, hcount]
    refine ⟨by omega, fun j hb hj => same j hb (by omega) ?_, fun _ => ?_⟩
    · have hpow : 2 ^ (z.log2 + 1) ≤ 2 ^ (e - 1 - j) := Nat.pow_le_pow_right (by decide) (by omega)
      exact Nat.testBit_lt_two_pow (Nat.lt_log2_self.trans_le hpow)
    · have hpos : e - 1 - z.log2 = b + (e - b - 1 - z.log2) := by omega
      simp_all

namespace BitString

/-! ## Views -/

/-- The `n` bits of `buf` from bit `s` on. -/
def view (buf : Bytes) (s n : Nat) : BitString :=
  ⟨some buf, (s + 7) / 8, n, (((s + n) / 8 : Nat) : Int) - (((s + 7) / 8 : Nat) : Int), s % 8, (s + n) % 8⟩

section

variable (buf : Bytes) (s n : Nat)

@[simp] theorem data_view : (view buf s n).data = some buf := rfl
@[simp] theorem bitsSize_view : (view buf s n).bitsSize = n := rfl
@[simp] theorem ptr_view : (view buf s n).ptr = (s + 7) / 8 := rfl
@[simp] theorem beginBit_view : (view buf s n).beginBit = s % 8 := rfl
@[simp] theorem endBit_view : (view buf s n).endBit = (s + n) % 8 := rfl

end

variable {offset size : Nat} {s n : Nat}

theorem create_some (buf : Bytes) (base : Nat) (h : offset + size < 2 ^ 64) :
    create (some (buf, base)) offset size = .ok (view buf (8 * base + offset) size) := by
  simp only [create, Nat.mod_eq_of_lt h]
  rw [check_true (by omega)]
  simp only [ok_bind, pure_def, view, ok.injEq, BitString.mk.injEq, true_and]
  omega

theorem create_none (h : offset + size < 2 ^ 64) :
    create none offset size = .ok (view (List.replicate ((offset % 8 + size + 7) / 8) 0) (offset % 8) size) := by
  simp only [create, Nat.mod_eq_of_lt h]
  rw [check_true (by omega), ok_bind, check_true
    (by simp only [inByte]; split <;> split <;> omega)]
  have hfull : ((((offset + size) / 8 : Nat) : Int) - (((offset + 7) / 8 : Nat) : Int) + inByte (offset % 8)
      + inByte ((offset + size) % 8)).toNat = (offset % 8 + size + 7) / 8 := by
    simp only [inByte]; split <;> split <;> omega
  simp only [ok_bind, pure_def, view, hfull, ok.injEq, BitString.mk.injEq, true_and]
  refine ⟨?_, ?_, ?_, ?_⟩
  · simp only [inByte]; split <;> omega
  all_goals omega

theorem substr_view (buf : Bytes) {pos len : Nat} (hn : n + 8 ≤ 2 ^ 64) (hpos : pos ≤ n) :
    (view buf s n).substr pos len = .ok (view buf (s + pos) (min len (n - pos))) := by
  have hbase : 8 * ((s + 7) / 8 - inByte (s % 8)) + (s % 8 + pos) = s + pos := by
    simp only [inByte]; split <;> omega
  grind [substr, check_true, ok_bind, bitsSize_view, beginBit_view, data_view, ptr_view, create_some]

theorem substr_view_fatal (buf : Bytes) {pos len : Nat} (hpos : n < pos) : (view buf s n).substr pos len = .fatal := by
  rw [substr, check, if_neg (by rw [bitsSize_view]; omega), fatal_bind]

theorem substrFrom_view (buf : Bytes) {pos : Nat} (hn : n + 8 ≤ 2 ^ 64) (hpos : pos ≤ n) :
    (view buf s n).substrFrom pos = .ok (view buf (s + pos) (n - pos)) := by
  have hlen : min (2 ^ 64 - 1) (n - pos) = n - pos := by omega
  rw [substrFrom, substr_view buf hn hpos, hlen]

theorem byteAt_view (buf : Bytes) (s n : Nat) (i : Int) :
    (view buf s n).byteAt i = buf.getD ((((s + 7) / 8 : Nat) : Int) + i).toNat 0 := rfl

/-! The index in the buffer of the byte before the whole bytes of a view, and of
the whole bytes. -/

theorem byteIndex_first (hs : s % 8 ≠ 0) : ((((s + 7) / 8 : Nat) : Int) + -1).toNat = s / 8 := by omega

theorem byteIndex (s k : Nat) : ((((s + 7) / 8 : Nat) : Int) + k).toNat = (s + 7) / 8 + k := by omega

theorem byteAt_view_first (buf : Bytes) (hs : s % 8 ≠ 0) : (view buf s n).byteAt (-1) = buf.getD (s / 8) 0 := by
  rw [byteAt_view, byteIndex_first hs]

theorem getBit_view (buf : Bytes) {pos : Nat} (hpos : pos < n) :
    (view buf s n).getBit pos = .ok (if bitAt buf (s + pos) then 1 else 0) := by
  have hidx : ((((s + 7) / 8 : Nat) : Int) + ((((pos + s % 8) / 8 : Nat) : Int) - inByte (s % 8))).toNat
      = (s + pos) / 8 := by
    simp only [inByte]; split <;> omega
  grind [getBit, check_true, ok_bind, pure_def, byteAt_view, view, shiftRight_and_one, bitAt]

/-! ## Whole bytes -/

/-- The bits of a string before its first whole byte. -/
def headBits (s : Nat) : Nat := if s % 8 = 0 then 0 else 8 - s % 8

theorem eight_mul_ptr (s : Nat) : 8 * ((s + 7) / 8) = s + headBits s := by
  rw [headBits]; split <;> omega

theorem headBits_congr {s' : Nat} (h : s % 8 = s' % 8) : headBits s = headBits s' := by
  rw [headBits, headBits, h]

theorem headBits_of_ne (h : s % 8 ≠ 0) : headBits s = 8 - s % 8 := if_neg h

theorem eight_mul_inByte (s : Nat) : 8 * inByte (s % 8) = s % 8 + headBits s := by
  rw [inByte, headBits]; split <;> omega

/-- A view that does not lie within one byte has a number of whole bytes. -/
theorem exists_bytesSize {buf : Bytes} (h : (view buf s n).bytesSize ≠ -1) :
    ∃ w : Nat, (view buf s n).bytesSize = w := by
  refine ⟨(view buf s n).bytesSize.toNat, ?_⟩
  simp only [view] at h ⊢
  omega

theorem size_split {m : Nat} (h : (m : Int) = (((s + n) / 8 : Nat) : Int) - (((s + 7) / 8 : Nat) : Int)) :
    n = headBits s + 8 * m + (s + n) % 8 := by
  rw [headBits]; split <;> omega

theorem inByte_eq_div {bit : Nat} (h : bit < 8) : (bit + 7) / 8 = inByte bit := by
  rw [inByte]; split <;> omega

theorem bytes_of_split {m : Nat} (h : n = headBits s + 8 * m + (s + n) % 8) :
    (s % 8 + n + 7) / 8 = inByte (s % 8) + m + inByte ((s + n) % 8) := by
  have hfirst := eight_mul_inByte s
  have hsum : s % 8 + n + 7 = (s + n) % 8 + 7 + (inByte (s % 8) + m) * 8 := by omega
  rw [hsum, Nat.add_mul_div_right _ _ (by decide), inByte_eq_div (Nat.mod_lt _ (by decide)), Nat.add_comm]

theorem byteBit_byteAt_view {buf : Bytes} {m j : Nat} (hj : j < 8) :
    byteBit ((view buf s n).byteAt m) j = bitAt buf (s + (headBits s + 8 * m + j)) := by
  have hq := eight_mul_ptr s
  rw [byteAt_view, byteBit_getD _ _ hj]
  congr 1
  omega

/-! ## Storing -/

/-- What `store` writes for `bits` that start at bit `b` of a byte. -/
def encodeBits (b : Nat) (bits : List Bool) : Bytes :=
  leBytes 4 (b <<< 16 ||| (b + bits.length) % 2 ^ 16) ++ packBits b bits ++ padding (packBits b bits).length

theorem bitAt_masked_singleton (x m : UInt8) {i : Nat} (h : i < 8) :
    bitAt [x &&& m] i = (byteBit x i && byteBit m i) := by
  rw [bitAt_singleton _ h, byteBit_and]

/-- A byte that is there only where a string starts, or ends, inside a byte. -/
theorem bits_ite (bit : Nat) (x : UInt8) : (if bit ≠ 0 then [x] else []).length = inByte bit ∧
    ∀ i < 8 * inByte bit, bitAt (if bit ≠ 0 then [x] else []) i = byteBit x i := by
  by_cases h : bit = 0
  · simp [inByte, h]
  · simp only [inByte, ne_eq, h, not_false_eq_true, if_true, if_false]
    exact ⟨rfl, fun i hi => bitAt_singleton x (by omega)⟩

/-- The bits between the header and the padding: those of the view, zeros
around. -/
theorem body_view (buf : Bytes) (hb : s + n ≤ 8 * buf.length) :
    (view buf s n).body = packBits (s % 8) (bitsAt buf s n) := by
  have hbits : ∀ i, bitAt (packBits (s % 8) (bitsAt buf s n)) i =
      (decide (s % 8 ≤ i ∧ i < s % 8 + n) && bitAt buf (8 * (s / 8) + i)) := by
    intro i
    rw [bitAt_packBits, getD_bitsAt]
    by_cases hi : s % 8 ≤ i
    · grind
    · simp [hi]
  by_cases hneg : (view buf s n).bytesSize = -1
  · rw [body, if_pos hneg]
    simp only [view] at hneg
    apply bytes_ext
    · simp; omega
    · intro i hi
      grind [length_singleton, bitAt_masked_singleton, byteAt_view_first, byteBit_getD, createMask, byteBit_and,
        beginBit_view, endBit_view, byteBit_beginMask, byteBit_endMask, Bool.and_comm, Bool.decide_and]
  · obtain ⟨w, hw⟩ := exists_bytesSize hneg
    have hsize := size_split (hw.symm.trans rfl)
    have hq := eight_mul_ptr s
    have hfirst := eight_mul_inByte s
    rw [body, if_neg hneg, hw, Int.toNat_natCast, beginBit_view, endBit_view]
    -- the three parts, each by its length and its bits
    have h1 := bits_ite (s % 8) ((view buf s n).byteAt (-1) &&& beginMask (s % 8))
    have h2 : ((view buf s n).bytes w).length = w := by
      simp only [bytes, view, Option.getD_some, length_take, length_drop]; omega
    have h3 := bits_ite ((s + n) % 8) ((view buf s n).byteAt w &&& endMask ((s + n) % 8))
    apply bytes_ext
    · rw [length_append, length_append, h1.1, h2, h3.1, length_packBits, length_bitsAt, bytes_of_split hsize]
    · intro i hi
      rw [length_append, length_append, h1.1, h2, h3.1] at hi
      rw [hbits, bitAt_append, length_append, h1.1, h2, bitAt_append, h1.1]
      by_cases hi1 : i < 8 * inByte (s % 8)
      · have hb0 : s % 8 ≠ 0 := fun h => by simp [h, inByte] at hi1
        have hi8 : i < 8 := by rw [inByte, if_neg hb0] at hi1; omega
        rw [if_pos (by omega), if_pos hi1, h1.2 i hi1, byteBit_and, byteAt_view_first buf hb0, byteBit_getD _ _ hi8,
          byteBit_beginMask (by omega) hi8, Bool.and_comm]
        congr 2
        exact propext (by omega)
      by_cases hi2 : i < 8 * (inByte (s % 8) + w)
      · have hbytes : (view buf s n).bytes w = (buf.drop ((s + 7) / 8)).take w := rfl
        have hpos : 8 * ((s + 7) / 8) + (i - 8 * inByte (s % 8)) = 8 * (s / 8) + i := by omega
        rw [if_pos hi2, if_neg hi1, hbytes, bitAt_take (by omega), bitAt_drop, decide_eq_true (by omega), Bool.true_and,
          hpos]
      · have he0 : (s + n) % 8 ≠ 0 := fun h => by simp [h, inByte] at hi hi2; omega
        have hone : inByte ((s + n) % 8) = 1 := if_neg he0
        have hi8 : i - 8 * (inByte (s % 8) + w) < 8 := by omega
        have hpos : s + (headBits s + 8 * w + (i - 8 * (inByte (s % 8) + w))) = 8 * (s / 8) + i := by omega
        rw [if_neg hi2, h3.2 _ (by omega), byteBit_and, byteBit_byteAt_view hi8, byteBit_endMask (by omega) hi8,
          Bool.and_comm, hpos]
        congr 2
        exact propext (by omega)

theorem store_view (buf : Bytes) (hb : s + n ≤ 8 * buf.length) :
    (view buf s n).store = encodeBits (s % 8) (bitsAt buf s n) := by
  rw [store, body_view buf hb, encodeBits, beginBit_view, bitsSize_view, length_bitsAt]

section TwoViews

variable {buf buf' : Bytes} {s s' n n' : Nat}

/-- Strings of the same size and position are equal if they are stored alike. -/
theorem equals_view_body (hs : s % 8 = s' % 8) :
    (view buf s n).equals (view buf' s' n) = .ok (decide (n = 0 ∨ (view buf s n).body = (view buf' s' n).body)) := by
  have hsize : (view buf' s' n).bytesSize = (view buf s n).bytesSize := by simp only [view]; omega
  have hend : (s' + n) % 8 = (s + n) % 8 := by omega
  by_cases h0 : n = 0
  · simp [equals, h0]
  simp only [equals, body, hsize, beginBit_view, endBit_view, bitsSize_view, ← hs, hend, h0, false_or]
  by_cases hneg : (view buf s n).bytesSize = -1
  · simp [hneg, beq_eq_decide]
  · obtain ⟨w, hw⟩ := exists_bytesSize hneg
    by_cases hbegin : s % 8 = 0 <;> by_cases hlast : (s + n) % 8 = 0 <;> simp [hbegin, hlast, beq_eq_decide]
    all_goals split_ifs <;> simp_all

theorem equals_view (hs : s % 8 = s' % 8) (hb : s + n ≤ 8 * buf.length) (hb' : s' + n ≤ 8 * buf'.length) :
    (view buf s n).equals (view buf' s' n) = .ok (decide (bitsAt buf s n = bitsAt buf' s' n)) := by
  rw [equals_view_body hs, body_view buf hb, body_view buf' hb', ← hs]
  congr 1
  rw [decide_eq_decide]
  constructor
  · rintro (rfl | h)
    · rfl
    · exact packBits_injective (by simp) h
  · intro h
    exact .inr (by rw [h])

/-! ## Common prefixes -/

/-- A result of `common_prefix_length` at which the bits part, or one of the
strings ends. -/
theorem return_lcp {r : Nat} (hr : r ≤ min n n') (same : ∀ i < r, bitAt buf (s + i) = bitAt buf' (s' + i))
    (stop : r < min n n' → bitAt buf (s + r) ≠ bitAt buf' (s' + r)) :
    (do check (r ≤ min n n'); pure r) = ok (lcp (bitsAt buf s n) (bitsAt buf' s' n')) := by
  rw [check_true hr, ok_bind, pure_def, ok.injEq]
  symm
  apply lcp_eq_of
  · rw [length_bitsAt]; omega
  · rw [length_bitsAt]; omega
  · intro i hi
    rw [getElem?_bitsAt (by omega), getElem?_bitsAt (by omega), same i hi]
  · intro h h'
    rw [length_bitsAt] at h h'
    rw [getElem?_bitsAt h, getElem?_bitsAt h']
    simpa using stop (by omega)

section

variable {m k : Nat} (hk : k < m) (hb : s + headBits s + 8 * m ≤ 8 * buf.length)

include hk hb

theorem getElem?_bytes_view : ((view buf s n).bytes m)[k]? = some ((view buf s n).byteAt k) := by
  have hbytes : (view buf s n).bytes m = (buf.drop ((s + 7) / 8)).take m := rfl
  rw [hbytes, List.getElem?_take_of_lt hk, List.getElem?_drop, byteAt_view, byteIndex,
    getD_eq_getElem _ _ (by omega), List.getElem?_eq_getElem (by omega)]

theorem lt_length_bytes : k < ((view buf s n).bytes m).length :=
  (List.getElem?_eq_some_iff.mp (getElem?_bytes_view (n := n) hk hb)).1

end

theorem same_of_byteAt_eq {k i : Nat} (hs : s % 8 = s' % 8)
    (h : (view buf s n).byteAt k = (view buf' s' n').byteAt k) (hlo : headBits s + 8 * k ≤ i)
    (hhi : i < headBits s + 8 * k + 8) : bitAt buf (s + i) = bitAt buf' (s' + i) := by
  have hlt : i - (headBits s + 8 * k) < 8 := by omega
  have hbit := congrArg (byteBit · (i - (headBits s + 8 * k))) h
  simpa [byteBit_byteAt_view hlt, ← headBits_congr hs, Nat.add_sub_of_le hlo] using hbit

/-- Two views part within the byte at index `k`, or agree on its first `e` bits. -/
theorem common_in_byte (buf buf' : Bytes) (n n' k : Nat) {e : Nat} (hs : s % 8 = s' % 8) (he : e ≤ 8) :
    let c := countCommonBits ((view buf s n).byteAt k) ((view buf' s' n').byteAt k) 0 e
    c ≤ e ∧ (∀ i, headBits s + 8 * k ≤ i → i < headBits s + 8 * k + c → bitAt buf (s + i) = bitAt buf' (s' + i)) ∧
    (c < e → bitAt buf (s + (headBits s + 8 * k + c)) ≠ bitAt buf' (s' + (headBits s + 8 * k + c))) := by
  intro c
  obtain ⟨hc, same, stop⟩ := countCommonBits_spec ((view buf s n).byteAt k) ((view buf' s' n').byteAt k)
    (Nat.zero_le e) he
  simp only [Nat.sub_zero, Nat.zero_add] at hc same stop
  refine ⟨hc, fun i hlo hhi => ?_, fun hlt => ?_⟩
  · have hbit := same (i - (headBits s + 8 * k)) (by omega) (by omega)
    rw [byteBit_byteAt_view (by omega), byteBit_byteAt_view (by omega), ← headBits_congr hs] at hbit
    rwa [Nat.add_sub_of_le hlo] at hbit
  · have := stop hlt
    rwa [byteBit_byteAt_view (by omega), byteBit_byteAt_view (by omega), ← headBits_congr hs] at this

theorem byteBit_first (buf : Bytes) (n : Nat) {b i : Nat} (hs : s % 8 = b) (h0 : b ≠ 0) (hi : b + i < 8) :
    byteBit ((view buf s n).byteAt (-1)) (b + i) = bitAt buf (s + i) := by
  rw [byteAt_view_first buf (hs ▸ h0), byteBit_getD _ _ hi]
  congr 1
  omega

theorem byteBit_first_masked (buf : Bytes) (n : Nat) {b i : Nat} (hs : s % 8 = b) (h0 : b ≠ 0) (hi : b + i < 8) :
    byteBit ((view buf s n).byteAt (-1) &&& beginMask b) (b + i) = bitAt buf (s + i) := by
  simp [byteBit_first buf n hs h0 hi, byteBit_beginMask (show b ≤ 8 by omega) hi]

/-- Two views part within the byte they start in, or agree on its bits up to `e`. -/
theorem common_in_first {x y : UInt8} {e : Nat} (hse : s % 8 ≤ e) (he : e ≤ 8)
    (hx : ∀ i, s % 8 + i < 8 → byteBit x (s % 8 + i) = bitAt buf (s + i))
    (hy : ∀ i, s % 8 + i < 8 → byteBit y (s % 8 + i) = bitAt buf' (s' + i)) :
    let c := countCommonBits x y (s % 8) e
    c ≤ e - s % 8 ∧ (∀ i < c, bitAt buf (s + i) = bitAt buf' (s' + i)) ∧
    (c < e - s % 8 → bitAt buf (s + c) ≠ bitAt buf' (s' + c)) := by
  intro c
  obtain ⟨hc, same, stop⟩ := countCommonBits_spec x y hse he
  refine ⟨hc, fun i hi => ?_, fun hlt => ?_⟩
  · rw [← hx i (by omega), ← hy i (by omega)]
    exact same _ (Nat.le_add_right ..) (Nat.add_lt_add_left hi _)
  · rw [← hx c (by omega), ← hy c (by omega)]
    exact stop hlt

theorem commonBytesLength_view {w e : Nat} (hs : s % 8 = s' % 8) (hm : min n n' = headBits s + 8 * w + e)
    (he : e < 8) (hb : s + n ≤ 8 * buf.length) (hb' : s' + n' ≤ 8 * buf'.length)
    (hfirst : ∀ i < headBits s, bitAt buf (s + i) = bitAt buf' (s' + i)) :
    (view buf s n).commonBytesLength (view buf' s' n') w e (headBits s) (min n n') =
      .ok (lcp (bitsAt buf s n) (bitsAt buf' s' n')) := by
  have hhead := headBits_congr hs
  have hat : ∀ k < w, ((view buf s n).bytes w)[k]? = some ((view buf s n).byteAt k) :=
    fun k hk => getElem?_bytes_view hk (by omega)
  have hat' : ∀ k < w, ((view buf' s' n').bytes w)[k]? = some ((view buf' s' n').byteAt k) :=
    fun k hk => getElem?_bytes_view hk (by omega)
  obtain ⟨f, hf⟩ : ∃ f, f = lcp ((view buf s n).bytes w) ((view buf' s' n').bytes w) := ⟨_, rfl⟩
  have hfw : f ≤ w := by
    have := (lcp_le ((view buf s n).bytes w) ((view buf' s' n').bytes w)).1
    rw [← hf] at this
    exact this.trans (length_take_le ..)
  have hbefore : ∀ i < headBits s + 8 * f, bitAt buf (s + i) = bitAt buf' (s' + i) := by
    intro i hi
    by_cases hlt : i < headBits s
    · exact hfirst i hlt
    · have hk : (i - headBits s) / 8 < f := by omega
      have := getElem?_of_lt_lcp (hf ▸ hk)
      rw [hat _ (by omega), hat' _ (by omega), Option.some.injEq] at this
      exact same_of_byteAt_eq hs this (by omega) (by omega)
  simp only [commonBytesLength, Int.toNat_natCast, ← hf]
  by_cases hlt : f < w
  · -- the bytes at index `f` differ, so the bits part within them
    have hne : (view buf s n).byteAt f ≠ (view buf' s' n').byteAt f := by
      have := getElem?_lcp_ne (hf ▸ lt_length_bytes hlt (by omega)) (hf ▸ lt_length_bytes hlt (by omega))
      simp_all
    obtain ⟨hc, same, stop⟩ := common_in_byte buf buf' n n' f hs (Nat.le_refl 8)
    rw [if_pos (by omega)]
    apply return_lcp
    · omega
    · intro i hi
      by_cases hi' : i < headBits s + 8 * f
      · exact hbefore i hi'
      · exact same i (by omega) (by omega)
    · intro h
      rw [Nat.mul_comm f 8]
      apply stop
      by_contra hge
      apply hne
      apply byte_ext
      intro j hj
      rw [byteBit_byteAt_view hj, byteBit_byteAt_view hj, ← hhead]
      exact same _ (by omega) (by omega)
  · obtain rfl : f = w := by omega
    rw [if_neg (by simp)]
    by_cases h0 : e = 0
    · rw [if_neg (by simpa using h0)]
      exact return_lcp (by omega) (fun i hi => hbefore i (by omega)) (by omega)
    · obtain ⟨hc, same, stop⟩ := common_in_byte buf buf' n n' f hs he.le
      rw [if_pos h0]
      apply return_lcp
      · omega
      · intro i hi
        by_cases hi' : i < headBits s + 8 * f
        · exact hbefore i hi'
        · exact same i (by omega) (by omega)
      · intro h
        rw [Nat.mul_comm f 8]
        exact stop (by omega)

theorem commonPrefixLength_view (hs : s % 8 = s' % 8) (hb : s + n ≤ 8 * buf.length) (hb' : s' + n' ≤ 8 * buf'.length) :
    (view buf s n).commonPrefixLength (view buf' s' n') = .ok (lcp (bitsAt buf s n) (bitsAt buf' s' n')) := by
  obtain ⟨sh, hsh⟩ : ∃ sh, sh =
      if (view buf s n).bitsSize < (view buf' s' n').bitsSize then view buf s n else view buf' s' n' := ⟨_, rfl⟩
  have hbegin : sh.beginBit = s % 8 := by rw [hsh]; split <;> simp [hs]
  have hend : sh.endBit = (s + min n n') % 8 := by
    rw [hsh]
    split
    next h => simp only [bitsSize_view] at h; simp only [endBit_view]; omega
    next h => simp only [bitsSize_view] at h; simp only [endBit_view]; omega
  have hsize : sh.bytesSize = (((s + min n n') / 8 : Nat) : Int) - (((s + 7) / 8 : Nat) : Int) := by
    rw [hsh]
    split
    next h => simp only [bitsSize_view] at h; simp only [view]; omega
    next h => simp only [bitsSize_view] at h; simp only [view]; omega
  rw [commonPrefixLength, check_true (by simpa using hs), ok_bind]
  simp only [← hsh]
  rw [hbegin, hend, hsize]
  by_cases hneg : (((s + min n n') / 8 : Nat) : Int) - (((s + 7) / 8 : Nat) : Int) = -1
  · rw [if_pos hneg]
    obtain ⟨hc, same, stop⟩ := common_in_first (e := (s + min n n') % 8) (by omega) (by omega)
      (fun i => byteBit_first buf n rfl (by omega)) (fun i => byteBit_first buf' n' hs.symm (by omega))
    apply return_lcp
    · simp only [bitsSize_view]; omega
    · exact same
    · intro h
      simp only [bitsSize_view] at h
      exact stop (by omega)
  · obtain ⟨w, hw⟩ : ∃ w : Nat, (w : Int) = (((s + min n n') / 8 : Nat) : Int) - (((s + 7) / 8 : Nat) : Int) :=
      ⟨((((s + min n n') / 8 : Nat) : Int) - (((s + 7) / 8 : Nat) : Int)).toNat, by omega⟩
    have hm := size_split hw
    rw [if_neg hneg, ← hw]
    by_cases h0 : s % 8 = 0
    · rw [if_neg (by simpa using h0)]
      have hhead : headBits s = 0 := if_pos h0
      have := commonBytesLength_view hs hm (by omega) hb hb' (by simp [hhead])
      rwa [hhead] at this
    · obtain ⟨hc, same, stop⟩ := common_in_first (Nat.mod_lt s (by decide : 8 > 0)).le (Nat.le_refl 8)
        (fun i => byteBit_first_masked buf n rfl h0) (fun i => byteBit_first_masked buf' n' hs.symm h0)
      rw [if_pos h0]
      by_cases heq : (view buf s n).byteAt (-1) &&& beginMask (s % 8) =
          (view buf' s' n').byteAt (-1) &&& beginMask (s % 8)
      · rw [if_neg (not_not_intro heq), ← headBits_of_ne h0]
        refine commonBytesLength_view hs hm (by omega) hb hb' fun i hi => ?_
        rw [← byteBit_first_masked buf n rfl h0 (by omega), heq, byteBit_first_masked buf' n' hs.symm h0 (by omega)]
      · rw [if_pos heq]
        apply return_lcp
        · simp only [bitsSize_view]; rw [headBits_of_ne h0] at hm; omega
        · exact same
        · intro h
          apply stop
          by_contra hge
          -- the bytes agree where the mask is set
          refine heq (byte_ext fun j hj => ?_)
          by_cases hlo : s % 8 ≤ j
          · obtain ⟨i, rfl⟩ := Nat.exists_eq_add_of_le hlo
            rw [byteBit_first_masked buf n rfl h0 hj, byteBit_first_masked buf' n' hs.symm h0 hj, same i (by omega)]
          · simp [byteBit_beginMask (show s % 8 ≤ 8 by omega) hj, hlo]

end TwoViews

theorem header_eq {b : Nat} (hn : b + n < 2 ^ 16) : b <<< 16 ||| (b + n) % 2 ^ 16 = b * 2 ^ 16 + (b + n) := by
  rw [Nat.mod_eq_of_lt hn, ← Nat.shiftLeft_add_eq_or_of_lt hn, Nat.shiftLeft_eq]

theorem encodeBits_append_inj {b b' : Nat} {bits bits' : List Bool} {xs ys : Bytes} (hb : b + bits.length < 2 ^ 16)
    (hb' : b' + bits'.length < 2 ^ 16) (h : encodeBits b bits ++ xs = encodeBits b' bits' ++ ys) :
    b = b' ∧ bits = bits' ∧ xs = ys := by
  simp only [encodeBits, append_assoc] at h
  obtain ⟨hhead, h⟩ := append_inj h (by simp)
  rw [header_eq hb, header_eq hb'] at hhead
  have heq := leBytes_injective (w := 4) (by omega) (by omega) hhead
  obtain rfl : b = b' := by omega
  have hlen : bits.length = bits'.length := by omega
  obtain ⟨hbody, h⟩ := append_inj h (by simp [hlen])
  obtain ⟨-, hrest⟩ := append_inj h (by rw [hbody])
  exact ⟨rfl, packBits_injective hlen hbody, hrest⟩

end BitString

end Tdlib.E2e
