/-
Reading bit strings back.

`fetch_bit_string` ORs the bytes it reads into the buffer of the base string.
Whatever the parser is at, the bits before the base stay as they are
(`fetch_view`). Where the base is still zero and the parser is at a stored
string, the string that was stored is what is read (`fetch_encodeBits`).
-/
import Tdlib.E2e.BitStringFacts

namespace Tdlib.E2e.BitString

open List hiding pure_def
open Outcome TlParser

/-! ## One byte, and the whole bytes -/

theorem orAt_view (buf : Bytes) (s n : Nat) (i : Int) (byte : UInt8) : (view buf s n).orAt i byte =
      view (buf.set ((((s + 7) / 8 : Nat) : Int) + i).toNat ((view buf s n).byteAt i ||| byte)) s n := rfl

theorem copyFrom_view (buf : Bytes) (s n : Nat) (slice : Bytes) : (view buf s n).copyFrom slice =
      view (buf.take ((s + 7) / 8) ++ slice ++ buf.drop ((s + 7) / 8 + slice.length)) s n := rfl

/-- `buf'` has the bits `f` from bit `s` to bit `s + n`, and the bits of `buf` elsewhere. -/
structure Wrote (buf buf' : Bytes) (s n : Nat) (f : Nat → Bool) : Prop where
  length : buf'.length = buf.length
  bits : ∀ i, bitAt buf' i = if s ≤ i ∧ i < s + n then f i else bitAt buf i

/-- A byte that is ORed in under a mask for the bits from `lo` to `hi`, all of
them zero before. -/
theorem wrote_or {buf : Bytes} {k lo hi : Nat} {x m : UInt8} (hk : k < buf.length) (hhi : hi ≤ 8)
    (hm : ∀ j < 8, byteBit m j = (decide (lo ≤ j) && decide (j < hi)))
    (zero : ∀ i, 8 * k + lo ≤ i → i < 8 * k + hi → bitAt buf i = false) :
    Wrote buf (buf.set k (buf.getD k 0 ||| (x &&& m))) (8 * k + lo) (hi - lo) fun i => byteBit x (i % 8) := by
  refine ⟨List.length_set, fun i => ?_⟩
  rw [bitAt_set_or _ _ _ _ hk, byteBit_and, hm _ (by omega)]
  split
  next h =>
    obtain ⟨hk', hlo, hhi'⟩ : i / 8 = k ∧ lo ≤ i % 8 ∧ i % 8 < hi := by omega
    rw [zero i h.1 (by omega), decide_eq_true hk', decide_eq_true hlo, decide_eq_true hhi']
    simp
  next h =>
    by_cases hik : i / 8 = k
    · have : ¬ (lo ≤ i % 8 ∧ i % 8 < hi) := by omega
      simp_all
    · simp [hik]

theorem wrote_copy (buf slice : Bytes) (q : Nat) (hq : q + slice.length ≤ buf.length) :
    Wrote buf (buf.take q ++ slice ++ buf.drop (q + slice.length)) (8 * q) (8 * slice.length)
      fun i => bitAt slice (i - 8 * q) := by
  have hlen : (buf.take q).length = q := by simp; omega
  refine ⟨by simp; omega, fun i => ?_⟩
  rw [bitAt_append, length_append, hlen, bitAt_append, hlen]
  by_cases h1 : i < 8 * q
  · rw [if_pos (by omega), if_pos h1, if_neg (by omega), bitAt_take h1]
  by_cases h2 : i < 8 * (q + slice.length)
  · rw [if_pos h2, if_neg h1, if_pos (by omega)]
  · rw [if_neg h2, if_neg (by omega), bitAt_drop, Nat.add_sub_of_le (by omega)]

variable {buf1 buf2 buf3 : Bytes} {f g : Nat → Bool} {buf buf' : Bytes}

theorem Wrote.trans {s n m : Nat} (h : Wrote buf1 buf2 s n f)
    (h' : Wrote buf2 buf3 (s + n) m g) : Wrote buf1 buf3 s (n + m) fun i => if i < s + n then f i else g i := by
  refine ⟨h'.length.trans h.length, fun i => ?_⟩
  rw [h'.bits, h.bits]
  split_ifs <;> first | rfl | omega

theorem Wrote.nil (buf : Bytes) (s : Nat) (f : Nat → Bool) : Wrote buf buf s 0 f :=
  ⟨rfl, fun i => by rw [if_neg (by omega)]⟩

theorem Wrote.congr {s n : Nat} (h : Wrote buf buf' s n f)
    (hfg : ∀ i, s ≤ i → i < s + n → f i = g i) : Wrote buf buf' s n g := by
  refine ⟨h.length, fun i => ?_⟩
  rw [h.bits]
  split
  next hi => exact hfg i hi.1 hi.2
  next => rfl

theorem Wrote.bitsAt {s n : Nat} (h : Wrote buf buf' s n f) {bits : List Bool}
    (hn : bits.length = n) (hf : ∀ i < n, f (s + i) = bits.getD i false) : bitsAt buf' s n = bits := by
  apply ext_getElem (by simp [hn])
  intro i h1 h2
  simp only [Tdlib.bitsAt, getElem_map, getElem_range]
  rw [h.bits, if_pos (by omega), hf i (by omega), getD_eq_getElem _ _ h2]

theorem fetchByte_cons (x : UInt8) (rest : Bytes) (len : Nat) (err : Option (String × Nat)) :
    fetchByte ⟨x :: rest, len, err⟩ = (x, ⟨rest, len, err⟩) := by
  have h := fetchBinary_append [x] rest len err
  rfl

theorem skipPadding_append (n : Nat) (rest : Bytes) (len : Nat) (err : Option (String × Nat)) :
    skipPadding n ⟨padding n ++ rest, len, err⟩ = ⟨rest, len, err⟩ := by
  have key : ∀ k, Nat.iterate (fun parser => (fetchBinary 1 parser).2) k
      ⟨List.replicate k 0 ++ rest, len, err⟩ = ⟨rest, len, err⟩ := by
    intro k
    induction k with
    | zero => rfl
    | succ k ih =>
      have h := fetchBinary_append [0] (List.replicate k 0 ++ rest) len err
      rw [length_singleton, singleton_append] at h
      exact ih
  exact key _

/-! ## A stored string reads back -/

section

variable {buf : Bytes} {s n : Nat}

theorem orAt_wrote (n lo : Nat) (idx : Int) (x m : UInt8) {k hi : Nat}
    (hidx : ((((s + 7) / 8 : Nat) : Int) + idx).toNat = k) (hk : k < buf.length) (hhi : hi ≤ 8)
    (hm : ∀ j < 8, byteBit m j = (decide (lo ≤ j) && decide (j < hi)))
    (zero : ∀ i, 8 * k + lo ≤ i → i < 8 * k + hi → bitAt buf i = false) :
    ∃ buf', (view buf s n).orAt idx (x &&& m) = view buf' s n ∧
      Wrote buf buf' (8 * k + lo) (hi - lo) fun i => byteBit x (i % 8) := by
  refine ⟨buf.set k (buf.getD k 0 ||| (x &&& m)), ?_, wrote_or hk hhi hm zero⟩
  rw [orAt_view, byteAt_view, hidx]

/-- The byte a string starts in, read from the stored bytes `K`. -/
theorem fetchMasked_first (K more : Bytes) (len : Nat) (hb : s + n ≤ 8 * buf.length) (hn : headBits s ≤ n)
    (hK : inByte (s % 8) ≤ K.length) (zero : ∀ i, s ≤ i → i < s + n → bitAt buf i = false) :
    ∃ buf', (view buf s n).fetchMasked (s % 8) (beginMask (s % 8)) (-1) ⟨K ++ more, len, none⟩ =
        (view buf' s n, ⟨K.drop (inByte (s % 8)) ++ more, len, none⟩) ∧
      Wrote buf buf' s (headBits s) fun i => bitAt K (i - 8 * (s / 8)) := by
  by_cases h0 : s % 8 = 0
  · refine ⟨buf, ?_, ?_⟩
    · rw [fetchMasked, if_neg (by simpa using h0), inByte, if_pos h0, drop_zero]
    · have hhead : headBits s = 0 := if_pos h0
      rw [hhead]
      exact .nil ..
  · have hhead := headBits_of_ne h0
    have hone : inByte (s % 8) = 1 := if_neg h0
    obtain ⟨x, K, rfl⟩ : ∃ x K', K = x :: K' := exists_cons_of_length_pos (by omega)
    obtain ⟨buf', hor, hwrote⟩ := orAt_wrote n (s % 8) (-1) x (beginMask (s % 8))
      (byteIndex_first h0) (by omega) (Nat.le_refl 8)
      (fun j hj => by rw [byteBit_beginMask (by omega) hj, decide_eq_true hj, Bool.and_true])
      (fun i h1 h2 => zero i (by omega) (by omega))
    rw [Nat.div_add_mod, ← hhead] at hwrote
    refine ⟨buf', ?_, hwrote.congr fun i h1 h2 => ?_⟩
    · simp [fetchMasked, h0, cons_append, fetchByte_cons, hone, drop_succ_cons, drop_zero, hor]
    · have hbyte : (i - 8 * (s / 8)) / 8 = 0 := by omega
      have hbit : (i - 8 * (s / 8)) % 8 = i % 8 := by omega
      rw [bitAt, hbyte, hbit]
      rfl

theorem fetchMasked_last (n w : Nat) {e : Nat} (K more : Bytes) (len : Nat)
    (hb : s + headBits s + 8 * w + e ≤ 8 * buf.length) (he : e < 8) (hK : inByte e ≤ K.length)
    (zero : ∀ i, s + headBits s + 8 * w ≤ i → i < s + headBits s + 8 * w + e → bitAt buf i = false) :
    ∃ buf', (view buf s n).fetchMasked e (endMask e) w ⟨K ++ more, len, none⟩ =
        (view buf' s n, ⟨K.drop (inByte e) ++ more, len, none⟩) ∧
      Wrote buf buf' (s + headBits s + 8 * w) e fun i => bitAt K (i - (s + headBits s + 8 * w)) := by
  by_cases h0 : e = 0
  · refine ⟨buf, ?_, ?_⟩
    · rw [fetchMasked, if_neg (by simpa using h0), inByte, if_pos h0, drop_zero]
    · rw [h0]
      exact .nil ..
  · have hq := eight_mul_ptr s
    have hone : inByte e = 1 := if_neg h0
    obtain ⟨x, K, rfl⟩ : ∃ x K', K = x :: K' := exists_cons_of_length_pos (by omega)
    obtain ⟨buf', hor, hwrote⟩ := orAt_wrote n 0 w x (endMask e)
      (byteIndex s w) (by omega) he.le (fun j hj => by rw [byteBit_endMask he.le hj]; simp)
      (fun i h1 h2 => zero i (by omega) (by omega))
    have hstart : 8 * ((s + 7) / 8 + w) + 0 = s + headBits s + 8 * w := by omega
    rw [hstart, Nat.sub_zero] at hwrote
    refine ⟨buf', ?_, hwrote.congr fun i h1 h2 => ?_⟩
    · simp [fetchMasked, h0, cons_append, fetchByte_cons, hone, drop_succ_cons, drop_zero, hor]
    · have hbyte : (i - (s + headBits s + 8 * w)) / 8 = 0 := by omega
      have hbit : (i - (s + headBits s + 8 * w)) % 8 = i % 8 := by omega
      rw [bitAt, hbyte, hbit]
      rfl

/-- The bytes of a string, read into a part of the buffer that is still zero. -/
theorem fetchBody_packBits (bits : List Bool) (rest : Bytes) (len : Nat) (hn : bits.length = n)
    (hb : s + n ≤ 8 * buf.length) (zero : ∀ i, s ≤ i → i < s + n → bitAt buf i = false) :
    ∃ buf', (view buf s n).fetchBody
        ⟨packBits (s % 8) bits ++ (padding (packBits (s % 8) bits).length ++ rest), len, none⟩ =
        (view buf' s n, ⟨rest, len, none⟩) ∧
      Wrote buf buf' s n fun i => bits.getD (i - s) false := by
  obtain ⟨K, hK⟩ : ∃ K, K = packBits (s % 8) bits := ⟨_, rfl⟩
  have hlen : K.length = (s % 8 + n + 7) / 8 := by rw [hK, length_packBits, hn]
  have hbits : ∀ i, s ≤ i → bitAt K (i - 8 * (s / 8)) = bits.getD (i - s) false := by
    intro i hi
    rw [hK, bitAt_packBits, decide_eq_true (by omega), Bool.true_and]
    congr 1
    omega
  rw [← hK]
  by_cases hneg : (view buf s n).bytesSize = -1
  · have hval : (((s + n) / 8 : Nat) : Int) - (((s + 7) / 8 : Nat) : Int) = -1 := hneg
    obtain ⟨x, hx⟩ : ∃ x, K = [x] := length_eq_one_iff.mp (by omega)
    have h0 : s % 8 ≠ 0 := by omega
    have hsize : (s + n) % 8 - s % 8 = n := by omega
    obtain ⟨buf', hor, hwrote⟩ := orAt_wrote n (s % 8) (-1) x (createMask (s % 8) ((s + n) % 8))
      (byteIndex_first h0) (by omega) (Nat.mod_lt (s + n) (by decide : 8 > 0)).le
      (fun j hj => by rw [createMask, byteBit_and, byteBit_beginMask (by omega) hj, byteBit_endMask (by omega) hj])
      (fun i h1 h2 => zero i (by omega) (by omega))
    rw [Nat.div_add_mod, hsize] at hwrote
    refine ⟨buf', ?_, hwrote.congr fun i h1 h2 => ?_⟩
    · simp [fetchBody, hneg, hx, fetchByte_cons, beginBit_view, endBit_view, hor,
        skipPadding_append]
    · have hbit : i - 8 * (s / 8) = i % 8 := by omega
      rw [← hbits i h1, hx, bitAt_singleton _ (by omega), hbit]
  · obtain ⟨w, hw⟩ := exists_bytesSize hneg
    have hsize := size_split (hw.symm.trans rfl)
    have hq := eight_mul_ptr s
    obtain ⟨e, he⟩ : ∃ e, e = (s + n) % 8 := ⟨_, rfl⟩
    have he8 : e < 8 := by omega
    have hf8 := eight_mul_inByte s
    have hlen' : K.length = inByte (s % 8) + w + inByte e := by rw [hlen, bytes_of_split hsize, he]
    rw [← he] at hsize
    obtain ⟨f, hf⟩ : ∃ f, f = inByte (s % 8) := ⟨_, rfl⟩
    obtain ⟨buf1, h1, w1⟩ := fetchMasked_first K (padding K.length ++ rest) len hb (by omega) (by omega) zero
    -- the whole bytes
    have hmid : ((K.drop f).take w).length = w := by simp; omega
    have hdrop : K.drop f = (K.drop f).take w ++ K.drop (f + w) := by
      rw [← drop_drop, take_append_drop]
    have w2 := wrote_copy buf1 ((K.drop f).take w) ((s + 7) / 8) (by rw [w1.length, hmid]; omega)
    obtain ⟨buf2, hbuf2⟩ : ∃ buf2, buf2 =
        buf1.take ((s + 7) / 8) ++ (K.drop f).take w ++ buf1.drop ((s + 7) / 8 + ((K.drop f).take w).length) :=
      ⟨_, rfl⟩
    rw [← hbuf2, hq, hmid] at w2
    have zero2 : ∀ i, s + headBits s + 8 * w ≤ i → i < s + headBits s + 8 * w + e → bitAt buf2 i = false := by
      intro i hlo hhi
      rw [w2.bits, if_neg (by omega), w1.bits, if_neg (by omega), zero i (by omega) (by omega)]
    obtain ⟨buf3, h3, w3⟩ := fetchMasked_last n w (K.drop (f + w)) (padding K.length ++ rest) len
      (by rw [w2.length, w1.length]; omega) he8 (by simp; omega) zero2
    refine ⟨buf3, ?_, ?_⟩
    · have hraw := fetchStringRaw_append hmid (K.drop (f + w) ++ (padding K.length ++ rest)) len
      rw [← append_assoc, ← hdrop] at hraw
      have hend : (K.drop (f + w)).drop (inByte e) = [] := by simp; omega
      have hsize1 : ∀ {b : Bytes}, (view b s n).bytesSize = w := hw
      rw [hend, nil_append] at h3
      rw [fetchBody, if_neg hneg]
      simp only [beginBit_view, endBit_view, h1, hsize1, ← he, Int.toNat_natCast, ← hf, hraw, copyFrom_view,
        ← hbuf2, h3]
      rw [hf, ← hlen', skipPadding_append]
    · have hw3 := (w1.trans w2).trans (by rw [← Nat.add_assoc]; exact w3)
      rw [← hsize] at hw3
      refine hw3.congr fun i hlo hhi => ?_
      rw [← hbits i hlo]
      split_ifs with hi2 hi1
      · rfl
      · rw [bitAt_take (by omega), bitAt_drop]
        congr 1
        omega
      · rw [bitAt_drop]
        congr 1
        omega

theorem header_fields {b : Nat} (hn : b + n < 2 ^ 16) :
    (b * 2 ^ 16 + (b + n)) >>> 16 = b ∧ (b * 2 ^ 16 + (b + n)) % 2 ^ 16 = b + n ∧
      (b + n + 2 ^ 64 - b) % 2 ^ 64 = n := by
  refine ⟨?_, ?_, ?_⟩
  · omega
  · rw [Nat.mul_add_mod_self_right, Nat.mod_eq_of_lt hn]
  · omega

theorem fetch_of_fetchInt {p p' : TlParser} {beginEnd : Nat} {baseBs : BitString}
    (hint : p.fetchInt = (beginEnd, p')) (hdata : baseBs.data.isSome = true) :
    fetch p baseBs = (do
      let bs ← baseBs.substr 0 ((beginEnd % 2 ^ 16 + 2 ^ 64 - beginEnd >>> 16) % 2 ^ 64)
      pure (bs.fetchBody p')) := by
  rw [fetch, hint]
  simp [hdata]

/-- **A stored bit string reads back**, into a part of a buffer that is still
zero. -/
theorem fetch_encodeBits {bits : List Bool} {size : Nat} (rest : Bytes) (len : Nat) (hn : bits.length ≤ size)
    (hsize : s % 8 + size < 2 ^ 16) (hb : s + size ≤ 8 * buf.length)
    (zero : ∀ i, s ≤ i → i < s + size → bitAt buf i = false) :
    ∃ buf', fetch ⟨encodeBits (s % 8) bits ++ rest, len, none⟩ (view buf s size) =
        .ok (view buf' s bits.length, ⟨rest, len, none⟩) ∧
      Wrote buf buf' s bits.length fun i => bits.getD (i - s) false := by
  have hfits : s + bits.length ≤ 8 * buf.length := by omega
  have hshort : s % 8 + bits.length < 2 ^ 16 := by omega
  obtain ⟨buf', hbody, hwrote⟩ := fetchBody_packBits bits rest len rfl hfits fun i h1 h2 => zero i h1 (by omega)
  refine ⟨buf', ?_, hwrote⟩
  have hhead := header_eq hshort
  have hint := fetchInt_append (n := s % 8 * 2 ^ 16 + (s % 8 + bits.length)) (by omega)
    (packBits (s % 8) bits ++ (padding (packBits (s % 8) bits).length ++ rest)) len none
  obtain ⟨hbegin, hend, hlength⟩ := header_fields hshort
  rw [encodeBits, hhead, append_assoc, append_assoc, fetch_of_fetchInt hint rfl, hbegin, hend, hlength,
    substr_view buf (by omega) (Nat.zero_le _), Nat.add_zero, Nat.sub_zero, Nat.min_eq_left hn, ok_bind,
    pure_def, hbody]

end

/-! ## Reading any bytes -/

/-- Nothing changed before bit `s`. -/
structure Frame (buf buf' : Bytes) (s : Nat) : Prop where
  length : buf'.length = buf.length
  bits : ∀ i < s, bitAt buf' i = bitAt buf i

theorem Frame.refl (buf : Bytes) (s : Nat) : Frame buf buf s := ⟨rfl, fun _ _ => rfl⟩

theorem Frame.trans {s t : Nat} (h : Frame buf1 buf2 s) (h' : Frame buf2 buf3 t) (hst : s ≤ t) : Frame buf1 buf3 s :=
  ⟨h'.length.trans h.length, fun i hi => (h'.bits i (by omega)).trans (h.bits i hi)⟩

theorem Frame.bitsAt {s t n : Nat} (h : Frame buf buf' t) (hn : s + n ≤ t) : bitsAt buf' s n = bitsAt buf s n := by
  rw [bitsAt_eq_iff]
  intro i hi
  exact h.bits _ (by omega)

section

variable {buf : Bytes} {s n : Nat}

theorem orAt_frame (buf : Bytes) (n lo : Nat) (idx : Int) (x m : UInt8) {k : Nat}
    (hidx : ((((s + 7) / 8 : Nat) : Int) + idx).toNat = k) (hk : k < buf.length)
    (hm : ∀ j < lo, byteBit m j = false) (hs : s ≤ 8 * k + lo) :
    ∃ buf', (view buf s n).orAt idx (x &&& m) = view buf' s n ∧ Frame buf buf' s := by
  refine ⟨buf.set k (buf.getD k 0 ||| (x &&& m)), ?_, List.length_set, fun i hi => ?_⟩
  · rw [orAt_view, byteAt_view, hidx]
  · rw [bitAt_set_or _ _ _ _ hk, byteBit_and]
    by_cases h : i / 8 = k
    · rw [hm _ (by omega)]; simp
    · simp [h]

/-- Where the parser is after one more byte, or none. -/
def afterMasked (bit : Nat) (p : TlParser) : TlParser := if bit ≠ 0 then (fetchByte p).2 else p

/-- Where the parser is after the bytes of a string. -/
def afterBody (beginBit endBit : Nat) (bytesSize : Int) (p : TlParser) : TlParser :=
  if bytesSize = -1 then skipPadding 1 (fetchByte p).2
  else
    skipPadding (inByte beginBit + bytesSize.toNat + inByte endBit)
      (afterMasked endBit ((afterMasked beginBit p).fetchStringRaw bytesSize.toNat).2)

theorem fetchMasked_frame (buf : Bytes) (n lo bit : Nat) (idx : Int) (m : UInt8) (p : TlParser) {k : Nat}
    (hidx : ((((s + 7) / 8 : Nat) : Int) + idx).toNat = k) (hk : bit ≠ 0 → k < buf.length)
    (hm : ∀ j < lo, byteBit m j = false) (hs : bit ≠ 0 → s ≤ 8 * k + lo) :
    ∃ buf', (view buf s n).fetchMasked bit m idx p = (view buf' s n, afterMasked bit p) ∧ Frame buf buf' s := by
  by_cases h0 : bit = 0
  · exact ⟨buf, by rw [fetchMasked, if_neg (by simpa using h0), afterMasked, if_neg (by simpa using h0)], .refl ..⟩
  · obtain ⟨buf', hor, hframe⟩ := orAt_frame buf n lo idx (fetchByte p).1 m hidx (hk h0) hm (hs h0)
    exact ⟨buf', by rw [fetchMasked, if_pos h0, afterMasked, if_pos h0, ← hor], hframe⟩

theorem length_fetchStringRaw (size : Nat) (p : TlParser) : (p.fetchStringRaw size).1.length ≤ size := by
  simp only [fetchStringRaw]
  split
  · simp
  · split <;> simp

/-- Whatever the parser is at, the bytes it gives go to the bits of the string. -/
theorem fetchBody_view (p : TlParser) (hb : s + n ≤ 8 * buf.length) : ∃ buf', (view buf s n).fetchBody p =
        (view buf' s n, afterBody (s % 8) ((s + n) % 8) (view buf s n).bytesSize p) ∧ Frame buf buf' s := by
  by_cases hneg : (view buf s n).bytesSize = -1
  · have hval : (((s + n) / 8 : Nat) : Int) - (((s + 7) / 8 : Nat) : Int) = -1 := hneg
    have h0 : s % 8 ≠ 0 := by omega
    obtain ⟨buf', hor, hframe⟩ := orAt_frame buf n (s % 8) (-1) (fetchByte p).1 (createMask (s % 8) ((s + n) % 8))
      (byteIndex_first h0) (by omega)
      (fun j hj => by rw [createMask, byteBit_and, byteBit_beginMask (by omega) (by omega)]; simp; omega) (by omega)
    exact ⟨buf', by rw [fetchBody, if_pos hneg, afterBody, if_pos hneg, ← hor]; rfl, hframe⟩
  · obtain ⟨w, hw⟩ := exists_bytesSize hneg
    have hw' : (w : Int) = (((s + n) / 8 : Nat) : Int) - (((s + 7) / 8 : Nat) : Int) := hw.symm
    have hsize1 : ∀ {b : Bytes}, (view b s n).bytesSize = w := hw
    have hfirst : ((((s + 7) / 8 : Nat) : Int) + -1).toNat = (s + 7) / 8 - 1 := by omega
    obtain ⟨buf1, h1, f1⟩ := fetchMasked_frame buf n (s % 8) (s % 8) (-1) (beginMask (s % 8)) p hfirst (by omega)
      (fun j hj => by rw [byteBit_beginMask (by omega) (by omega)]; simp; omega) (by omega)
    obtain ⟨raw, hraw⟩ : ∃ raw, raw = (afterMasked (s % 8) p).fetchStringRaw w := ⟨_, rfl⟩
    have hrawlen : raw.1.length ≤ w := hraw ▸ length_fetchStringRaw w _
    have w2 := wrote_copy buf1 raw.1 ((s + 7) / 8) (by rw [f1.length]; omega)
    obtain ⟨buf2, hbuf2⟩ : ∃ buf2, buf2 =
        buf1.take ((s + 7) / 8) ++ raw.1 ++ buf1.drop ((s + 7) / 8 + raw.1.length) := ⟨_, rfl⟩
    rw [← hbuf2] at w2
    have f2 : Frame buf1 buf2 s := ⟨w2.length, fun i hi => by rw [w2.bits, if_neg (by omega)]⟩
    obtain ⟨buf3, h3, f3⟩ := fetchMasked_frame buf2 n 0 ((s + n) % 8) w (endMask ((s + n) % 8)) raw.2
      (byteIndex s w) (by rw [f2.length, f1.length]; omega) (by omega) (by omega)
    refine ⟨buf3, ?_, (f1.trans f2 (Nat.le_refl s)).trans f3 (Nat.le_refl s)⟩
    simp [fetchBody, afterBody, beginBit_view, endBit_view, h1, hsize1, Int.toNat_natCast, ← hraw, copyFrom_view,
      ← hbuf2, h3]

/-- The length in the header of a stored string, as `size_t` arithmetic gives it. -/
def headerLength (beginEnd : Nat) : Nat := (beginEnd % 2 ^ 16 + 2 ^ 64 - beginEnd >>> 16) % 2 ^ 64

/-- Where the parser is after a bit string of at most `size` bits. -/
def afterBits (beginBit size : Nat) (p : TlParser) : Nat × TlParser :=
  let len := min (headerLength p.fetchInt.1) size
  (len, afterBody beginBit ((beginBit + len) % 8)
    ((((beginBit + len) / 8 : Nat) : Int) - (((beginBit + 7) / 8 : Nat) : Int)) p.fetchInt.2)

/-- **Any bytes.** A bit string is read inside its base, the bits before it
stay as they are, and nothing depends on what the buffer held. -/
theorem fetch_view (p : TlParser) (hn : n + 8 ≤ 2 ^ 64) (hb : s + n ≤ 8 * buf.length) : ∃ buf', fetch p (view buf s n) =
        .ok (view buf' s (afterBits (s % 8) n p).1, (afterBits (s % 8) n p).2) ∧ Frame buf buf' s := by
  obtain ⟨len, hlen⟩ : ∃ len, len = min (headerLength p.fetchInt.1) n := ⟨_, rfl⟩
  have hfits : s + len ≤ 8 * buf.length := by omega
  obtain ⟨buf', hbody, hframe⟩ := fetchBody_view p.fetchInt.2 hfits
  have hbytes : (view buf s len).bytesSize =
      (((s % 8 + len) / 8 : Nat) : Int) - (((s % 8 + 7) / 8 : Nat) : Int) := by simp only [view]; omega
  have hend : (s + len) % 8 = (s % 8 + len) % 8 := by omega
  refine ⟨buf', ?_, hframe⟩
  rw [fetch]
  simp only [data_view, Option.isSome_some, if_true]
  rw [substr_view buf hn (Nat.zero_le _), Nat.add_zero, Nat.sub_zero]
  simp only [ok_bind, pure_def, afterBits, ← hlen]
  rw [headerLength] at hlen
  rw [← hlen, hbody, hbytes, hend]

end

end Tdlib.E2e.BitString
