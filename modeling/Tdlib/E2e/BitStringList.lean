/-
Bit strings as lists of bits.

What a chain of `substr` calls cuts out of a byte string is a view of its
bytes, so each operation on it is the one on its list of bits. On the wire the
first bit and the end have 16 bits each: a string that ends at bit 2^16 or
later is not read back.
-/
import Tdlib.E2e.BitStringFetch

namespace Tdlib.E2e.BitString

open Outcome TlParser

def serializeForNetwork (bs : BitString) : Bytes := bs.store

def fetchFromNetwork (data : Bytes) : Outcome BitString := do
  let (bs, parser) ← fetch (TlParser.new data) null
  parser.fetchEnd.getStatus
  pure bs

/-- The bits that `get_bit` gives. -/
def bitList (bs : BitString) : Outcome (List Bool) :=
  (List.range bs.bitsSize).mapM fun pos => do
    let bit ← bs.getBit pos
    pure (bit == 1)

/-- A string that a chain of `substr` calls cuts out of `key_data`. -/
inductive Part (keyData : Bytes) : BitString → Prop
  | ofSlice {bs : BitString} : BitString.ofSlice keyData = .ok bs → Part keyData bs
  | substr {bs bs' : BitString} {pos length : Nat} : Part keyData bs → bs.substr pos length = .ok bs' → Part keyData bs'

/-- The bytes of the string are in its buffer: the one before `data_` when it
starts inside a byte, the whole ones, and the one it ends in. -/
def InBuffer (bs : BitString) : Prop :=
  ∀ i : Int, i = -1 ∧ bs.beginBit ≠ 0 ∨ 0 ≤ i ∧ i < bs.bytesSize ∨ i = bs.bytesSize ∧ bs.endBit ≠ 0 →
    0 ≤ bs.ptr + i ∧ bs.ptr + i < ((bs.data.getD []).length : Int)

variable {keyData buf : Bytes} {bs : BitString} {s n : Nat}

theorem Part.view (h : Part keyData bs) (hlen : keyData.length < 2 ^ 31) :
    ∃ s n, bs = view keyData s n ∧ s + n ≤ 8 * keyData.length := by
  induction h with
  | ofSlice heq =>
    rw [BitString.ofSlice, create_none (by omega)] at heq
    cases heq
    exact ⟨0, keyData.length * 8, rfl, by omega⟩
  | @substr bs bs' pos length _ heq ih =>
    obtain ⟨s, n, rfl, hin⟩ := ih
    by_cases hpos : pos ≤ n
    · rw [substr_view keyData (by omega) hpos] at heq
      cases heq
      exact ⟨s + pos, min length (n - pos), rfl, by omega⟩
    · rw [substr_view_fatal keyData (by omega)] at heq
      cases heq

theorem bitList_view (buf : Bytes) (s n : Nat) : (view buf s n).bitList = .ok (bitsAt buf s n) := by
  apply mapM_eq_ok
  intro pos hpos
  rw [getBit_view (n := n) buf (List.mem_range.mp hpos)]
  cases bitAt buf (s + pos) <;> rfl

theorem inBuffer_view (hb : s + n ≤ 8 * buf.length) : (view buf s n).InBuffer := by
  intro i
  simp only [view, Option.getD_some]
  omega

theorem length_store_mod (hb : s + n ≤ 8 * buf.length) : (view buf s n).serializeForNetwork.length % 4 = 0 := by
  rw [serializeForNetwork, store_view buf hb, encodeBits]
  simp only [List.length_append, length_leBytes, length_padding]
  omega

/-- Strings of different sizes are different, whatever their position. -/
theorem equals_bits {buf' : Bytes} {s' n' : Nat} (hs : s % 8 = s' % 8) (hb : s + n ≤ 8 * buf.length)
    (hb' : s' + n' ≤ 8 * buf'.length) :
    (view buf s n).equals (view buf' s' n') = .ok (decide (bitsAt buf s n = bitsAt buf' s' n')) := by
  by_cases hn : n = n'
  · subst hn
    exact equals_view hs hb hb'
  · have hne : bitsAt buf s n ≠ bitsAt buf' s' n' := fun heq => hn (by simpa using congrArg List.length heq)
    simp [equals, hn, hne]

theorem fetch_null {p p' : TlParser} {beginEnd : Nat} (hint : p.fetchInt = (beginEnd, p')) :
    fetch p null = (do
      let bs ← create none (beginEnd >>> 16) ((beginEnd % 2 ^ 16 + 2 ^ 64 - beginEnd >>> 16) % 2 ^ 64)
      pure (bs.fetchBody p')) := by
  rw [fetch, hint]
  simp [null]

theorem fetchFromNetwork_view (hb : s + n ≤ 8 * buf.length) (hn : s % 8 + n < 2 ^ 16) :
    ∃ z, fetchFromNetwork (view buf s n).serializeForNetwork = .ok z ∧ z.equals (view buf s n) = .ok true := by
  obtain ⟨b, hs⟩ : ∃ b, s % 8 = b := ⟨_, rfl⟩
  have hmod : b % 8 = b := by omega
  obtain ⟨xs, hxs⟩ : ∃ xs, bitsAt buf s n = xs := ⟨_, rfl⟩
  have hlen : xs.length = n := by rw [← hxs, length_bitsAt]
  -- the buffer that is allocated for the string is zero
  have hfits : b + n ≤ 8 * (List.replicate ((b + n + 7) / 8) (0 : UInt8)).length := by
    rw [List.length_replicate]
    omega
  obtain ⟨buf', hbody, hwrote⟩ := fetchBody_packBits xs [] (encodeBits b xs).length hlen hfits
    fun i _ _ => bitAt_replicate_zero ..
  rw [hs] at hn
  obtain ⟨hbegin, hend, hlength⟩ := header_fields hn
  refine ⟨view buf' b n, ?_, ?_⟩
  · have hint := fetchInt_append (n := b * 2 ^ 16 + (b + n)) (by omega)
      (packBits b xs ++ (padding (packBits b xs).length ++ [])) (encodeBits b xs).length none
    have hdata : leBytes 4 (b * 2 ^ 16 + (b + n)) ++ (packBits b xs ++ (padding (packBits b xs).length ++ [])) =
        encodeBits b xs := by rw [encodeBits, hlen, header_eq hn, List.append_nil, List.append_assoc]
    rw [hdata] at hint
    rw [hmod] at hbody
    rw [serializeForNetwork, store_view buf hb, hs, hxs, fetchFromNetwork, TlParser.new, fetch_null hint, hbegin, hend,
      hlength, create_none (by omega), hmod, ok_bind, pure_def, ok_bind, hbody]
    rfl
  · rw [equals_bits (by omega) (by rw [hwrote.length]; exact hfits) hb, hwrote.bitsAt hlen (by simp), hxs,
      decide_eq_true rfl]

/-- **Bit strings are lists of bits.** The operations on what is cut out of two byte
strings agree with those on the lists, no check fails and no byte outside the
buffer is read; what is sent has whole words, and reads back if it ends before
bit 2^16. -/
theorem part_refines_bits {a b : Bytes} {x y : BitString} (hx : Part a x) (hy : Part b y) (ha : a.length < 2 ^ 31)
    (hb : b.length < 2 ^ 31) :
    ∃ xs ys, x.bitList = .ok xs ∧ y.bitList = .ok ys ∧ xs.length = x.bitsSize ∧ x.InBuffer ∧
      (∀ pos len, pos ≤ xs.length →
        ∃ z, x.substr pos len = .ok z ∧ Part a z ∧ z.bitList = .ok ((xs.drop pos).take len)) ∧
      (x.beginBit = y.beginBit →
        x.equals y = .ok (decide (xs = ys)) ∧ x.commonPrefixLength y = .ok (lcp xs ys)) ∧
      x.serializeForNetwork.length % 4 = 0 ∧
      (x.beginBit + xs.length < 2 ^ 16 →
        ∃ z, fetchFromNetwork x.serializeForNetwork = .ok z ∧ z.equals x = .ok true) := by
  obtain ⟨s, n, hxv, hin⟩ := hx.view ha
  obtain ⟨s', n', rfl, hin'⟩ := hy.view hb
  subst hxv
  refine ⟨_, _, bitList_view .., bitList_view .., length_bitsAt .., inBuffer_view hin, ?_, ?_, length_store_mod hin, ?_⟩
  · intro pos len hpos
    rw [length_bitsAt] at hpos
    have hz : (view a s n).substr pos len = _ := substr_view a (by omega) hpos
    exact ⟨_, hz, hx.substr hz, by rw [bitList_view, take_drop_bitsAt]⟩
  · intro hs
    exact ⟨equals_bits hs hin hin', commonPrefixLength_view hs hin hin'⟩
  · intro hshort
    rw [length_bitsAt] at hshort
    exact fetchFromNetwork_view hin hshort

/-- Bits 3 to 12 of two bytes, and of them bits 2 to 6. -/
theorem part_refines_bits_cut : ∃ x xs z, (view [0xA5, 0x3C] 0 16).substr 3 10 = .ok x ∧ x.bitList = .ok xs ∧
    x.substr 2 5 = .ok z ∧ z.bitList = .ok ((xs.drop 2).take 5) ∧
    (xs.drop 2).take 5 = [true, false, true, false, false] ∧
    ∃ y, fetchFromNetwork x.serializeForNetwork = .ok y ∧ y.equals x = .ok true := by
  have hwhole : Part [0xA5, 0x3C] (view [0xA5, 0x3C] 0 16) := .ofSlice (by decide)
  have hx : (view [0xA5, 0x3C] 0 16).substr 3 10 = .ok _ := eq_ok_get _ (by decide +kernel)
  obtain ⟨xs, ys, hxs, -, hlen, -, hsubstr, -, -, hsent⟩ :=
    part_refines_bits (hwhole.substr hx) hwhole (by decide) (by decide)
  have hlength : xs.length = 10 := by rw [hlen]; decide +kernel
  obtain ⟨z, hz, -, hbits⟩ := hsubstr 2 5 (by omega)
  refine ⟨_, xs, z, hx, hxs, hz, hbits, ?_, hsent (by rw [hlength]; decide +kernel)⟩
  injection hxs.symm.trans (eq_ok_get _ (by decide +kernel)) with heq
  rw [heq]
  decide +kernel

/-- A string of 2^16 bits has the header of an empty one. -/
theorem fetchFromNetwork_long : (do
      let bs ← ofSlice (List.replicate 8192 0)
      fetchFromNetwork bs.serializeForNetwork) = .error "Too much data to fetch at 4" := by
  decide +kernel

end Tdlib.E2e.BitString
