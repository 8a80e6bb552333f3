/-
Masks of ready parts (`td/telegram/files/FileBitmask.h`, `FileBitmask.cpp`) and
the code in which they are kept (`zero_one_encode`, with `zero_encode` of the same kind,
`tdutils/td/utils/misc.cpp`).

A mask is read back from its code up to the prefix that was encoded, the code
depends on the set bits only, and the ready prefix behind an offset is as long as
it can be (`bitmask_spec`). The numbers have to fit into the types that they are
computed in.
-/
import Mathlib.Data.List.DropRight
import Tdlib.Lib.Bytes
import Tdlib.Lib.Outcome

namespace Tdlib.Files

open List hiding pure_def
open Outcome

/-! ## The code -/

/-- The inner loop of the encoders: `cnt` bytes `c` were seen, and `data` follows. -/
def countRun (c : UInt8) : Nat → Bytes → Nat
  | cnt, d :: data => if cnt < 250 ∧ d = c then countRun c (cnt + 1) data else cnt
  | cnt, [] => cnt

/-- The loop of `zero_encode` and `zero_one_encode`, which differ in the bytes that a count
follows. -/
def runEncodeLoop (isRunByte : UInt8 → Bool) : Nat → Bytes → Bytes
  | 0, _ => []
  | _ + 1, [] => []
  | fuel + 1, c :: data =>
    if isRunByte c then
      let cnt := countRun c 1 data
      c :: UInt8.ofNat cnt :: runEncodeLoop isRunByte fuel (data.drop (cnt - 1))
    else c :: runEncodeLoop isRunByte fuel data

def runEncode (isRunByte : UInt8 → Bool) (data : Bytes) : Bytes := runEncodeLoop isRunByte data.length data

/-- A run byte that is the last byte stands for itself. -/
def runDecode (isRunByte : UInt8 → Bool) : Bytes → Bytes
  | [] => []
  | [c] => [c]
  | c :: cnt :: data =>
    if isRunByte c then List.replicate cnt.toNat c ++ runDecode isRunByte data
    else c :: runDecode isRunByte (cnt :: data)

def zeroEncode : Bytes → Bytes := runEncode (· == 0)
def zeroDecode : Bytes → Bytes := runDecode (· == 0)
def zeroOneEncode : Bytes → Bytes := runEncode fun c => c == 0 || c == 0xff
def zeroOneDecode : Bytes → Bytes := runDecode fun c => c == 0 || c == 0xff

/-! ## Masks -/

structure Bitmask where
  data : Bytes
  deriving DecidableEq

namespace Bitmask

/-- `Bitmask(Decode, data)`. -/
def decode (data : Bytes) : Bitmask := ⟨zeroOneDecode data⟩

def size (mask : Bitmask) : Int := mask.data.length * 8

def get (mask : Bitmask) (offsetPart : Int) : Bool :=
  if offsetPart < 0 then false
  else
    let index := (offsetPart / 8).toNat
    if mask.data.length ≤ index then false
    else (mask.data.getD index 0).toNat &&& (1 <<< (offsetPart % 8).toNat) ≠ 0

def set (mask : Bitmask) (offsetPart : Int) : Outcome Bitmask := do
  .check (0 ≤ offsetPart)
  let needSize := (offsetPart / 8 + 1).toNat
  let data := mask.data ++ List.replicate (needSize - mask.data.length) 0
  pure ⟨data.set (needSize - 1) (UInt8.ofNat ((data.getD (needSize - 1) 0).toNat ||| (1 <<< (offsetPart % 8).toNat)))⟩

/-- What `encode` makes of the bytes before it looks at them: the bits of the last
byte that are beyond the prefix are cleared, and what is beyond that byte is cut
off. It returns the bytes, how many of them are looked at, and the byte that was
changed. The sum of an `int32` has to fit, and the byte has to exist. -/
def clearTail (mask : Bitmask) (prefixCount : Int) : Outcome (Bytes × Nat × Option (Nat × UInt8)) :=
  if prefixCount ≠ -1 then do
    .check (prefixCount + 7 < 2 ^ 31)
    let truncatedSize := (prefixCount + 7) / 8
    if prefixCount % 8 ≠ 0 then do
      .check (0 < truncatedSize ∧ truncatedSize ≤ mask.data.length)
      let saveI := (truncatedSize - 1).toNat
      let saveC := mask.data.getD saveI 0
      let cleared := UInt8.ofNat (saveC.toNat &&& (0xff >>> (8 - prefixCount % 8).toNat))
      pure (mask.data.set saveI cleared, truncatedSize.toNat, some (saveI, saveC))
    else pure (mask.data, truncatedSize.toNat, none)
  else pure (mask.data, mask.data.length, none)

/-- `encode`, with the mask that it leaves behind: the changed byte is put back. -/
def encode (mask : Bitmask) (prefixCount : Int) : Outcome (Bytes × Bitmask) := do
  let (data, size, saved) ← mask.clearTail prefixCount
  let code := zeroOneEncode ((data.take size).rdropWhile (· == 0))
  match saved with
  | none => pure (code, ⟨data⟩)
  | some (saveI, saveC) => pure (code, ⟨data.set saveI saveC⟩)

/-- The loop of `get_ready_parts`. -/
def readyPartsLoop (mask : Bitmask) (offsetPart : Int) : Nat → Int → Int
  | 0, res => res
  | fuel + 1, res => if mask.get (offsetPart + res) then readyPartsLoop mask offsetPart fuel (res + 1) else res

/-- `get_ready_parts`. No more parts are ready than the mask has bits. -/
def getReadyParts (mask : Bitmask) (offsetPart : Int) : Int := readyPartsLoop mask offsetPart (mask.data.length * 8) 0

/-- `get_ready_prefix_size`. The product of two `int64` has to fit. -/
def getReadyPrefixSize (mask : Bitmask) (offset partSize fileSize : Int) : Outcome Int :=
  if offset < 0 then pure 0
  else if partSize = 0 then pure 0
  else do
    .check (0 < partSize)
    let offsetPart := offset / partSize
    let ones := mask.getReadyParts offsetPart
    if ones = 0 then pure 0
    else do
      let readyPartsEnd := (offsetPart + ones) * partSize
      .check (readyPartsEnd < 2 ^ 63)
      let (readyPartsEnd, offset) :=
        if fileSize ≠ 0 ∧ fileSize < readyPartsEnd then (fileSize, if fileSize < offset then fileSize else offset)
        else (readyPartsEnd, offset)
      let res := readyPartsEnd - offset
      .check (0 ≤ res)
      pure res

/-- A mask after a sequence of calls of `set`. -/
def setAll (mask : Bitmask) (parts : List Int) : Outcome Bitmask := parts.foldlM set mask

end Bitmask

/-! ## The code is read back -/

/-- What is counted stands there, and its number is a byte. -/
theorem countRun_spec (c : UInt8) (cnt : Nat) (data : Bytes) (hcnt : cnt ≤ 250) :
    ∃ k, countRun c cnt data = cnt + k ∧ cnt + k ≤ 250 ∧ data = List.replicate k c ++ data.drop k := by
  induction data generalizing cnt with
  | nil => exact ⟨0, rfl, hcnt, rfl⟩
  | cons d data ih =>
    unfold countRun
    split
    next h =>
      obtain ⟨hlt, rfl⟩ := h
      obtain ⟨k, hk, hle, hdata⟩ := ih (cnt + 1) hlt
      refine ⟨k + 1, by omega, by omega, ?_⟩
      rw [replicate_succ, cons_append, drop_succ_cons, ← hdata]
    next => exact ⟨0, rfl, hcnt, rfl⟩

theorem runDecode_cons {isRunByte : UInt8 → Bool} {c : UInt8} (hc : ¬ isRunByte c) (data : Bytes) :
    runDecode isRunByte (c :: data) = c :: runDecode isRunByte data := by
  cases data with
  | nil => simp [runDecode]
  | cons cnt data => simp [runDecode, hc]

theorem runDecode_encodeLoop {isRunByte : UInt8 → Bool} {fuel : Nat} {data : Bytes} (hfuel : data.length ≤ fuel) :
    runDecode isRunByte (runEncodeLoop isRunByte fuel data) = data := by
  induction fuel generalizing data with
  | zero => rw [eq_nil_of_length_eq_zero (Nat.le_zero.mp hfuel)]; rfl
  | succ fuel ih =>
    cases data with
    | nil => rfl
    | cons c data =>
      rw [length_cons] at hfuel
      rw [runEncodeLoop]
      split
      next hrun =>
        obtain ⟨k, hk, hle, hdata⟩ := countRun_spec c 1 data (by omega)
        have hbyte : (UInt8.ofNat (1 + k)).toNat = k + 1 := by
          rw [UInt8.toNat_ofNat', Nat.mod_eq_of_lt (by omega), Nat.add_comm]
        rw [runDecode, if_pos hrun, ih (by rw [length_drop]; omega), hk, hbyte, Nat.add_sub_cancel_left,
          replicate_succ, cons_append, ← hdata]
      next hplain => rw [runDecode_cons hplain, ih (by omega)]

theorem runDecode_encode (isRunByte : UInt8 → Bool) (data : Bytes) :
    runDecode isRunByte (runEncode isRunByte data) = data :=
  runDecode_encodeLoop (Nat.le_refl _)

/-! ## Bits -/

/-- Bit `j` of bytes, the lowest bit of a byte first. Past the end all are zero. -/
def bitOf (data : Bytes) (j : Nat) : Bool := (data.getD (j / 8) 0).toNat.testBit (j % 8)

theorem and_shiftLeft_ne_zero (n k : Nat) : (n &&& 1 <<< k ≠ 0) ↔ n.testBit k = true := by
  rw [Nat.one_shiftLeft, Nat.and_two_pow]
  cases n.testBit k <;> simp

variable {data data' : Bytes}

/-- Bytes with the same bits are the same, up to zeros at the end. -/
theorem getD_eq_of_bitOf (h : ∀ j, bitOf data j = bitOf data' j) (i : Nat) : data.getD i 0 = data'.getD i 0 := by
  refine UInt8.toNat_inj.mp (Nat.eq_of_testBit_eq fun k => ?_)
  by_cases hk : k < 8
  · have hbit := h (8 * i + k)
    rwa [bitOf, bitOf, show (8 * i + k) / 8 = i by omega, show (8 * i + k) % 8 = k by omega] at hbit
  · have hpow : 2 ^ 8 ≤ 2 ^ k := Nat.pow_le_pow_right (by decide) (by omega)
    simp [Nat.testBit_lt_two_pow (Nat.lt_of_lt_of_le (UInt8.toNat_lt _) hpow)]

/-- Bytes without zeros at the end. -/
def stripped (data : Bytes) : Bytes := data.rdropWhile (· == 0)

theorem getD_stripped (data : Bytes) (i : Nat) : (stripped data).getD i 0 = data.getD i 0 := by
  have hzeros : ∀ x ∈ data.rtakeWhile (· == 0), x = 0 := fun x hx => by simpa using mem_rtakeWhile_imp hx
  have hsplit : stripped data ++ data.rtakeWhile (· == 0) = data := rdropWhile_append_rtakeWhile
  by_cases hi : i < (stripped data).length
  · conv_rhs => rw [← hsplit]
    rw [getD_append _ _ _ _ hi]
  · conv_rhs => rw [← hsplit]
    rw [getD_eq_default _ _ (by omega), getD_append_right _ _ _ _ (by omega)]
    by_cases hlast : i - (stripped data).length < (data.rtakeWhile (· == 0)).length
    · rw [getD_eq_getElem _ _ hlast, hzeros _ (getElem_mem _)]
    · rw [getD_eq_default _ _ (by omega)]

theorem bitOf_stripped (data : Bytes) (j : Nat) : bitOf (stripped data) j = bitOf data j := by
  rw [bitOf, bitOf, getD_stripped]

theorem length_stripped_le (h : ∀ i, data.getD i 0 = data'.getD i 0) :
    (stripped data).length ≤ (stripped data').length := by
  by_contra hlt
  have hne : stripped data ≠ [] := by
    intro hnil
    rw [hnil, length_nil] at hlt
    omega
  have hlast := rdropWhile_last_not (· == 0) data hne
  refine hlast ?_
  have hget : (stripped data).getD ((stripped data).length - 1) 0 = (stripped data).getLast hne := by
    rw [getD_eq_getElem _ _ (by omega), getLast_eq_getElem]
  have hzero : (stripped data).getD ((stripped data).length - 1) 0 = 0 := by
    rw [getD_stripped, h, ← getD_stripped, getD_eq_default _ _ (by omega)]
  show ((stripped data).getLast hne == 0) = true
  rw [← hget, hzero]
  rfl

theorem stripped_eq_of_bitOf (h : ∀ j, bitOf data j = bitOf data' j) : stripped data = stripped data' := by
  have hbytes := getD_eq_of_bitOf h
  refine ext_getElem (Nat.le_antisymm (length_stripped_le hbytes)
    (length_stripped_le fun i => (hbytes i).symm)) fun i hi hi' => ?_
  rw [← getD_eq_getElem _ 0 hi, ← getD_eq_getElem _ 0 hi', getD_stripped, getD_stripped, hbytes i]

namespace Bitmask

theorem get_natCast (mask : Bitmask) (j : Nat) : mask.get j = bitOf mask.data j := by
  have hindex : ((j : Int) / 8).toNat = j / 8 := by omega
  have hbit : ((j : Int) % 8).toNat = j % 8 := by omega
  rw [get, if_neg (by omega), hindex, hbit, bitOf]
  dsimp only
  split
  next hle => rw [getD_eq_default _ _ hle]; simp
  next =>
    rw [Bool.eq_iff_iff, decide_eq_true_iff]
    exact and_shiftLeft_ne_zero _ _

theorem get_of_neg (mask : Bitmask) {j : Int} (h : j < 0) : mask.get j = false := if_pos h

theorem get_eq_iff {mask mask' : Bitmask} :
    (∀ j, mask.get j = mask'.get j) ↔ ∀ j, bitOf mask.data j = bitOf mask'.data j := by
  constructor
  · intro h j
    rw [← get_natCast, ← get_natCast, h]
  · intro h j
    by_cases hj : j < 0
    · rw [get_of_neg _ hj, get_of_neg _ hj]
    · obtain ⟨n, rfl⟩ := Int.eq_ofNat_of_zero_le (Int.not_lt.mp hj)
      rw [get_natCast, get_natCast, h]

/-! ## Set and get -/

theorem bitOf_set {i : Nat} (hi : i < data.length) (c : UInt8) (j : Nat) :
    bitOf (data.set i c) j = if j / 8 = i then c.toNat.testBit (j % 8) else bitOf data j := by
  rw [bitOf, bitOf, getD_eq_getElem?_getD, getD_eq_getElem?_getD]
  split
  next h => rw [h, List.getElem?_set_self hi, Option.getD_some]
  next h => rw [List.getElem?_set_ne (Ne.symm h)]

theorem bitOf_append_zeros (data : Bytes) (n j : Nat) : bitOf (data ++ List.replicate n 0) j = bitOf data j := by
  rw [bitOf, bitOf]
  congr 2
  by_cases h : j / 8 < data.length
  · rw [getD_append _ _ _ _ h]
  · rw [getD_append_right _ _ _ _ (by omega), getD_eq_default _ _ (by omega : data.length ≤ j / 8)]
    rw [getD_eq_getElem?_getD, List.getElem?_replicate]
    split <;> rfl

/-- **A call of `set` sets one bit.** -/
theorem set_ok (mask : Bitmask) {part : Int} (hpart : 0 ≤ part) :
    ∃ mask', mask.set part = .ok mask' ∧ ∀ j, mask'.get j = (decide (j = part) || mask.get j) := by
  obtain ⟨n, rfl⟩ := Int.eq_ofNat_of_zero_le hpart
  have hneed : ((n : Int) / 8 + 1).toNat = n / 8 + 1 := by omega
  have hbit : ((n : Int) % 8).toNat = n % 8 := by omega
  rw [set, check_true hpart, ok_bind, hneed, hbit]
  refine ⟨_, rfl, fun j => ?_⟩
  by_cases hj : j < 0
  · rw [get_of_neg _ hj, get_of_neg _ hj, decide_eq_false (by omega)]
    rfl
  · obtain ⟨k, rfl⟩ := Int.eq_ofNat_of_zero_le (Int.not_lt.mp hj)
    rw [get_natCast, get_natCast, Nat.add_sub_cancel,
      bitOf_set (by rw [length_append, length_replicate]; omega), bitOf_append_zeros]
    split
    next hbyte =>
      rw [UInt8.toNat_ofNat', Nat.testBit_mod_two_pow, decide_eq_true (Nat.mod_lt k (by decide)), Bool.true_and,
        Nat.testBit_or, Nat.one_shiftLeft, Nat.testBit_two_pow, ← hbyte]
      grind [bitOf, Bool.or_comm]
    next hbyte => rw [decide_eq_false (by omega), Bool.false_or]

theorem setAll_ok (mask : Bitmask) {parts : List Int} (hparts : ∀ i ∈ parts, 0 ≤ i) :
    ∃ mask', mask.setAll parts = .ok mask' ∧ ∀ j, mask'.get j = (decide (j ∈ parts) || mask.get j) := by
  induction parts generalizing mask with
  | nil => exact ⟨mask, rfl, by simp⟩
  | cons part parts ih =>
    obtain ⟨mask1, hset, hget⟩ := mask.set_ok (hparts part mem_cons_self)
    obtain ⟨mask', hall, hget'⟩ := ih mask1 fun i hi => hparts i (mem_cons_of_mem _ hi)
    refine ⟨mask', ?_, fun j => ?_⟩
    · rw [setAll, foldlM_cons, hset, ok_bind]
      exact hall
    · rw [hget', hget]
      simp [Bool.or_assoc, Bool.or_left_comm]

/-! ## Encode and decode -/

theorem bitOf_take (data : Bytes) (n j : Nat) : bitOf (data.take n) j = (bitOf data j && decide (j < 8 * n)) := by
  rw [bitOf, bitOf, getD_eq_getElem?_getD, getD_eq_getElem?_getD]
  by_cases h : j < 8 * n
  · rw [List.getElem?_take_of_lt (by omega), decide_eq_true h, Bool.and_true]
  · rw [List.getElem?_take_eq_none (by omega), decide_eq_false h, Bool.and_false]
    simp

theorem testBit_shifted_ones {r k : Nat} (hr : r ≤ 8) : (0xff >>> (8 - r)).testBit k = decide (k < r) := by
  rw [Nat.testBit_shiftRight, show 0xff = 2 ^ 8 - 1 from rfl, Nat.testBit_two_pow_sub_one]
  exact decide_eq_decide.mpr (by omega)

theorem set_set_getD (data : Bytes) (i : Nat) (c : UInt8) : (data.set i c).set i (data.getD i 0) = data := by
  rw [set_set]
  refine ext_getElem (by simp) fun k hk hk' => ?_
  rw [getElem_set]
  split
  next h =>
    subst h
    rw [getD_eq_getElem _ _ hk']
  next => rfl

/-- The bits that `encode` looks at, and that it leaves the mask as it was. -/
theorem clearTail_ok (mask : Bitmask) {n : Nat} (hn : (n : Int) ≤ mask.size) (hfits : (n : Int) + 7 < 2 ^ 31) :
    ∃ data size saved, mask.clearTail n = .ok (data, size, saved) ∧
      (∀ j, bitOf (data.take size) j = (bitOf mask.data j && decide (j < n))) ∧
      match saved with
      | none => data = mask.data
      | some (saveI, saveC) => data.set saveI saveC = mask.data := by
  have hsize : (((n : Int) + 7) / 8).toNat = (n + 7) / 8 := by omega
  rw [size] at hn
  rw [clearTail, if_pos (by omega), check_true hfits, ok_bind]
  by_cases hrest : (n : Int) % 8 = 0
  · rw [if_neg (not_not_intro hrest)]
    refine ⟨_, _, none, rfl, fun j => ?_, rfl⟩
    grind [bitOf_take]
  · have hlast : (((n : Int) + 7) / 8 - 1).toNat = n / 8 := by omega
    have hbits : (8 - (n : Int) % 8).toNat = 8 - n % 8 := by omega
    rw [if_pos hrest, check_true (by omega), ok_bind, hlast, hbits, hsize]
    refine ⟨_, _, some _, rfl, fun j => ?_, set_set_getD _ _ _⟩
    rw [bitOf_take, bitOf_set (by omega)]
    split
    next hbyte =>
      rw [UInt8.toNat_ofNat', Nat.testBit_mod_two_pow, decide_eq_true (Nat.mod_lt j (by decide)), Bool.true_and,
        Nat.testBit_and, testBit_shifted_ones (by omega), ← hbyte, ← bitOf, Bool.and_assoc, ← Bool.decide_and]
      congr 1
      exact decide_eq_decide.mpr (by omega)
    next hbyte =>
      congr 1
      exact decide_eq_decide.mpr (by omega)

/-- A prefix count that `encode` can work with: that of the whole mask, or one
that is not beyond its end and fits. -/
def IsPrefixCount (mask : Bitmask) (prefixCount : Int) : Prop :=
  prefixCount = -1 ∨ 0 ≤ prefixCount ∧ prefixCount ≤ mask.size ∧ prefixCount + 7 < 2 ^ 31

/-- What `encode` returns, and that it leaves the mask as it was. -/
theorem encode_ok (mask : Bitmask) {prefixCount : Int} (hp : mask.IsPrefixCount prefixCount) :
    ∃ data, mask.encode prefixCount = .ok (zeroOneEncode (stripped data), mask) ∧
      ∀ j : Nat, bitOf data j = (bitOf mask.data j && decide (prefixCount = -1 ∨ (j : Int) < prefixCount)) := by
  rcases hp with rfl | ⟨hpos, hle, hfits⟩
  · refine ⟨mask.data, ?_, by simp⟩
    rw [encode, clearTail, if_neg (by decide)]
    dsimp only [pure_def]
    rw [ok_bind]
    rw [take_length]
    rfl
  · obtain ⟨n, rfl⟩ := Int.eq_ofNat_of_zero_le hpos
    obtain ⟨data, size, saved, htail, hbits, hrestore⟩ := mask.clearTail_ok hle hfits
    refine ⟨data.take size, ?_, fun j => ?_⟩
    · rw [encode, htail, ok_bind]
      cases saved with
      | none =>
        rw [hrestore]
        rfl
      | some saved =>
        dsimp only at hrestore ⊢
        rw [hrestore]
        rfl
    · rw [hbits, decide_eq_decide.mpr (show j < n ↔ (n : Int) = -1 ∨ (j : Int) < n by omega)]

/-! ## The ready prefix -/

theorem lt_size_of_get (mask : Bitmask) {j : Int} (h : mask.get j = true) : 0 ≤ j ∧ j < mask.size := by
  by_cases hneg : j < 0
  · rw [get_of_neg _ hneg] at h
    cases h
  · obtain ⟨n, rfl⟩ := Int.eq_ofNat_of_zero_le (Int.not_lt.mp hneg)
    refine ⟨by omega, ?_⟩
    by_contra hge
    rw [size] at hge
    rw [get_natCast, bitOf, getD_eq_default _ _ (by omega)] at h
    simp at h

theorem readyPartsLoop_spec (mask : Bitmask) (offsetPart : Int) (fuel : Nat) (res : Int) :
    res ≤ mask.readyPartsLoop offsetPart fuel res ∧
      (∀ k, res ≤ k → k < mask.readyPartsLoop offsetPart fuel res → mask.get (offsetPart + k) = true) ∧
      (mask.get (offsetPart + mask.readyPartsLoop offsetPart fuel res) = true →
        mask.readyPartsLoop offsetPart fuel res = res + fuel) := by
  induction fuel generalizing res with
  | zero =>
    simp_all [readyPartsLoop]
  | succ fuel ih =>
    rw [readyPartsLoop]
    split
    next hget =>
      obtain ⟨hle, hall, hfull⟩ := ih (res + 1)
      refine ⟨by omega, fun k hk hlt => ?_, fun h => by have := hfull h; omega⟩
      rcases Int.lt_or_eq_of_le hk with hk | rfl
      · exact hall k (by omega) hlt
      · exact hget
    next hget => exact ⟨Int.le_refl _, fun k _ _ => by omega, fun h => absurd h hget⟩

theorem getReadyParts_spec (mask : Bitmask) {offsetPart : Int} (hpos : 0 ≤ offsetPart) :
    0 ≤ mask.getReadyParts offsetPart ∧
      (∀ k, 0 ≤ k → k < mask.getReadyParts offsetPart → mask.get (offsetPart + k) = true) ∧
      mask.get (offsetPart + mask.getReadyParts offsetPart) = false := by
  obtain ⟨hle, hall, hfull⟩ := mask.readyPartsLoop_spec offsetPart (mask.data.length * 8) 0
  refine ⟨hle, hall, Bool.eq_false_iff.mpr fun hget => ?_⟩
  have hlt := (mask.lt_size_of_get hget).2
  rw [getReadyParts, hfull hget, size] at hlt
  omega

/-- The next `length` bytes from `offset` on are within ready parts and, if the
size of the file is known, within the file. -/
structure IsReady (mask : Bitmask) (offset partSize fileSize length : Int) : Prop where
  nonneg : 0 ≤ length
  parts : ∀ part, (∃ x, offset ≤ x ∧ x < offset + length ∧ part * partSize ≤ x ∧ x < (part + 1) * partSize) →
    mask.get part = true
  within : fileSize = 0 ∨ offset + length ≤ fileSize

/-- `length` is the greatest number of such bytes, and zero if there is none. -/
def IsReadyPrefixSize (mask : Bitmask) (offset partSize fileSize length : Int) : Prop :=
  mask.IsReady offset partSize fileSize length ∧
    (∀ length', mask.IsReady offset partSize fileSize length' → length' ≤ length) ∨
  length = 0 ∧ ∀ length', ¬ mask.IsReady offset partSize fileSize length'

section

variable {mask : Bitmask} {offset partSize fileSize stop : Int}

theorem part_bounds (hsize : 0 < partSize) (x : Int) :
    x / partSize * partSize ≤ x ∧ x < (x / partSize + 1) * partSize :=
  ⟨Int.ediv_mul_le x (Int.ne_of_gt hsize), Int.lt_ediv_add_one_mul_self x hsize⟩

theorem le_of_isReady (hsize : 0 < partSize) (hstop : offset ≤ stop) (hnot : mask.get (stop / partSize) = false)
    {length : Int} (h : mask.IsReady offset partSize fileSize length) : offset + length ≤ stop := by
  by_contra hlt
  obtain ⟨hlo, hhi⟩ := part_bounds hsize stop
  have hget := h.parts (stop / partSize) ⟨stop, hstop, by omega, hlo, hhi⟩
  rw [hnot] at hget
  cases hget

/-- Bytes up to `stop`, of which each is in a ready part, and no more. -/
theorem isReadyPrefixSize_of_stop (mask : Bitmask) (fileSize : Int) (hsize : 0 < partSize) (hstop : offset ≤ stop)
    (hready : ∀ part, (∃ x, offset ≤ x ∧ x < stop ∧ part * partSize ≤ x ∧ x < (part + 1) * partSize) →
      mask.get part = true) (hnot : mask.get (stop / partSize) = false) :
    (fileSize = 0 ∨ stop ≤ fileSize → mask.IsReadyPrefixSize offset partSize fileSize (stop - offset)) ∧
    (fileSize ≠ 0 → offset ≤ fileSize → fileSize ≤ stop →
      mask.IsReadyPrefixSize offset partSize fileSize (fileSize - offset)) ∧
    (fileSize ≠ 0 → fileSize < offset → mask.IsReadyPrefixSize offset partSize fileSize 0) := by
  refine ⟨fun hwithin => ?_, fun hknown hle hshort => ?_, fun hknown hlt => ?_⟩
  · refine .inl ⟨⟨by omega, fun part ⟨x, h1, h2, h3⟩ => hready part ⟨x, h1, by omega, h3⟩, by omega⟩, ?_⟩
    intro length' h
    have := le_of_isReady hsize hstop hnot h
    omega
  · refine .inl ⟨⟨by omega, fun part ⟨x, h1, h2, h3⟩ => hready part ⟨x, h1, by omega, h3⟩, by omega⟩, ?_⟩
    intro length' h
    have := h.within
    omega
  · refine .inr ⟨rfl, fun length' h => ?_⟩
    have := h.within
    have := h.nonneg
    omega

/-- **The ready prefix**, when the ends of the ready parts fit into an `int64`. -/
theorem getReadyPrefixSize_ok (mask : Bitmask) (hoffset : 0 ≤ offset) (hsize : 0 < partSize)
    (hfits : ∀ part, mask.get part = true → (part + 1) * partSize < 2 ^ 63) :
    ∃ length, mask.getReadyPrefixSize offset partSize fileSize = .ok length ∧
      mask.IsReadyPrefixSize offset partSize fileSize length := by
  have hpart : 0 ≤ offset / partSize := Int.ediv_nonneg hoffset (Int.le_of_lt hsize)
  obtain ⟨hlo, hhi⟩ := part_bounds hsize offset
  obtain ⟨hones, hall, hnot⟩ := mask.getReadyParts_spec hpart
  rw [getReadyPrefixSize, if_neg (by omega), if_neg (by omega), check_true hsize, ok_bind]
  dsimp only
  generalize mask.getReadyParts (offset / partSize) = ones at hones hall hnot
  by_cases hzero : ones = 0
  · rw [if_pos hzero]
    rw [hzero, Int.add_zero] at hnot
    have hstop := isReadyPrefixSize_of_stop mask fileSize hsize (Int.le_refl offset)
      (fun part ⟨x, h1, h2, _⟩ => by omega) hnot
    refine ⟨0, rfl, ?_⟩
    by_cases hfile : fileSize ≠ 0 ∧ fileSize < offset
    · exact hstop.2.2 hfile.1 hfile.2
    · have hwhole := hstop.1 (by omega)
      rwa [Int.sub_self] at hwhole
  · rw [if_neg hzero]
    have hend : (offset / partSize + 1) * partSize ≤ (offset / partSize + ones) * partSize :=
      Int.mul_le_mul_of_nonneg_right (by omega) (Int.le_of_lt hsize)
    have hlast := hfits (offset / partSize + (ones - 1)) (hall (ones - 1) (by omega) (by omega))
    rw [show offset / partSize + (ones - 1) + 1 = offset / partSize + ones by omega] at hlast
    have hready : ∀ part, (∃ x, offset ≤ x ∧ x < (offset / partSize + ones) * partSize ∧ part * partSize ≤ x ∧
        x < (part + 1) * partSize) → mask.get part = true := by
      intro part ⟨x, h1, h2, h3, h4⟩
      have hfirst : offset / partSize < part + 1 := Int.lt_of_mul_lt_mul_right (by omega) (Int.le_of_lt hsize)
      have hbelow : part < offset / partSize + ones := Int.lt_of_mul_lt_mul_right (by omega) (Int.le_of_lt hsize)
      have hget := hall (part - offset / partSize) (by omega) (by omega)
      rwa [show offset / partSize + (part - offset / partSize) = part by omega] at hget
    rw [← Int.mul_ediv_cancel (offset / partSize + ones) (Int.ne_of_gt hsize)] at hnot
    generalize (offset / partSize + ones) * partSize = stop at *
    obtain ⟨hwhole, hcut, hnone⟩ := isReadyPrefixSize_of_stop mask fileSize hsize
      (show offset ≤ stop by omega) hready hnot
    rw [check_true hlast, ok_bind]
    by_cases hfile : fileSize ≠ 0 ∧ fileSize < stop
    · rw [if_pos hfile]
      by_cases hbeyond : fileSize < offset
      · simp_all
      · rw [if_neg hbeyond, check_true (by omega), ok_bind]
        exact ⟨_, rfl, hcut hfile.1 (by omega) (by omega)⟩
    · rw [if_neg hfile]
      rw [check_true (by omega), ok_bind]
      exact ⟨_, rfl, hwhole (by omega)⟩

end

/-! ## Masks that are built by `set` -/

/-- **What a mask is good for.** A mask that is built by `set` has the bits that
were set. Its code gives back the bits below the prefix count, and `encode`
leaves the mask as it was. Masks with the same bits have the same code. The ready
prefix is the longest one. The prefix count and the ends of the parts have to
fit into the types that they are computed in. -/
theorem bitmask_spec {parts : List Int} (hparts : ∀ i ∈ parts, 0 ≤ i) :
    ∃ mask, setAll ⟨[]⟩ parts = .ok mask ∧ (∀ j, mask.get j = decide (j ∈ parts)) ∧
      (∀ prefixCount, mask.IsPrefixCount prefixCount → ∃ code, mask.encode prefixCount = .ok (code, mask) ∧
        (∀ j, (decode code).get j = (mask.get j && decide (prefixCount = -1 ∨ j < prefixCount))) ∧
        ∀ mask' : Bitmask, (∀ j, mask'.get j = mask.get j) → mask'.IsPrefixCount prefixCount →
          mask'.encode prefixCount = .ok (code, mask')) ∧
      ∀ offset partSize fileSize, 0 ≤ offset → 0 < partSize →
        (∀ part, mask.get part = true → (part + 1) * partSize < 2 ^ 63) →
        ∃ length, mask.getReadyPrefixSize offset partSize fileSize = .ok length ∧
          mask.IsReadyPrefixSize offset partSize fileSize length := by
  obtain ⟨mask, hset, hget⟩ := setAll_ok ⟨[]⟩ hparts
  refine ⟨mask, hset, fun j => ?_, fun prefixCount hp => ?_, fun offset partSize fileSize hoffset hsize hfits => ?_⟩
  · have hempty : (⟨[]⟩ : Bitmask).get j = false := by simp [get]
    rw [hget, hempty, Bool.or_false]
  · obtain ⟨data, hencode, hbits⟩ := mask.encode_ok hp
    refine ⟨_, hencode, fun j => ?_, fun mask' hsame hp' => ?_⟩
    · rw [decode, zeroOneDecode, zeroOneEncode, runDecode_encode]
      by_cases hj : j < 0
      · simp [get_of_neg _ hj]
      · obtain ⟨n, rfl⟩ := Int.eq_ofNat_of_zero_le (Int.not_lt.mp hj)
        rw [get_natCast, get_natCast, bitOf_stripped, hbits]
    · obtain ⟨data', hencode', hbits'⟩ := mask'.encode_ok hp'
      have hequal : stripped data' = stripped data := stripped_eq_of_bitOf fun j => by
        rw [hbits, hbits', get_eq_iff.mp hsame]
      rw [hencode', hequal]
  · exact mask.getReadyPrefixSize_ok hoffset hsize hfits

/-- Three parts, of which the last is in a second byte. -/
theorem bitmask_spec_three : ∃ mask, setAll ⟨[]⟩ [0, 1, 9] = .ok mask ∧ (∀ j, mask.get j = decide (j ∈ [0, 1, 9])) ∧
      (∀ prefixCount, mask.IsPrefixCount prefixCount → ∃ code, mask.encode prefixCount = .ok (code, mask) ∧
        (∀ j, (decode code).get j = (mask.get j && decide (prefixCount = -1 ∨ j < prefixCount))) ∧
        ∀ mask' : Bitmask, (∀ j, mask'.get j = mask.get j) → mask'.IsPrefixCount prefixCount →
          mask'.encode prefixCount = .ok (code, mask')) ∧
      ∀ offset partSize fileSize, 0 ≤ offset → 0 < partSize →
        (∀ part, mask.get part = true → (part + 1) * partSize < 2 ^ 63) →
        ∃ length, mask.getReadyPrefixSize offset partSize fileSize = .ok length ∧
          mask.IsReadyPrefixSize offset partSize fileSize length :=
  bitmask_spec (by decide)

theorem length_set {mask mask' : Bitmask} {part : Int} (h : mask.set part = .ok mask') :
    mask'.data.length = max mask.data.length (part / 8 + 1).toNat := by
  rw [set, bind_ok_iff] at h
  obtain ⟨-, -, h⟩ := h
  cases h
  rw [List.length_set, length_append, length_replicate]
  omega

/-- A prefix count near the greatest `int32` is within the mask, but the sum that
`encode` computes from it does not fit. -/
theorem encode_overflows :
    ∃ mask, setAll ⟨[]⟩ [2147483647] = .ok mask ∧ 2147483647 ≤ mask.size ∧ mask.encode 2147483647 = .fatal := by
  obtain ⟨mask, hset, -⟩ := set_ok ⟨[]⟩ (show (0 : Int) ≤ 2147483647 by decide)
  have hlength := length_set hset
  refine ⟨mask, ?_, ?_, ?_⟩
  · rw [setAll, foldlM_cons, hset, ok_bind]
    rfl
  · rw [size, hlength, length_nil]
    omega
  · simp [encode, clearTail, check]

end Bitmask

end Tdlib.Files
