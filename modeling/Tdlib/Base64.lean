/-
The codes base64, base64url and base32 (`tdutils/td/utils/base64.cpp`).

What is encoded is decoded again, and the two validators accept what the
decoders accept (`codecs_round_trip`). A text that is accepted is the code of
what it is decoded to: unused bits have to be zero.
-/
import Mathlib.Data.List.DropRight
import Mathlib.Data.List.Nodup
import Tdlib.Lib.BitGroups
import Tdlib.Text.Misc
import Tdlib.Text.Utf8

namespace Tdlib.Base64

open List hiding pure_def
open Text Utf8 Outcome

/-! ## Base64 -/

/-- `get_characters`. -/
def getCharacters (isUrl : Bool) : Bytes :=
  if isUrl then ascii "ABCDEFGHIJKLMNOPQRSTUVWXYZabcdefghijklmnopqrstuvwxyz0123456789-_"
  else ascii "ABCDEFGHIJKLMNOPQRSTUVWXYZabcdefghijklmnopqrstuvwxyz0123456789+/"

/-- `get_character_table`. -/
def getCharacterTable (isUrl : Bool) : List Nat :=
  (List.range 64).foldl (fun table i => table.set ((getCharacters isUrl).getD i 0).toNat i) (List.replicate 256 64)

/-- `characters[i]`. -/
def character (isUrl : Bool) (i : Nat) : UInt8 := (getCharacters isUrl).getD i 0

/-- `base64_encode_impl`. A round of the loop takes three bytes, or the one or
two that are left. -/
def base64EncodeImpl (isUrl : Bool) : Bytes → Bytes
  | [] => []
  | [x] =>
    let c := x.toNat <<< 16
    [character isUrl (c >>> 18), character isUrl ((c >>> 12) &&& 63)] ++ if isUrl then [] else ascii "=="
  | [x, y] =>
    let c := x.toNat <<< 16 ||| y.toNat <<< 8
    [character isUrl (c >>> 18), character isUrl ((c >>> 12) &&& 63), character isUrl ((c >>> 6) &&& 63)] ++
      if isUrl then [] else ascii "="
  | x :: y :: z :: input =>
    let c := x.toNat <<< 16 ||| y.toNat <<< 8 ||| z.toNat
    [character isUrl (c >>> 18), character isUrl ((c >>> 12) &&& 63), character isUrl ((c >>> 6) &&& 63),
      character isUrl (c &&& 63)] ++ base64EncodeImpl isUrl input

def base64Encode (input : Bytes) : Bytes := base64EncodeImpl false input

def base64urlEncode (input : Bytes) : Bytes := base64EncodeImpl true input

/-- A text without the characters `=` at its end. -/
def withoutPadding (base64 : Bytes) : Bytes := base64.rdropWhile (· == chr '=')

/-- `base64_drop_padding`. -/
def base64DropPadding (isUrl : Bool) (base64 : Bytes) : Outcome Bytes := do
  let kept := withoutPadding base64
  let paddingLength := base64.length - kept.length
  .ensure (paddingLength < 3) "Wrong string padding"
  .ensure (¬ ((isUrl = false ∨ 0 < paddingLength) ∧ (kept.length + paddingLength) &&& 3 ≠ 0)) "Wrong padding length"
  .ensure (¬ (isUrl = true ∧ kept.length &&& 3 = 1)) "Wrong string length"
  pure kept

/-- One digit added to the number of a group, at its place. -/
def addDigit (table : List Nat) (c : Nat) (x : UInt8 × Nat) : Outcome Nat := do
  let value := table.getD x.1.toNat 0
  .ensure (value ≠ 64) "Wrong character in the string"
  pure (c ||| value <<< ((3 - x.2) * 6))

/-- The number that at most four characters stand for. -/
def groupValue (table : List Nat) (group : Bytes) : Outcome Nat := group.zipIdx.foldlM (addDigit table) 0

/-- One round of `do_base64_decode_impl`: the bytes that it writes. -/
def decodeGroup (table : List Nat) (group : Bytes) : Outcome Bytes := do
  let c ← groupValue table group
  if group.length = 2 then do
    .ensure (c &&& (1 <<< 16 - 1) = 0) "Wrong padding in the string"
    pure [UInt8.ofNat (c >>> 16)]
  else if group.length = 3 then do
    .ensure (c &&& (1 <<< 8 - 1) = 0) "Wrong padding in the string"
    pure [UInt8.ofNat (c >>> 16), UInt8.ofNat (c >>> 8)]
  else pure [UInt8.ofNat (c >>> 16), UInt8.ofNat (c >>> 8), UInt8.ofNat c]

/-- `do_base64_decode_impl`: all bytes written from `ptr` on. -/
def doBase64DecodeImpl (table : List Nat) : Bytes → Outcome Bytes
  | [] => .ok []
  | x₀ :: x₁ :: x₂ :: x₃ :: base64 => do
    let bytes ← decodeGroup table [x₀, x₁, x₂, x₃]
    pure (bytes ++ (← doBase64DecodeImpl table base64))
  | base64 => decodeGroup table base64

/-- `base64_decode_impl`. The result is created with its final size; what is
written has to lie within it. -/
def base64DecodeImpl (isUrl : Bool) (base64 : Bytes) : Outcome Bytes := do
  let base64 ← base64DropPadding isUrl base64
  let size := base64.length / 4 * 3 + ((base64.length &&& 3) + 1) / 2
  let bytes ← doBase64DecodeImpl (getCharacterTable isUrl) base64
  .check (bytes.length ≤ size)
  pure (bytes ++ List.replicate (size - bytes.length) 0)

def base64Decode (base64 : Bytes) : Outcome Bytes := base64DecodeImpl false base64

def base64urlDecode (base64 : Bytes) : Outcome Bytes := base64DecodeImpl true base64

/-- `is_base64_impl`. -/
def isBase64Impl (isUrl : Bool) (input : Bytes) : Bool :=
  let kept := withoutPadding input
  let paddingLength := input.length - kept.length
  let table := getCharacterTable isUrl
  if 3 ≤ paddingLength then false
  else if (isUrl = false ∨ 0 < paddingLength) ∧ (kept.length + paddingLength) &&& 3 ≠ 0 then false
  else if isUrl = true ∧ kept.length &&& 3 = 1 then false
  else if kept.any fun c => table.getD c.toNat 0 = 64 then false
  else if kept.length &&& 3 = 2 ∧ table.getD (kept.getLastD 0).toNat 0 &&& 15 ≠ 0 then false
  else if kept.length &&& 3 = 3 ∧ table.getD (kept.getLastD 0).toNat 0 &&& 3 ≠ 0 then false
  else true

def isBase64 (input : Bytes) : Bool := isBase64Impl false input

def isBase64url (input : Bytes) : Bool := isBase64Impl true input

/-! ## Base32 -/

/-- `get_base32_characters`. -/
def getBase32Characters (upperCase : Bool) : Bytes :=
  if upperCase then ascii "ABCDEFGHIJKLMNOPQRSTUVWXYZ234567" else ascii "abcdefghijklmnopqrstuvwxyz234567"

/-- `get_base32_character_table`. -/
def getBase32CharacterTable : List Nat :=
  (List.range 32).foldl (fun table i =>
    (table.set ((getBase32Characters false).getD i 0).toNat i).set ((getBase32Characters true).getD i 0).toNat i)
    (List.replicate 256 32)

/-- A `uint32`. -/
def toUint32 (n : Nat) : Nat := n % 2 ^ 32

/-- The inner loop of `base32_encode`: the characters for the bits that make up
a whole one, and how many bits are left. -/
def base32Emit (characters : Bytes) (c : Nat) : Nat → Nat → Bytes × Nat
  | 0, length => ([], length)
  | fuel + 1, length =>
    if 5 ≤ length then
      let (rest, left) := base32Emit characters c fuel (length - 5)
      (characters.getD ((c >>> (length - 5)) &&& 31) 0 :: rest, left)
    else ([], length)

/-- The outer loop of `base32_encode`, with the bits that are left over. -/
def base32EncodeLoop (characters : Bytes) : Bytes → Nat → Nat → Bytes × Nat × Nat
  | [], c, length => ([], c, length)
  | x :: input, c, length =>
    let c := toUint32 (c <<< 8) ||| x.toNat
    let (emitted, length) := base32Emit characters c (length + 8) (length + 8)
    let (rest, last) := base32EncodeLoop characters input c length
    (emitted ++ rest, last)

/-- `base32_encode`. -/
def base32Encode (input : Bytes) (upperCase : Bool) : Bytes :=
  let characters := getBase32Characters upperCase
  let (base32, c, length) := base32EncodeLoop characters input 0 0
  if length ≠ 0 then base32 ++ [characters.getD (toUint32 (c <<< (5 - length)) &&& 31) 0] else base32

/-- The loop of `base32_decode`, with the bits that are left over. -/
def base32DecodeLoop (table : List Nat) : Bytes → Nat → Nat → Outcome (Bytes × Nat × Nat)
  | [], c, length => .ok ([], c, length)
  | x :: base32, c, length => do
    let value := table.getD x.toNat 0
    .ensure (value ≠ 32) "Wrong character in the string"
    let c := toUint32 (c <<< 5) ||| value
    let length := length + 5
    if 8 ≤ length then do
      let (res, last) ← base32DecodeLoop table base32 c (length - 8)
      pure (UInt8.ofNat ((c >>> (length - 8)) &&& 255) :: res, last)
    else base32DecodeLoop table base32 c length

/-- `base32_decode`. -/
def base32Decode (base32 : Bytes) : Outcome Bytes := do
  let (res, c, length) ← base32DecodeLoop getBase32CharacterTable base32 0 0
  .ensure (c &&& (1 <<< length - 1) = 0) "Nonzero padding"
  pure res

/-! ## The tables -/

/-- What the table holds for a character. -/
def value (isUrl : Bool) (x : UInt8) : Nat := (getCharacterTable isUrl).getD x.toNat 0

theorem value_character {isUrl : Bool} {i : Nat} (hi : i < 64) : value isUrl (character isUrl i) = i := by
  have hall : ∀ isUrl, ∀ i < 64, value isUrl (character isUrl i) = i := by decide +kernel
  exact hall isUrl i hi

theorem value_cases (isUrl : Bool) (x : UInt8) :
    value isUrl x < 64 ∧ character isUrl (value isUrl x) = x ∨ value isUrl x = 64 := by
  have hlength : (getCharacterTable isUrl).length = 256 := by cases isUrl <;> decide +kernel
  have hall : ∀ isUrl, ∀ e ∈ (getCharacterTable isUrl).zipIdx,
      e.1 < 64 ∧ (character isUrl e.1).toNat = e.2 ∨ e.1 = 64 := by decide +kernel
  have hx : x.toNat < (getCharacterTable isUrl).length := hlength ▸ x.toNat_lt
  have hvalue : (getCharacterTable isUrl)[x.toNat]? = some (value isUrl x) := by simp [value, hx]
  simpa [UInt8.toNat_inj] using hall isUrl (value isUrl x, x.toNat) (by simpa [mk_mem_zipIdx_iff_getElem?])

/-! ## Digits

The digits of a byte string in base 64, without characters and padding. -/

/-- The digits of bytes. -/
def digits : Bytes → List Nat
  | [] => []
  | [x] => [x.toNat / 4, x.toNat % 4 * 16]
  | [x, y] => [x.toNat / 4, x.toNat % 4 * 16 + y.toNat / 16, y.toNat % 16 * 4]
  | x :: y :: z :: s =>
    x.toNat / 4 :: (x.toNat % 4 * 16 + y.toNat / 16) :: (y.toNat % 16 * 4 + z.toNat / 64) :: z.toNat % 64 :: digits s

/-- The bytes of digits, if no bit is left over that is not zero. -/
def undigits : List Nat → Option Bytes
  | [] => some []
  | [_] => none
  | [d₀, d₁] => if d₁ % 16 = 0 then some [UInt8.ofNat (d₀ * 4 + d₁ / 16)] else none
  | [d₀, d₁, d₂] =>
    if d₂ % 4 = 0 then some [UInt8.ofNat (d₀ * 4 + d₁ / 16), UInt8.ofNat (d₁ % 16 * 16 + d₂ / 4)] else none
  | d₀ :: d₁ :: d₂ :: d₃ :: ds =>
    (undigits ds).map fun s => UInt8.ofNat (d₀ * 4 + d₁ / 16) :: UInt8.ofNat (d₁ % 16 * 16 + d₂ / 4) ::
      UInt8.ofNat (d₂ % 4 * 64 + d₃) :: s

theorem digits_lt (s : Bytes) : ∀ d ∈ digits s, d < 64 := by
  fun_induction digits s <;> grind [UInt8.toNat_lt]

theorem length_digits (s : Bytes) : (digits s).length = (4 * s.length + 2) / 3 := by
  fun_induction digits s <;> grind

theorem ofNat_eq {n : Nat} {x : UInt8} (h : n = x.toNat) : UInt8.ofNat n = x := by rw [h, UInt8.ofNat_toNat]

theorem undigits_digits (s : Bytes) : undigits (digits s) = some s := by
  fun_induction digits s <;> grind [undigits, ofNat_eq, UInt8.toNat_lt]

variable {ds : List Nat}

theorem digits_undigits {s : Bytes} (hds : ∀ d ∈ ds, d < 64) (h : undigits ds = some s) : digits s = ds := by
  fun_induction undigits ds generalizing s with
  | case1 => cases h; rfl
  | case2 | case4 | case6 => cases h
  | case3 d0 d1 hpad =>
    cases h
    simp only [forall_mem_cons] at hds
    simp only [digits, toNat_ofNat_lt (show d0 * 4 + d1 / 16 < 256 by omega)]
    congr 2 <;> omega
  | case5 d0 d1 d2 hpad =>
    cases h
    simp only [forall_mem_cons] at hds
    rw [digits, toNat_ofNat_lt (by omega), toNat_ofNat_lt (by omega)]
    congr 3 <;> omega
  | case7 d0 d1 d2 d3 ds ih =>
    obtain ⟨s', hs', rfl⟩ := Option.map_eq_some_iff.mp h
    simp only [forall_mem_cons] at hds
    rw [digits, toNat_ofNat_lt (by omega), toNat_ofNat_lt (by omega), toNat_ofNat_lt (by omega), ih hds.2.2.2.2 hs']
    congr 4 <;> omega

/-- No bit is left over in the last digit. -/
def noneLeft (ds : List Nat) : Prop :=
  (ds.length % 4 = 2 → ds.getLastD 0 % 16 = 0) ∧ (ds.length % 4 = 3 → ds.getLastD 0 % 4 = 0)

theorem undigits_isSome_iff (hlength : ds.length % 4 ≠ 1) : (undigits ds).isSome = true ↔ noneLeft ds := by
  fun_induction undigits ds with
  | case7 d0 d1 d2 d3 ds ih =>
    have hmod : (d0 :: d1 :: d2 :: d3 :: ds).length % 4 = ds.length % 4 := by simp [Nat.add_assoc]
    cases ds <;> simp_all [noneLeft]
  | _ => simp_all [noneLeft]

/-! ## Texts in base 64 -/

section

variable {isUrl : Bool} {t s : Bytes}

theorem mask_three (n : Nat) : n &&& 3 = n % 4 := Nat.and_two_pow_sub_one_eq_mod n 2

theorem mask_fifteen (n : Nat) : n &&& 15 = n % 16 := Nat.and_two_pow_sub_one_eq_mod n 4

/-- The characters `=` behind the code of `n` bytes. -/
def padding (isUrl : Bool) (n : Nat) : Bytes :=
  if isUrl then [] else List.replicate (2 * n % 3) (chr '=')

/-- How many digits and how much padding there are for `n` bytes. -/
theorem code_length (n : Nat) : ∃ q, n = 3 * q ∧ (4 * n + 2) / 3 = 4 * q ∧ 2 * n % 3 = 0 ∨
      n = 3 * q + 1 ∧ (4 * n + 2) / 3 = 4 * q + 2 ∧ 2 * n % 3 = 2 ∨
      n = 3 * q + 2 ∧ (4 * n + 2) / 3 = 4 * q + 3 ∧ 2 * n % 3 = 1 := by
  obtain ⟨q, r, hr, rfl⟩ : ∃ q r, r < 3 ∧ n = 3 * q + r := ⟨n / 3, n % 3, by omega, by omega⟩
  refine ⟨q, ?_⟩
  obtain rfl | rfl | rfl : r = 0 ∨ r = 1 ∨ r = 2 := by omega
  all_goals omega

theorem bytes_value (x y z : Nat) (hy : y < 256) (hz : z < 256) :
    x <<< 16 ||| y <<< 8 ||| z = x * 65536 + y * 256 + z := by
  rw [shiftLeft_or_shiftLeft (j := 8) (k := 8) (by omega), shiftLeft_or (by omega)]
  omega

theorem base64EncodeImpl_eq (isUrl : Bool) (s : Bytes) :
    base64EncodeImpl isUrl s = (digits s).map (character isUrl) ++ padding isUrl s.length := by
  have hmask : ∀ n : Nat, n &&& 63 = n % 64 := fun n => Nat.and_two_pow_sub_one_eq_mod n 6
  fun_induction base64EncodeImpl isUrl s with
  | case1 => cases isUrl <;> rfl
  | case2 x c =>
    rw [digits, hmask, Nat.shiftRight_eq_div_pow, Nat.shiftRight_eq_div_pow, show c / 2 ^ 18 = x.toNat / 4 by omega,
      show c / 2 ^ 12 % 64 = x.toNat % 4 * 16 by omega]
    rfl
  | case3 x y c =>
    have hy := y.toNat_lt
    have hc : c = x.toNat * 65536 + y.toNat * 256 + 0 := by
      rw [← bytes_value _ _ _ hy (by omega), Nat.or_zero]
    simp only [digits, hmask, Nat.shiftRight_eq_div_pow]
    rw [show c / 2 ^ 18 = x.toNat / 4 by omega, show c / 2 ^ 12 % 64 = x.toNat % 4 * 16 + y.toNat / 16 by omega,
      show c / 2 ^ 6 % 64 = y.toNat % 16 * 4 by omega, show [x, y].length = 2 from rfl]
    rfl
  | case4 x y z s c ih =>
    have hy := y.toNat_lt
    have hz := z.toNat_lt
    have hc : c = x.toNat * 65536 + y.toNat * 256 + z.toNat := bytes_value _ _ _ hy hz
    have hpadding : padding isUrl (x :: y :: z :: s).length = padding isUrl s.length := by
      simp [padding, show 2 * (s.length + 1 + 1 + 1) % 3 = 2 * s.length % 3 by omega]
    simp only [digits, hmask, Nat.shiftRight_eq_div_pow]
    rw [show c / 2 ^ 18 = x.toNat / 4 by omega, show c / 2 ^ 12 % 64 = x.toNat % 4 * 16 + y.toNat / 16 by omega,
      show c / 2 ^ 6 % 64 = y.toNat % 16 * 4 + z.toNat / 64 by omega, show c % 64 = z.toNat % 64 by omega, ih, hpadding]
    rfl

/-- What is decoded from digits, and the error if a bit is left over. -/
def decoded (ds : List Nat) : Outcome Bytes := (undigits ds).elim (.error "Wrong padding in the string") .ok

theorem ofNat_congr {n m : Nat} (h : n % 256 = m % 256) : UInt8.ofNat n = UInt8.ofNat m := by
  simp [← UInt8.toNat_inj, UInt8.toNat_ofNat', h]

theorem addDigit_eq (c : Nat) (x : UInt8 × Nat) :
    addDigit (getCharacterTable isUrl) c x = if value isUrl x.1 = 64 then .error "Wrong character in the string"
      else .ok (c ||| value isUrl x.1 <<< ((3 - x.2) * 6)) := by
  rw [addDigit, value, ensure]
  split_ifs <;> first | rfl | contradiction

variable {group : Bytes} {text : Bytes}

theorem groupValue_ok (h : ∀ x ∈ group, value isUrl x < 64) : groupValue (getCharacterTable isUrl) group =
      .ok (group.zipIdx.foldl (fun c x => c ||| value isUrl x.1 <<< ((3 - x.2) * 6)) 0) := by
  have hfold : ∀ (l : List (UInt8 × Nat)) (c : Nat), (∀ x ∈ l, value isUrl x.1 < 64) →
      l.foldlM (addDigit (getCharacterTable isUrl)) c =
        .ok (l.foldl (fun c x => c ||| value isUrl x.1 <<< ((3 - x.2) * 6)) c) := by
    intro l c hl
    induction l generalizing c with
    | nil => rfl
    | cons x l ih =>
      obtain ⟨hx, hl⟩ := forall_mem_cons.mp hl
      simp [addDigit_eq, Nat.ne_of_lt hx, ih _ hl]
  exact hfold _ _ fun x hx => h x.1 (fst_mem_of_mem_zipIdx hx)

theorem groupValue_error (h : ∃ x ∈ group, value isUrl x = 64) :
    ∃ e, groupValue (getCharacterTable isUrl) group = .error e := by
  have hfold : ∀ (l : List (UInt8 × Nat)) (c : Nat), (∃ x ∈ l.map Prod.fst, value isUrl x = 64) →
      ∃ e, l.foldlM (addDigit (getCharacterTable isUrl)) c = .error e := by
    intro l c hl
    induction l generalizing c with
    | nil => simp at hl
    | cons x l ih =>
      by_cases hx : value isUrl x.1 = 64
      · simp [addDigit_eq, hx]
      · simp [addDigit_eq, hx, ih _ (by simpa [hx] using hl)]
  exact hfold _ _ (by rwa [zipIdx_map_fst])

theorem digits_value (d0 : Nat) {d1 d2 d3 : Nat} (h1 : d1 < 64) (h2 : d2 < 64) (h3 : d3 < 64) :
    0 ||| d0 <<< 18 ||| d1 <<< 12 ||| d2 <<< 6 ||| d3 <<< 0 = ((d0 * 64 + d1) * 64 + d2) * 64 + d3 := by
  grind [shiftLeft_or_shiftLeft, shiftLeft_or]

theorem decodeGroup_eq (hlength : 2 ≤ group.length ∧ group.length ≤ 4) (h : ∀ x ∈ group, value isUrl x < 64) :
    decodeGroup (getCharacterTable isUrl) group = decoded (group.map (value isUrl)) := by
  have hmask : ∀ n k : Nat, n &&& (1 <<< k - 1) = n % 2 ^ k := fun n k => by
    rw [Nat.one_shiftLeft, Nat.and_two_pow_sub_one_eq_mod]
  rw [decodeGroup, groupValue_ok h, ok_bind, hmask, hmask]
  simp only [ensure, decoded, Nat.shiftRight_eq_div_pow]
  rcases group with _ | ⟨x0, _ | ⟨x1, _ | ⟨x2, _ | ⟨x3, _ | ⟨x4, group⟩⟩⟩⟩⟩
  · simp at hlength
  · simp at hlength
  · simp only [forall_mem_cons] at h
    have hvalue := digits_value (value isUrl x0) h.2.1 (show 0 < 64 by decide) (show 0 < 64 by decide)
    simp only [Nat.zero_shiftLeft, Nat.or_zero] at hvalue
    simp only [List.zipIdx, List.foldl, List.map, undigits]
    rw [hvalue, if_pos (show [x0, x1].length = 2 from rfl)]
    split_ifs <;>
      first | omega | rfl | exact congrArg (fun b => Outcome.ok [b]) (ofNat_congr (by omega))
  · simp only [forall_mem_cons] at h
    have hvalue := digits_value (value isUrl x0) h.2.1 h.2.2.1 (show 0 < 64 by decide)
    rw [Nat.zero_shiftLeft, Nat.or_zero] at hvalue
    simp only [List.zipIdx, List.foldl, List.map, undigits]
    rw [hvalue, if_neg (show ¬ [x0, x1, x2].length = 2 by simp), if_pos (show [x0, x1, x2].length = 3 from rfl)]
    split_ifs <;>
      first
      | omega
      | rfl
      | exact congrArg₂ (fun b b' => Outcome.ok [b, b']) (ofNat_congr (by omega)) (ofNat_congr (by omega))
  · simp only [forall_mem_cons] at h
    simp only [List.zipIdx, List.foldl, List.map, undigits]
    rw [digits_value (value isUrl x0) h.2.1 h.2.2.1 h.2.2.2.1, if_neg (by simp), if_neg (by simp)]
    refine congrArg Outcome.ok (congr (congrArg _ (ofNat_congr ?_)) (congr (congrArg _ (ofNat_congr ?_))
      (congrArg (fun b => [b]) (ofNat_congr ?_))))
    all_goals omega
  · simp only [length_cons] at hlength
    omega

theorem doBase64DecodeImpl_eq (hlength : t.length % 4 ≠ 1) (ht : ∀ x ∈ t, value isUrl x < 64) :
    doBase64DecodeImpl (getCharacterTable isUrl) t = decoded (t.map (value isUrl)) := by
  fun_induction doBase64DecodeImpl (getCharacterTable isUrl) t with
  | case1 => rfl
  | case2 x0 x1 x2 x3 t ih =>
    have happend : x0 :: x1 :: x2 :: x3 :: t = [x0, x1, x2, x3] ++ t := rfl
    obtain ⟨hgroup, hrest⟩ := forall_mem_append.mp (happend ▸ ht)
    rw [decodeGroup_eq (by simp) hgroup, ih (by simpa [Nat.add_assoc] using hlength) hrest]
    simp only [decoded, undigits, map_cons, map_nil]
    cases undigits (t.map (value isUrl)) <;> rfl
  | case3 t hnil hfour =>
    refine decodeGroup_eq ?_ ht
    rcases t with _ | ⟨x0, _ | ⟨x1, _ | ⟨x2, _ | ⟨x3, t⟩⟩⟩⟩
    · exact absurd rfl hnil
    · exact absurd rfl hlength
    · simp
    · simp
    · exact absurd rfl (hfour x0 x1 x2 x3 t)

theorem doBase64DecodeImpl_error (h : ∃ x ∈ t, value isUrl x = 64) :
    ∃ e, doBase64DecodeImpl (getCharacterTable isUrl) t = .error e := by
  fun_induction doBase64DecodeImpl (getCharacterTable isUrl) t with
  | case1 => simp at h
  | case2 x0 x1 x2 x3 t ih =>
    by_cases hgroup : ∃ x ∈ [x0, x1, x2, x3], value isUrl x = 64
    · obtain ⟨e, he⟩ := groupValue_error hgroup
      simp [decodeGroup, he]
    · have hvalid : ∀ x ∈ [x0, x1, x2, x3], value isUrl x < 64 := fun x hx =>
        (value_cases isUrl x).elim And.left fun hvalue => absurd ⟨x, hx, hvalue⟩ hgroup
      obtain ⟨e, he⟩ := ih (by simpa [(hvalid _ _).ne] using h)
      simp [decodeGroup_eq (by simp) hvalid, he, decoded, undigits]
  | case3 t hnil hfour =>
    obtain ⟨e, he⟩ := groupValue_error h
    simp [decodeGroup, he]

/-! ## Padding -/

/-- The padding of a text is accepted. -/
structure PaddingOk (isUrl : Bool) (t : Bytes) : Prop where
  short : t.length - (withoutPadding t).length < 3
  whole : isUrl = false ∨ 0 < t.length - (withoutPadding t).length →
    ((withoutPadding t).length + (t.length - (withoutPadding t).length)) % 4 = 0
  notOne : isUrl = true → (withoutPadding t).length % 4 ≠ 1

theorem PaddingOk.length (h : PaddingOk isUrl t) : (withoutPadding t).length % 4 ≠ 1 := by
  have hshort := h.short
  have hwhole := h.whole
  cases hurl : isUrl with
  | true => exact h.notOne hurl
  | false =>
    have hfour := hwhole (.inl hurl)
    omega

theorem paddingOk_iff : PaddingOk isUrl t ↔ t.length - (withoutPadding t).length < 3 ∧
    ¬ ((isUrl = false ∨ 0 < t.length - (withoutPadding t).length) ∧
      ((withoutPadding t).length + (t.length - (withoutPadding t).length)) &&& 3 ≠ 0) ∧
    ¬ (isUrl = true ∧ (withoutPadding t).length &&& 3 = 1) := by
  simp only [mask_three, not_and, not_not]
  exact ⟨fun h => ⟨h.short, h.whole, h.notOne⟩, fun h => ⟨h.1, h.2.1, h.2.2⟩⟩

theorem base64DropPadding_ok (h : PaddingOk isUrl t) : base64DropPadding isUrl t = .ok (withoutPadding t) := by
  obtain ⟨hshort, hwhole, hone⟩ := paddingOk_iff.mp h
  rw [base64DropPadding, ensure_true hshort, ok_bind, ensure_true hwhole, ok_bind, ensure_true hone, ok_bind, pure_def]

theorem base64DropPadding_error (h : ¬ PaddingOk isUrl t) : ∃ e, base64DropPadding isUrl t = .error e := by
  rw [paddingOk_iff] at h
  simp only [base64DropPadding, ensure]
  split_ifs <;> simp_all

theorem base64DecodeImpl_eq (h : PaddingOk isUrl t) (ht : ∀ x ∈ withoutPadding t, value isUrl x < 64) :
    base64DecodeImpl isUrl t = decoded ((withoutPadding t).map (value isUrl)) := by
  rw [base64DecodeImpl, base64DropPadding_ok h, ok_bind]
  rw [doBase64DecodeImpl_eq h.length ht, decoded, mask_three]
  have hlength := h.length
  cases hs : undigits ((withoutPadding t).map (value isUrl)) with
  | none => rfl
  | some s =>
    have hcount := congrArg List.length (digits_undigits (forall_mem_map.mpr ht) hs)
    rw [length_digits, length_map] at hcount
    have hsize : (withoutPadding t).length / 4 * 3 + ((withoutPadding t).length % 4 + 1) / 2 = s.length := by omega
    simp [hsize, Option.elim_some, ok_bind, replicate_zero,
      append_nil, pure_def]

theorem base64DecodeImpl_error (h : ¬ (PaddingOk isUrl t ∧ ∀ x ∈ withoutPadding t, value isUrl x < 64)) :
    ∃ e, base64DecodeImpl isUrl t = .error e := by
  by_cases hpadding : PaddingOk isUrl t
  · have hbad : ∃ x ∈ withoutPadding t, value isUrl x = 64 := by
      by_contra hgood
      exact h ⟨hpadding, fun x hx => (value_cases isUrl x).elim And.left fun hvalue => absurd ⟨x, hx, hvalue⟩ hgood⟩
    obtain ⟨e, he⟩ := doBase64DecodeImpl_error hbad
    simp [base64DecodeImpl, base64DropPadding_ok hpadding, he]
  · obtain ⟨e, he⟩ := base64DropPadding_error hpadding
    simp [base64DecodeImpl, he]

theorem base64DecodeImpl_ok_iff :
    base64DecodeImpl isUrl t = .ok s ↔ PaddingOk isUrl t ∧ (∀ x ∈ withoutPadding t, value isUrl x < 64) ∧
      undigits ((withoutPadding t).map (value isUrl)) = some s := by
  by_cases h : PaddingOk isUrl t ∧ ∀ x ∈ withoutPadding t, value isUrl x < 64
  · rw [base64DecodeImpl_eq h.1 h.2, decoded, and_iff_right h.1, and_iff_right h.2]
    cases undigits ((withoutPadding t).map (value isUrl)) <;> simp
  · obtain ⟨e, he⟩ := base64DecodeImpl_error h
    simp_all

theorem getLastD_map (f : UInt8 → Nat) {l : Bytes} (hl : l ≠ []) : (l.map f).getLastD 0 = f (l.getLastD 0) := by
  obtain ⟨l, x, rfl⟩ := eq_nil_or_concat l |>.resolve_left hl
  simp

theorem isBase64Impl_iff :
    isBase64Impl isUrl t = true ↔ PaddingOk isUrl t ∧ (∀ x ∈ withoutPadding t, value isUrl x < 64) ∧
      noneLeft ((withoutPadding t).map (value isUrl)) := by
  have hvalue : ∀ x : UInt8, (getCharacterTable isUrl).getD x.toNat 0 = value isUrl x := fun _ => rfl
  have hvalid : (∀ x ∈ withoutPadding t, value isUrl x < 64) ↔
      ¬ (withoutPadding t).any (fun x => value isUrl x = 64) = true := by
    simp only [any_eq_true, decide_eq_true_eq, not_exists, not_and]
    refine forall_congr' fun x => imp_congr_right fun _ => ?_
    have hcases := value_cases isUrl x
    omega
  have hleft : noneLeft ((withoutPadding t).map (value isUrl)) ↔
      ¬ ((withoutPadding t).length % 4 = 2 ∧ value isUrl ((withoutPadding t).getLastD 0) % 16 ≠ 0) ∧
      ¬ ((withoutPadding t).length % 4 = 3 ∧ value isUrl ((withoutPadding t).getLastD 0) % 4 ≠ 0) := by
    rw [noneLeft, length_map]
    by_cases hnil : withoutPadding t = []
    · simp [hnil]
    · rw [getLastD_map _ hnil]
      simp
  rw [paddingOk_iff, hvalid, hleft, isBase64Impl]
  simp only [mask_three, mask_fifteen, hvalue]
  split_ifs <;> simp_all

/-! ## Both directions -/

theorem withoutPadding_append (t : Bytes) : ∃ n, t = withoutPadding t ++ List.replicate n (chr '=') := by
  have hall : t.rtakeWhile (· == chr '=') = List.replicate (t.rtakeWhile (· == chr '=')).length (chr '=') :=
    eq_replicate_iff.mpr ⟨rfl, fun x hx => by simpa using mem_rtakeWhile_imp hx⟩
  exact ⟨_, (hall ▸ rdropWhile_append_rtakeWhile).symm⟩

theorem withoutPadding_of_values (h : ∀ x ∈ text, value isUrl x < 64) (n : Nat) :
    withoutPadding (text ++ List.replicate n (chr '=')) = text := by
  induction n with
  | zero =>
    have hpad : ∀ isUrl, value isUrl (chr '=') = 64 := by decide +kernel
    rw [replicate_zero, append_nil]
    refine rdropWhile_eq_self_iff.mpr fun hl heq => ?_
    exact absurd (h _ (getLast_mem hl)) (by simp [beq_iff_eq.mp heq, hpad])
  | succ n ih =>
    rw [replicate_succ', ← append_assoc, withoutPadding, rdropWhile_concat_pos _ _ _ (by simp)]
    exact ih

theorem value_map_character_lt (isUrl : Bool) (s : Bytes) :
    ∀ x ∈ (digits s).map (character isUrl), value isUrl x < 64 := by
  intro x hx
  obtain ⟨d, hd, rfl⟩ := mem_map.mp hx
  simpa [value_character (digits_lt s d hd)] using digits_lt s d hd

theorem withoutPadding_encode (isUrl : Bool) (s : Bytes) :
    withoutPadding (base64EncodeImpl isUrl s) = (digits s).map (character isUrl) := by
  rw [base64EncodeImpl_eq, padding]
  cases isUrl with
  | true => exact withoutPadding_of_values (value_map_character_lt true s) 0
  | false => exact withoutPadding_of_values (value_map_character_lt false s) _

theorem map_value_character (isUrl : Bool) (hds : ∀ d ∈ ds, d < 64) :
    (ds.map (character isUrl)).map (value isUrl) = ds := by
  induction ds <;> simp_all [value_character]

theorem map_character_value (isUrl : Bool) (htext : ∀ x ∈ text, value isUrl x < 64) :
    (text.map (value isUrl)).map (character isUrl) = text := by
  have hvalue : ∀ x, value isUrl x < 64 → character isUrl (value isUrl x) = x := fun x hx =>
    (value_cases isUrl x).elim And.right fun hcase => by omega
  induction text <;> simp_all

theorem base64DecodeImpl_encode (isUrl : Bool) (s : Bytes) :
    base64DecodeImpl isUrl (base64EncodeImpl isUrl s) = .ok s := by
  have hkept := withoutPadding_encode isUrl s
  have hlength : (base64EncodeImpl isUrl s).length = (4 * s.length + 2) / 3 + (padding isUrl s.length).length := by
    rw [base64EncodeImpl_eq, length_append, length_map, length_digits]
  refine base64DecodeImpl_ok_iff.mpr ⟨?_, ?_, ?_⟩
  · obtain ⟨q, hq⟩ := code_length s.length
    constructor <;> rw [hkept, length_map, length_digits] <;> cases isUrl <;> simp [hlength, padding] <;> omega
  · rw [hkept]
    exact value_map_character_lt isUrl s
  · rw [hkept, map_value_character isUrl (digits_lt s), undigits_digits]

/-- What is decoded has the text as its code, up to the padding of the URL form. -/
theorem base64EncodeImpl_of_decode (h : base64DecodeImpl isUrl t = .ok s) :
    base64EncodeImpl isUrl s = if isUrl then withoutPadding t else t := by
  obtain ⟨hpadding, hvalues, hundigits⟩ := base64DecodeImpl_ok_iff.mp h
  have hdigits := digits_undigits (forall_mem_map.mpr hvalues) hundigits
  have hcount := congrArg List.length hdigits
  rw [length_digits, length_map] at hcount
  rw [base64EncodeImpl_eq, hdigits, map_character_value isUrl hvalues, padding]
  cases isUrl with
  | true => simp
  | false =>
    obtain ⟨n, hn⟩ := withoutPadding_append t
    have hlength := congrArg List.length hn
    rw [length_append, length_replicate] at hlength
    have hshort := hpadding.short
    have hwhole := hpadding.whole (.inl rfl)
    have hcount' : 2 * s.length % 3 = n := by
      obtain ⟨q, hq⟩ := code_length s.length
      omega
    simp [hcount', hn.symm]

theorem isBase64Impl_iff_decode : isBase64Impl isUrl t = true ↔ ∃ s, base64DecodeImpl isUrl t = .ok s := by
  simp only [isBase64Impl_iff, base64DecodeImpl_ok_iff, exists_and_left]
  refine and_congr_right fun hpadding => and_congr_right fun _ => ?_
  have hlength : ((withoutPadding t).map (value isUrl)).length % 4 ≠ 1 := by
    rw [length_map]
    exact hpadding.length
  rw [← undigits_isSome_iff hlength, Option.isSome_iff_exists]

end

/-! ## Texts in base 32 -/

/-- `characters[i]` of the code in base 32. -/
def base32Character (upperCase : Bool) (i : Nat) : UInt8 := (getBase32Characters upperCase).getD i 0

theorem base32_value_character (upperCase : Bool) {d : Nat} (hd : d < 32) :
    getBase32CharacterTable.getD (base32Character upperCase d).toNat 0 = d := by
  have hall : ∀ upperCase, ∀ d < 32, getBase32CharacterTable.getD (base32Character upperCase d).toNat 0 = d := by
    decide +kernel
  exact hall upperCase d hd

/-- Bits that are shifted into a 32-bit number, as long as none is lost. -/
theorem bits_shift_in {a b n m : Nat} (hab : a + b ≤ 32) (hm : m < 2 ^ b) :
    bits (a + b) (toUint32 (n <<< b) ||| m) = bits a n ++ bits b m := by
  rw [← bits_shiftLeft_or a n hm]
  refine bits_eq_iff.mpr fun i hi => ?_
  rw [Nat.testBit_or, Nat.testBit_or, toUint32, Nat.testBit_mod_two_pow, decide_eq_true (by omega), Bool.true_and]

theorem bits_mask_31 (n : Nat) : bits 5 (n &&& 31) = bits 5 n ∧ n &&& 31 < 32 := by
  rw [show n &&& 31 = n % 2 ^ 5 from Nat.and_two_pow_sub_one_eq_mod n 5]
  exact ⟨bits_mod (Nat.le_refl 5) n, Nat.mod_lt _ (by decide)⟩

/-- Digits of the code, with their characters. -/
structure Digits (upperCase : Bool) (text : Bytes) (ds : List Nat) : Prop where
  text : text = ds.map (base32Character upperCase)
  lt : ∀ d ∈ ds, d < 32

theorem Digits.append {upperCase : Bool} {text text' : Bytes} {ds' : List Nat} (h : Digits upperCase text ds)
    (h' : Digits upperCase text' ds') : Digits upperCase (text ++ text') (ds ++ ds') where
  text := by rw [h.text, h'.text, map_append]
  lt := forall_mem_append.mpr ⟨h.lt, h'.lt⟩

theorem digits_singleton (upperCase : Bool) {d : Nat} (hd : d < 32) :
    Digits upperCase [base32Character upperCase d] [d] :=
  ⟨rfl, by simpa using hd⟩

theorem base32Emit_digits (upperCase : Bool) (c : Nat) {fuel length : Nat} (hfuel : length ≤ fuel) :
    ∃ text ds left, base32Emit (getBase32Characters upperCase) c fuel length = (text, left) ∧ Digits upperCase text ds ∧
      left < 5 ∧ bits length c = grouped 5 ds ++ bits left c := by
  induction fuel generalizing length with
  | zero =>
    obtain rfl : length = 0 := by omega
    exact ⟨[], [], 0, rfl, ⟨rfl, by simp⟩, by decide, rfl⟩
  | succ fuel ih =>
    rw [base32Emit]
    split
    next h =>
      obtain ⟨text, ds, left, hemit, hds, hleft, hbits⟩ := ih (show length - 5 ≤ fuel by omega)
      obtain ⟨hmask, hlt⟩ := bits_mask_31 (c >>> (length - 5))
      rw [hemit]
      refine ⟨_, _, left, rfl, (digits_singleton upperCase hlt).append hds, hleft, ?_⟩
      have hsplit := bits_add 5 (length - 5) c
      simp_all
    next h => exact ⟨[], [], length, rfl, ⟨rfl, by simp⟩, by omega, rfl⟩

theorem base32EncodeLoop_digits (upperCase : Bool) (input : Bytes) (c : Nat) {length : Nat} (hlength : length < 5) :
    ∃ text ds c' left, base32EncodeLoop (getBase32Characters upperCase) input c length = (text, c', left) ∧
      Digits upperCase text ds ∧ left < 5 ∧
      bits length c ++ grouped 8 (input.map UInt8.toNat) = grouped 5 ds ++ bits left c' := by
  induction input generalizing c length with
  | nil => exact ⟨[], [], c, length, rfl, ⟨rfl, by simp⟩, hlength, by simp⟩
  | cons x input ih =>
    rw [base32EncodeLoop]
    have hin : bits (length + 8) (toUint32 (c <<< 8) ||| x.toNat) = bits length c ++ bits 8 x.toNat :=
      bits_shift_in (by omega) (x.toNat_lt)
    generalize toUint32 (c <<< 8) ||| x.toNat = c1 at hin
    obtain ⟨text1, ds1, left1, hemit, hds1, hleft1, hbits1⟩ :=
      base32Emit_digits upperCase c1 (Nat.le_refl (length + 8))
    obtain ⟨text2, ds2, c', left, hloop, hds2, hleft, hbits2⟩ := ih c1 hleft1
    simp only [hemit, hloop]
    refine ⟨_, _, c', left, rfl, hds1.append hds2, hleft, ?_⟩
    rw [grouped_append, append_assoc, ← hbits2, ← append_assoc, ← hbits1, hin, map_cons, grouped_cons,
      append_assoc]

/-- The code in base 32 has the bits of the bytes, and zeros behind them. -/
theorem base32Encode_digits (s : Bytes) (upperCase : Bool) :
    ∃ ds left, Digits upperCase (base32Encode s upperCase) ds ∧ left < 5 ∧
      grouped 5 ds = grouped 8 (s.map UInt8.toNat) ++ List.replicate left false := by
  obtain ⟨text, ds, c, left, hloop, hds, hleft, hbits⟩ := base32EncodeLoop_digits upperCase s 0 (show 0 < 5 by decide)
  rw [bits_width_zero, nil_append] at hbits
  rw [base32Encode, hloop]
  dsimp only
  split
  next hne =>
    obtain ⟨hmask, hlt⟩ := bits_mask_31 (toUint32 (c <<< (5 - left)))
    refine ⟨_, 5 - left, hds.append (digits_singleton upperCase hlt), by omega, ?_⟩
    have hlast : bits 5 (toUint32 (c <<< (5 - left))) = bits left c ++ List.replicate (5 - left) false := by
      rw [toUint32, bits_mod (by decide)]
      have hshift := bits_shiftLeft left (5 - left) c
      rwa [show left + (5 - left) = 5 by omega] at hshift
    rw [grouped_append, grouped_cons, grouped_nil, append_nil, hmask, hlast, hbits, append_assoc]
  next hzero =>
    obtain rfl : left = 0 := by simpa using hzero
    exact ⟨ds, 0, hds, by decide, by rw [hbits]; simp⟩

theorem bits_byte (n : Nat) : bits 8 (UInt8.ofNat (n &&& 255)).toNat = bits 8 n := by
  have hmask : n &&& 255 = n % 2 ^ 8 := Nat.and_two_pow_sub_one_eq_mod n 8
  have hlt : n % 2 ^ 8 < 256 := Nat.mod_lt n (by decide)
  rw [hmask, toNat_ofNat_lt hlt, bits_mod (Nat.le_refl 8)]

theorem base32DecodeLoop_digits {upperCase : Bool} {text : Bytes} (h : Digits upperCase text ds)
    (c : Nat) {length : Nat} (hlength : length < 8) :
    ∃ s c' left, base32DecodeLoop getBase32CharacterTable text c length = .ok (s, c', left) ∧ left < 8 ∧
      bits length c ++ grouped 5 ds = grouped 8 (s.map UInt8.toNat) ++ bits left c' := by
  obtain ⟨rfl, hlt⟩ := h
  induction ds generalizing c length with
  | nil => exact ⟨[], c, length, rfl, hlength, by simp⟩
  | cons d ds ih =>
    have hd := hlt d mem_cons_self
    have hin : bits (length + 5) (toUint32 (c <<< 5) ||| d) = bits length c ++ bits 5 d := bits_shift_in (by omega) hd
    have hrest : ∀ d ∈ ds, d < 32 := fun d hd => hlt d (mem_cons_of_mem _ hd)
    rw [map_cons, base32DecodeLoop, base32_value_character upperCase hd]
    simp only [ensure_true (Nat.ne_of_lt hd), ok_bind]
    generalize toUint32 (c <<< 5) ||| d = c1 at hin
    split
    next h8 =>
      obtain ⟨s, c', left, hloop, hleft, hbits⟩ := ih c1 (show length + 5 - 8 < 8 by omega) hrest
      rw [hloop, ok_bind, pure_def]
      refine ⟨_, c', left, rfl, hleft, ?_⟩
      have hsplit := bits_add 8 (length + 5 - 8) c1
      grind [grouped_cons, append_assoc, bits_byte]
    next h8 =>
      obtain ⟨s, c', left, hloop, hleft, hbits⟩ := ih c1 (show length + 5 < 8 by omega) hrest
      refine ⟨s, c', left, hloop, hleft, ?_⟩
      rw [grouped_cons, ← append_assoc, ← hin, hbits]

theorem base32Decode_encode (s : Bytes) (upperCase : Bool) : base32Decode (base32Encode s upperCase) = .ok s := by
  obtain ⟨ds, left, hds, hleft, hbits⟩ := base32Encode_digits s upperCase
  obtain ⟨s', c, left', hloop, hleft', hbits'⟩ := base32DecodeLoop_digits hds 0 (show 0 < 8 by decide)
  rw [bits_width_zero, nil_append, hbits] at hbits'
  have hbytes : ∀ s : Bytes, ∀ n ∈ s.map UInt8.toNat, n < 2 ^ 8 := by
    intro s n hn
    obtain ⟨x, -, rfl⟩ := mem_map.mp hn
    exact x.toNat_lt
  obtain ⟨hs, hrest⟩ := grouped_cut (hbytes s) (hbytes s') (by rw [length_replicate]; omega)
    (by rwa [length_bits]) hbits'
  have hequal : s = s' := (List.map_inj_right fun _ _ => UInt8.toNat_inj.mp).mp hs
  have hzero : c &&& (1 <<< left' - 1) = 0 := by
    have hcount : left = left' := by simpa using congrArg List.length hrest
    rw [Nat.one_shiftLeft, Nat.and_two_pow_sub_one_eq_mod]
    rw [hcount, ← bits_zero] at hrest
    exact (mod_eq_of_bits_eq hrest).symm.trans (Nat.zero_mod _)
  rw [base32Decode, hloop, ok_bind]
  dsimp only
  rw [ensure_true hzero, ok_bind, hequal, pure_def]

/-- **What is encoded is decoded again**, in all three codes and in both cases of
base 32. The validators of base64 and base64url accept exactly what is decoded,
and then the text is the code of what it is decoded to: in base64 the text
itself, in base64url the text without its padding. -/
theorem codecs_round_trip (s t : Bytes) :
    base64Decode (base64Encode s) = .ok s ∧ base64urlDecode (base64urlEncode s) = .ok s ∧
    (∀ upperCase, base32Decode (base32Encode s upperCase) = .ok s) ∧
    (isBase64 t = true ↔ ∃ d, base64Decode t = .ok d) ∧ (∀ d, base64Decode t = .ok d → base64Encode d = t) ∧
    (isBase64url t = true ↔ ∃ d, base64urlDecode t = .ok d) ∧
    ∀ d, base64urlDecode t = .ok d → base64urlEncode d = withoutPadding t := by
  refine ⟨base64DecodeImpl_encode false s, base64DecodeImpl_encode true s, base32Decode_encode s,
    isBase64Impl_iff_decode, ?_, isBase64Impl_iff_decode, ?_⟩
  · intro d hd
    exact base64EncodeImpl_of_decode hd
  · intro d hd
    exact base64EncodeImpl_of_decode hd

end Tdlib.Base64
