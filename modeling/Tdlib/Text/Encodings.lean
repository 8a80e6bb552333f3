/-
Encodings of byte strings (`tdutils/td/utils/misc.cpp`): `zero_encode` cuts the
runs of zeros short, as `zero_one_encode` does with those of the bytes 0 and 255,
`url_encode` writes the bytes a URL may not have as `%XX`. Each has its decoder,
which gives the string back.
-/
import Tdlib.Files.Bitmask
import Tdlib.Url.HttpUrl

namespace Tdlib.Text

open Outcome Tdlib.Url Tdlib.Files List

/-! ## `%XX` -/

def isUrlChar (c : UInt8) : Bool := isAlnum c || c == chr '-' || c == chr '.' || c == chr '_' || c == chr '~'

def urlEncodeByte (c : UInt8) : Bytes :=
  if isUrlChar c then [c]
  else [chr '%', upperHexDigits.getD (c.toNat / 16) 0, upperHexDigits.getD (c.toNat % 16) 0]

def urlEncode (data : Bytes) : Outcome Bytes := do
  let length := data.foldl (fun length c => length - 2 * (isUrlChar c).toNat) (3 * data.length)
  if length = data.length then pure data
  else do
    let result := data.flatMap urlEncodeByte
    Outcome.check (result.length = length)
    pure result

def urlDecodeByte (decodePlusSignAsSpace : Bool) (c : UInt8) : UInt8 :=
  if decodePlusSignAsSpace && c == chr '+' then chr ' ' else c

/-- `url_decode`: a `%` without two hexadecimal digits after it stands for itself. -/
def urlDecode (decodePlusSignAsSpace : Bool) : Bytes → Bytes
  | c :: d₁ :: d₂ :: data =>
    let high := hexToInt d₁
    let low := hexToInt d₂
    if c = chr '%' ∧ high < 16 ∧ low < 16 then
      UInt8.ofNat (high * 16 + low) :: urlDecode decodePlusSignAsSpace data
    else urlDecodeByte decodePlusSignAsSpace c :: urlDecode decodePlusSignAsSpace (d₁ :: d₂ :: data)
  | data => data.map (urlDecodeByte decodePlusSignAsSpace)

theorem length_flatMap_urlEncodeByte (data : Bytes) (n : Nat) :
    data.foldl (fun length c => length - 2 * (isUrlChar c).toNat) (3 * data.length + n) =
      (data.flatMap urlEncodeByte).length + n := by
  induction data generalizing n with
  | nil => rfl
  | cons c data ih =>
    have hlength : 3 * (c :: data).length + n - 2 * (isUrlChar c).toNat =
        3 * data.length + ((urlEncodeByte c).length + n) := by
      unfold urlEncodeByte
      cases isUrlChar c <;> simp <;> omega
    rw [foldl_cons, hlength, ih, flatMap_cons, length_append]
    omega

theorem urlEncodeByte_of_urlChar {c : UInt8} (hc : isUrlChar c = true) : urlEncodeByte c = [c] := if_pos hc

/-- A string that gets no longer has nothing to encode. -/
theorem flatMap_urlEncodeByte_eq (data : Bytes) : data.length ≤ (data.flatMap urlEncodeByte).length ∧
    ((data.flatMap urlEncodeByte).length = data.length → data.flatMap urlEncodeByte = data) := by
  induction data with
  | nil => simp
  | cons c data ih =>
    rw [flatMap_cons, length_append, length_cons]
    by_cases hc : isUrlChar c
    · rw [urlEncodeByte_of_urlChar hc, length_singleton, singleton_append]
      exact ⟨by omega, fun h => by rw [ih.2 (by omega)]⟩
    · have hlength : (urlEncodeByte c).length = 3 := by simp [urlEncodeByte, hc]
      omega

theorem urlEncode_eq (data : Bytes) : urlEncode data = .ok (data.flatMap urlEncodeByte) := by
  unfold urlEncode
  have hlength := length_flatMap_urlEncodeByte data 0
  rw [Nat.add_zero, Nat.add_zero] at hlength
  rw [hlength]
  dsimp only
  split
  next h => rw [(flatMap_urlEncodeByte_eq data).2 h]; rfl
  next => simp

theorem urlDecode_cons {c : UInt8} (hc : c ≠ chr '%') (data : Bytes) :
    urlDecode false (c :: data) = c :: urlDecode false data := by
  rcases data with _ | ⟨d₁, _ | ⟨d₂, data⟩⟩ <;> simp [urlDecode, urlDecodeByte, hc]

theorem hexToInt_upperHexDigits {k : Nat} (hk : k < 16) : hexToInt (upperHexDigits.getD k 0) = k := by
  have hall : ∀ k < 16, hexToInt (upperHexDigits.getD k 0) = k := by decide
  exact hall k hk

theorem urlDecode_flatMap (data : Bytes) : urlDecode false (data.flatMap urlEncodeByte) = data := by
  induction data with
  | nil => rfl
  | cons c data ih =>
    rw [flatMap_cons]
    by_cases hc : isUrlChar c
    · have hne : c ≠ chr '%' := by rintro rfl; exact absurd hc (by decide)
      rw [urlEncodeByte_of_urlChar hc, singleton_append, urlDecode_cons hne, ih]
    · have hlt := c.toNat_lt
      have hhigh := hexToInt_upperHexDigits (show c.toNat / 16 < 16 by omega)
      have hlow := hexToInt_upperHexDigits (show c.toNat % 16 < 16 by omega)
      rw [urlEncodeByte, if_neg hc]
      simp only [cons_append, nil_append, urlDecode, hhigh, hlow, ih]
      rw [if_pos ⟨trivial, by omega, by omega⟩, show c.toNat / 16 * 16 + c.toNat % 16 = c.toNat by omega,
        UInt8.ofNat_toNat]

/-- **Each decoder gives back what was encoded.** -/
theorem decode_encode (s : Bytes) : zeroDecode (zeroEncode s) = s ∧ zeroOneDecode (zeroOneEncode s) = s ∧
      ∃ t, urlEncode s = .ok t ∧ urlDecode false t = s :=
  ⟨runDecode_encode _ s, runDecode_encode _ s, _, urlEncode_eq s, urlDecode_flatMap s⟩

end Tdlib.Text
