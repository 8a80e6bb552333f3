/-
Bytes as characters, and integers in decimal (`tdutils/td/utils/misc.h`,
`StringBuilder.cpp`). A `char` is a byte here; the comparisons below do not
depend on its sign.
-/
import Tdlib.Lib.Bytes

namespace Tdlib.Text

/-- The byte of an ASCII character. -/
def chr (c : Char) : UInt8 := UInt8.ofNat c.toNat

/-- The bytes of an ASCII literal. -/
def ascii (s : String) : Bytes := s.toList.map chr

def isSpace (c : UInt8) : Bool :=
  c == chr ' ' || c == chr '\t' || c == chr '\r' || c == chr '\n' || c == 0 || c == 11

def isAlpha (c : UInt8) : Bool :=
  let c := c ||| 0x20
  chr 'a' ≤ c && c ≤ chr 'z'

def isDigit (c : UInt8) : Bool := chr '0' ≤ c && c ≤ chr '9'

def isAlnum (c : UInt8) : Bool := isAlpha c || isDigit c

def isHexDigit (c : UInt8) : Bool :=
  if isDigit c then true
  else
    let c := c ||| 0x20
    chr 'a' ≤ c && c ≤ chr 'f'

def hexToInt (c : UInt8) : Nat :=
  if isDigit c then c.toNat - (chr '0').toNat
  else
    let c := c ||| 0x20
    if chr 'a' ≤ c ∧ c ≤ chr 'f' then c.toNat - (chr 'a').toNat + 10 else 16

def toLowerByte (c : UInt8) : UInt8 := if chr 'A' ≤ c ∧ c ≤ chr 'Z' then c - chr 'A' + chr 'a' else c

def toLower (slice : Bytes) : Bytes := slice.map toLowerByte

def beginsWith (str start : Bytes) : Bool := start.isPrefixOf str

/-- The decimal form of an integer, as `StringBuilder` writes it. -/
def decimal (x : Int) : Bytes :=
  let digits := (Nat.toDigits 10 x.natAbs).map chr
  if x < 0 then chr '-' :: digits else digits

/-- `to_integer` for a signed type of `bits` bits: the digits after an optional
minus, modulo the width. -/
def toInteger (bits : Nat) (str : Bytes) : Int :=
  let isNegative := str.head? == some (chr '-')
  let digits := if isNegative then str.tail else str
  let integerValue := (digits.takeWhile isDigit).foldl
    (fun value c => (value * 10 + (c.toNat - (chr '0').toNat)) % 2 ^ bits) 0
  let maxValue := 2 ^ (bits - 1) - 1
  if integerValue > maxValue then
    let integerValue := 2 ^ bits - integerValue
    let isNegative := !isNegative
    if integerValue > maxValue then -2 ^ (bits - 1)
    else if isNegative then -integerValue else integerValue
  else if isNegative then -integerValue else integerValue

/-- `to_integer_safe`: only the decimal form of the result is accepted. -/
def toIntegerSafe (bits : Nat) (str : Bytes) : Option Int :=
  let res := toInteger bits str
  if decimal res = str then some res else none

theorem forall_byte {P : UInt8 → Prop} (h : ∀ n < 256, P (UInt8.ofNat n)) (c : UInt8) : P c := by
  have hc := h c.toNat c.toNat_lt
  rwa [UInt8.ofNat_toNat] at hc

theorem forall_mem_of_all {P : UInt8 → Prop} [DecidablePred P] {s : Bytes} (h : (s.all fun c => P c) = true) :
    ∀ c ∈ s, P c := by
  simpa using h

end Tdlib.Text
