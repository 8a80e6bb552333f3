/-
Bit strings, from `td/e2e/BitString.cpp`.

A bit string is a range of bits of a buffer. The buffers are shared: a
substring points into the buffer of the whole string, and reading a bit string
inside a base string writes to the buffer of the base. Here a bit string holds
the contents of its buffer, so a caller that goes on with the base takes the
new contents from the string it got (`withBuffer`).

`data_` points to the first byte all of whose bits belong to the string. When
the string starts inside a byte, that byte is the one before `data_`.
-/
import Tdlib.Lib.Bits
import Tdlib.Tl

namespace Tdlib.E2e

open Outcome

structure BitString where
  /-- The buffer; `none` is the null pointer. -/
  data : Option Bytes
  /-- The byte of the buffer `data_` points to. -/
  ptr : Nat
  bitsSize : Nat
  bytesSize : Int
  beginBit : Nat
  endBit : Nat
  deriving DecidableEq, Repr

def beginMask (startBit : Nat) : UInt8 := UInt8.ofNat (0xFF >>> startBit)

def endMask (endBit : Nat) : UInt8 := UInt8.ofNat (0xFF <<< (8 - endBit))

def createMask (startBit endBit : Nat) : UInt8 := beginMask startBit &&& endMask endBit

def countLeadingZeroes32 (x : Nat) : Nat := if x = 0 then 32 else 31 - x.log2

def countCommonBits (byte1 byte2 : UInt8) (startBit endBit : Nat) : Nat :=
  countLeadingZeroes32 (((byte1 ^^^ byte2) &&& beginMask startBit).toNat >>> (8 - endBit)) + (endBit - startBit) - 32

/-- One where a string starts, or ends, inside a byte. -/
def inByte (bit : Nat) : Nat := if bit = 0 then 0 else 1

namespace BitString

/-- `BitString()`. -/
def null : BitString := ⟨none, 0, 0, 0, 0, 0⟩

/-- `BitString(ptr, offset, size)`. A pointer is a buffer and an index into
it. The sum is taken in `size_t`; an allocation of a negative size throws. -/
def create (ptr : Option (Bytes × Nat)) (offset size : Nat) : Outcome BitString := do
  let endPos := (offset + size) % 2 ^ 64
  let beginByte := (offset + 7) / 8
  let bytesSize : Int := ((endPos / 8 : Nat) : Int) - (beginByte : Int)
  let beginBit := offset % 8
  let endBit := endPos % 8
  check (bytesSize ≠ -1 ∨ beginBit ≠ 0 ∧ endBit ≠ 0)
  match ptr with
  | none =>
    let fullSize := bytesSize + inByte beginBit + inByte endBit
    check (0 ≤ fullSize)
    pure ⟨some (List.replicate fullSize.toNat 0), inByte beginBit, size, bytesSize, beginBit, endBit⟩
  | some (buf, base) => pure ⟨some buf, base + beginByte, size, bytesSize, beginBit, endBit⟩

/-- The string over the same buffer after a write to the buffer. -/
def withBuffer (bs other : BitString) : BitString := { bs with data := other.data }

/-- `BitString(key_data)`. -/
def ofSlice (keyData : Bytes) : Outcome BitString := do
  let bs ← create none 0 (keyData.length * 8)
  pure { bs with data := some keyData }

/-- `data_.get()[i]`; the byte before `data_` has the index `-1`. -/
def byteAt (bs : BitString) (i : Int) : UInt8 := (bs.data.getD []).getD (bs.ptr + i).toNat 0

/-- The `n` bytes from `data_` on. -/
def bytes (bs : BitString) (n : Nat) : Bytes := ((bs.data.getD []).drop bs.ptr).take n

def getBit (bs : BitString) (pos : Nat) : Outcome UInt8 := do
  check (pos < bs.bitsSize)
  let absoluteBitPos := pos + bs.beginBit
  let byteIndex : Int := ((absoluteBitPos / 8 : Nat) : Int) - inByte bs.beginBit
  let bitIndex := 7 - absoluteBitPos % 8
  pure ((bs.byteAt byteIndex >>> UInt8.ofNat bitIndex) &&& 1)

/-- `operator==`. -/
def equals (bs other : BitString) : Outcome Bool :=
  if bs.bitsSize ≠ other.bitsSize then pure false
  else if bs.bitsSize = 0 then pure true
  else do
    check (bs.beginBit = other.beginBit)
    check (bs.bytesSize = other.bytesSize)
    check (bs.endBit = other.endBit)
    if bs.bytesSize = -1 then
      let mask := createMask bs.beginBit bs.endBit
      pure (bs.byteAt (-1) &&& mask == other.byteAt (-1) &&& mask)
    else if bs.beginBit ≠ 0 ∧
        bs.byteAt (-1) &&& beginMask bs.beginBit ≠ other.byteAt (-1) &&& beginMask bs.beginBit then
      pure false
    else if bs.endBit ≠ 0 ∧
        bs.byteAt bs.bytesSize &&& endMask bs.endBit ≠ other.byteAt bs.bytesSize &&& endMask bs.endBit then
      pure false
    else pure (bs.bytes bs.bytesSize.toNat == other.bytes bs.bytesSize.toNat)

/-- The end of `common_prefix_length`, from `std::mismatch` on, with `res` bits
found equal before it. -/
def commonBytesLength (bs other : BitString) (bytesSize : Int) (endBit res minLength : Nat) : Outcome Nat := do
  let firstDiff := lcp (bs.bytes bytesSize.toNat) (other.bytes bytesSize.toNat)
  let res := res + firstDiff * 8
  if (firstDiff : Int) ≠ bytesSize then
    let res := res + countCommonBits (bs.byteAt firstDiff) (other.byteAt firstDiff) 0 8
    check (res ≤ minLength)
    pure res
  else if endBit ≠ 0 then
    let res := res + countCommonBits (bs.byteAt bytesSize) (other.byteAt bytesSize) 0 endBit
    check (res ≤ minLength)
    pure res
  else
    check (res ≤ minLength)
    pure res

def commonPrefixLength (bs other : BitString) : Outcome Nat := do
  check (bs.beginBit = other.beginBit)
  let minLength := min bs.bitsSize other.bitsSize
  let shorter := if bs.bitsSize < other.bitsSize then bs else other
  let beginBit := shorter.beginBit
  let endBit := shorter.endBit
  let bytesSize := shorter.bytesSize
  if bytesSize = -1 then
    let res := countCommonBits (bs.byteAt (-1)) (other.byteAt (-1)) beginBit endBit
    check (res ≤ minLength)
    pure res
  else if beginBit ≠ 0 then
    let byte1 := bs.byteAt (-1) &&& beginMask beginBit
    let byte2 := other.byteAt (-1) &&& beginMask beginBit
    if byte1 ≠ byte2 then
      let res := countCommonBits byte1 byte2 beginBit 8
      check (res ≤ minLength)
      pure res
    else commonBytesLength bs other bytesSize endBit (8 - beginBit) minLength
  else commonBytesLength bs other bytesSize endBit 0 minLength

def substr (bs : BitString) (pos length : Nat) : Outcome BitString := do
  let size := bs.bitsSize
  check (pos ≤ size)
  let newLength := min length (size - pos)
  create (bs.data.map fun buf => (buf, bs.ptr - inByte bs.beginBit)) (bs.beginBit + pos) newLength

/-- `substr(pos)`: the length defaults to `SIZE_MAX`. -/
def substrFrom (bs : BitString) (pos : Nat) : Outcome BitString := bs.substr pos (2 ^ 64 - 1)

/-- The bytes of `store` between the header and the padding. -/
def body (bs : BitString) : Bytes :=
  if bs.bytesSize = -1 then [bs.byteAt (-1) &&& createMask bs.beginBit bs.endBit]
  else
    (if bs.beginBit ≠ 0 then [bs.byteAt (-1) &&& beginMask bs.beginBit] else []) ++
      bs.bytes bs.bytesSize.toNat ++
      (if bs.endBit ≠ 0 then [bs.byteAt bs.bytesSize &&& endMask bs.endBit] else [])

/-- `store`. -/
def store (bs : BitString) : Bytes :=
  leBytes 4 (bs.beginBit <<< 16 ||| (bs.beginBit + bs.bitsSize) % 2 ^ 16) ++ bs.body ++ padding bs.body.length

/-- `ptr[i] |= byte`. -/
def orAt (bs : BitString) (i : Int) (byte : UInt8) : BitString :=
  { bs with data := bs.data.map fun buf => buf.set (bs.ptr + i).toNat (bs.byteAt i ||| byte) }

/-- `MutableSlice(ptr, n).copy_from(slice)` for a slice that is not longer. -/
def copyFrom (bs : BitString) (slice : Bytes) : BitString :=
  { bs with data := bs.data.map fun buf => buf.take bs.ptr ++ slice ++ buf.drop (bs.ptr + slice.length) }

/-- The loop at the end of `fetch_bit_string`, after `n` bytes. -/
def skipPadding (n : Nat) (parser : TlParser) : TlParser :=
  Nat.iterate (fun parser => (parser.fetchBinary 1).2) ((4 - n % 4) % 4) parser

/-- `parser.fetch_binary<uint8>()`. -/
def fetchByte (parser : TlParser) : UInt8 × TlParser :=
  let (bytes, parser) := parser.fetchBinary 1
  (bytes.getD 0 0, parser)

/-- One more byte of a bit string, or of none if the string ends at a byte. -/
def fetchMasked (bs : BitString) (bit : Nat) (mask : UInt8) (i : Int) (parser : TlParser) : BitString × TlParser :=
  if bit ≠ 0 then
    let (byte, parser) := fetchByte parser
    (bs.orAt i (byte &&& mask), parser)
  else (bs, parser)

/-- `fetch_bit_string` after its header: the bytes are read into `bs`. -/
def fetchBody (bs : BitString) (parser : TlParser) : BitString × TlParser :=
  if bs.bytesSize = -1 then
    let (byte, parser) := fetchByte parser
    (bs.orAt (-1) (byte &&& createMask bs.beginBit bs.endBit), skipPadding 1 parser)
  else
    let (bs, parser) := bs.fetchMasked bs.beginBit (beginMask bs.beginBit) (-1) parser
    let (slice, parser) := parser.fetchStringRaw bs.bytesSize.toNat
    let bs := bs.copyFrom slice
    let (bs, parser) := bs.fetchMasked bs.endBit (endMask bs.endBit) bs.bytesSize parser
    (bs, skipPadding (inByte bs.beginBit + bs.bytesSize.toNat + inByte bs.endBit) parser)

/-- `fetch_bit_string(parser, base_bs)`. The string is a range of the buffer of
`baseBs`, if it has one. -/
def fetch (parser : TlParser) (baseBs : BitString) : Outcome (BitString × TlParser) := do
  let (beginEnd, parser) := parser.fetchInt
  let beginPos := beginEnd >>> 16
  let endPos := beginEnd % 2 ^ 16
  let length := (endPos + 2 ^ 64 - beginPos) % 2 ^ 64
  let bs ← if baseBs.data.isSome then baseBs.substr 0 length else create none beginPos length
  pure (bs.fetchBody parser)

end BitString

end Tdlib.E2e
