/-
`BinlogEvent`: the record the binlog is made of. A raw event is its size,
id, type, flags and extra words, the data, and the CRC of all that.

What the log calls of other libraries (zlib's CRC, PBKDF2, HMAC and AES in
counter mode from OpenSSL) is a parameter, `Crypto`.
-/
import Tdlib.Tl

namespace Tdlib.Db

open List hiding pure_def
open Outcome TlParser

/-- The functions of other libraries the binlog calls. `aesCtr` is the key
stream of a key and an initialization vector. -/
structure Crypto where
  crc32 : Bytes → UInt32
  pbkdf2Sha256 : Bytes → Bytes → Nat → Bytes
  hmacSha256 : Bytes → Bytes → Bytes
  aesCtr : Bytes → Bytes → Nat → UInt8
  length_pbkdf2Sha256 : ∀ password salt n, (pbkdf2Sha256 password salt n).length = 32
  length_hmacSha256 : ∀ key message, (hmacSha256 key message).length = 32

/-- One bit of the CRC-32 of zlib. -/
def crc32Bit (crc : UInt32) : UInt32 := if crc &&& 1 = 1 then crc >>> 1 ^^^ 0xedb88320 else crc >>> 1

/-- The CRC-32 of zlib. -/
def zlibCrc32 (bytes : Bytes) : UInt32 :=
  bytes.foldl (fun crc byte => crc32Bit (crc32Bit (crc32Bit (crc32Bit (crc32Bit (crc32Bit (crc32Bit (crc32Bit
    (crc ^^^ byte.toUInt32))))))))) 0xffffffff ^^^ 0xffffffff

/-- The libraries as far as a log without a key calls them: the CRC. -/
def Crypto.keyless : Crypto where
  crc32 := zlibCrc32
  pbkdf2Sha256 _ _ _ := List.replicate 32 0
  hmacSha256 _ _ := List.replicate 32 0
  aesCtr _ _ _ := 0
  length_pbkdf2Sha256 _ _ _ := length_replicate
  length_hmacSha256 _ _ := length_replicate

def maxSize : Nat := 2 ^ 24
def headerSize : Nat := 4 + 8 + 4 + 4 + 8
def tailSize : Nat := 4
def minSize : Nat := headerSize + tailSize

namespace ServiceTypes

def empty : Int := -2
def aesCtrEncryption : Int := -3

end ServiceTypes

def rewriteFlag : Nat := 1
def partialFlag : Nat := 2

/-- `flags & mask`, as a condition. -/
def hasFlag (flags mask : Nat) : Bool := flags &&& mask != 0

/-- `flags & ~mask`, on 32 bits. -/
def clearFlag (flags mask : Nat) : Nat := flags &&& (2 ^ 32 - 1 ^^^ mask)

structure BinlogEvent where
  offset : Int := -1
  size : Nat := 0
  id : Nat := 0
  type : Int := 0
  flags : Nat := 0
  extra : Nat := 0
  crc32 : Nat := 0
  rawEvent : Bytes := []
  deriving DecidableEq, Repr

/-- What a replay hands on of an event: its id, type and data. -/
abbrev Record := Nat × Int × Bytes

namespace BinlogEvent

def init (rawEvent : Bytes) : Outcome BinlogEvent := do
  let parser := new rawEvent
  let (size, parser) := parser.fetchInt
  Outcome.check (size = rawEvent.length)
  let (id, parser) := parser.fetchLong
  let (type, parser) := parser.fetchInt
  let (flags, parser) := parser.fetchInt
  let (extra, parser) := parser.fetchLong
  Outcome.check (minSize ≤ size)
  let (_, parser) := parser.fetchStringRaw (size - minSize)
  let (crc32, _) := parser.fetchInt
  pure { size, id, type := int32OfBits type, flags, extra, crc32, rawEvent }

def getData (e : BinlogEvent) : Bytes := (e.rawEvent.drop headerSize).take (e.rawEvent.length - minSize)

def record (e : BinlogEvent) : Record := (e.id, e.type, e.getData)

/-- Whether `validate` returns OK. -/
def validate (c : Crypto) (e : BinlogEvent) : Bool :=
  if e.rawEvent.length < minSize then false
  else
    let (size, parser) := (new e.rawEvent).fetchInt
    if e.size ≠ size || e.size ≠ e.rawEvent.length then false
    else
      let (_, parser) := parser.fetchStringRaw (e.size - tailSize - 4)
      let (storedCrc32, _) := parser.fetchInt
      let calculatedCrc := (c.crc32 (e.rawEvent.take (e.size - tailSize))).toNat
      !(calculatedCrc ≠ e.crc32 || calculatedCrc ≠ storedCrc32)

/-- `create_raw` of the data a storer stores. -/
def createRaw (c : Crypto) (id : Nat) (type : Int) (flags : Nat) (data : Bytes) : Outcome Bytes := do
  let size := data.length + minSize
  -- `narrow_cast<int32>`
  Outcome.check (size < 2 ^ 31)
  let body := leBytes 4 size ++ leBytes 8 id ++ leBytes 4 (int32Bits type) ++ leBytes 4 flags ++ leBytes 8 0 ++ data
  pure (body ++ leBytes 4 (c.crc32 body).toNat)

end BinlogEvent

/-! ## Well-formed events -/

/-- The fields of an event that can be stored and that `validate` accepts. -/
structure LogEvent where
  id : Nat
  type : Int
  flags : Nat
  extra : Nat
  data : Bytes
  id_lt : id < 2 ^ 64
  type_ge : -2 ^ 31 ≤ type
  type_lt : type < 2 ^ 31
  flags_lt : flags < 2 ^ 32
  extra_lt : extra < 2 ^ 64
  aligned : data.length % 4 = 0
  small : data.length + minSize < 2 ^ 31
  deriving DecidableEq

namespace LogEvent

theorem zero_lt : 0 < 2 ^ 64 := by decide

variable (c : Crypto)

def size (e : LogEvent) : Nat := e.data.length + minSize

def record (e : LogEvent) : Record := (e.id, e.type, e.data)

def body (e : LogEvent) : Bytes :=
  leBytes 4 e.size ++ (leBytes 8 e.id ++ (leBytes 4 (int32Bits e.type) ++ (leBytes 4 e.flags ++
    (leBytes 8 e.extra ++ e.data))))

def crc (e : LogEvent) : Nat := (c.crc32 e.body).toNat

def raw (e : LogEvent) : Bytes := e.body ++ leBytes 4 (e.crc c)

/-- The event in memory. -/
def event (e : LogEvent) : BinlogEvent :=
  { size := e.size, id := e.id, type := e.type, flags := e.flags, extra := e.extra, crc32 := e.crc c,
    rawEvent := e.raw c }

@[simp] theorem event_rawEvent (e : LogEvent) : (e.event c).rawEvent = e.raw c := rfl
@[simp] theorem event_id (e : LogEvent) : (e.event c).id = e.id := rfl
@[simp] theorem event_type (e : LogEvent) : (e.event c).type = e.type := rfl
@[simp] theorem event_flags (e : LogEvent) : (e.event c).flags = e.flags := rfl
@[simp] theorem event_size (e : LogEvent) : (e.event c).size = e.size := rfl

theorem minSize_eq : minSize = 32 := rfl

theorem length_body (e : LogEvent) : e.body.length = e.data.length + 28 := by
  simp only [body, length_append, length_leBytes]; omega

@[simp] theorem length_raw (e : LogEvent) : (e.raw c).length = e.size := by
  simp [raw, length_leBytes, length_body, size, minSize_eq]

theorem size_ge (e : LogEvent) : 32 ≤ e.size := by simp only [size, minSize_eq]; omega

theorem size_lt (e : LogEvent) : e.size < 2 ^ 31 := e.small

/-- The reader does not refuse the event for its size. -/
def Fits (e : LogEvent) : Prop := e.size ≤ maxSize

section

variable (e : LogEvent)

include e

theorem size_aligned : e.size % 4 = 0 := by
  have := e.aligned
  simp only [size, minSize_eq]; omega

theorem raw_eq : e.raw c = leBytes 4 e.size ++ (leBytes 8 e.id ++ (leBytes 4 (int32Bits e.type) ++
    (leBytes 4 e.flags ++ (leBytes 8 e.extra ++ (e.data ++ leBytes 4 (e.crc c)))))) := by
  simp [raw, body]

theorem crc_lt : e.crc c < 256 ^ 4 := by
  have := (c.crc32 e.body).toNat_lt
  simp only [crc]; omega

/-- The size field of a raw event, wherever its bytes go on. -/
theorem leNat_size (rest : Bytes) : leNat ((e.raw c ++ rest).take 4) = e.size := by
  have := e.size_lt
  rw [raw_eq, append_assoc, take_append_of_le_length (by simp), take_of_length_le (by simp),
    leNat_leBytes_of_lt (by omega)]

/-- **Events read back**: parsing a raw event gives its fields. -/
theorem init_raw : BinlogEvent.init (e.raw c) = .ok (e.event c) := by
  have hsize := e.size_lt
  have hmin : minSize ≤ e.size := e.size_ge
  have hdata : e.data.length = e.size - minSize := by simp [size]
  have hcrc := fetchInt_append (e.crc_lt c) [] (e.raw c).length none
  rw [append_nil] at hcrc
  unfold BinlogEvent.init
  simp only [new_eq (e.raw_eq c), fetchInt_append (show e.size < 256 ^ 4 by omega), length_raw,
    check_true,
    ok_bind, fetchLong_append e.id_lt, fetchInt_append (int32Bits_lt e.type),
    fetchInt_append e.flags_lt, fetchLong_append e.extra_lt, hmin,
    fetchStringRaw_append hdata, length_raw c e ▸ hcrc, int32OfBits_int32Bits e.type_ge e.type_lt,
    pure_def]
  rfl

theorem getData_raw {b : BinlogEvent} (h : b.rawEvent = e.raw c) : b.getData = e.data := by
  have hlen : (e.raw c).length - minSize = e.data.length := by simp [size]
  unfold BinlogEvent.getData
  rw [h, hlen, raw_eq]
  simp only [← append_assoc]
  rw [append_assoc _ e.data, drop_append_of_le_length (by simp [headerSize]),
    drop_eq_nil_of_le (by simp [headerSize]), nil_append, take_left]

/-- A well-formed event is valid, whatever became of its flags and offset. -/
theorem validate_raw {b : BinlogEvent} (hraw : b.rawEvent = e.raw c) (hsize : b.size = e.size)
    (hcrc : b.crc32 = e.crc c) : b.validate c = true := by
  have hmin := e.size_ge
  have hmax := e.size_lt
  have htake : (e.raw c).take (e.size - tailSize) = e.body := by
    simp [raw, length_body, size, minSize_eq, tailSize]
  have hlast := fetchInt_append (e.crc_lt c) [] (e.raw c).length none
  rw [append_nil] at hlast
  -- The size word, the middle that `validate` skips, the CRC word.
  obtain ⟨mid, hmid, hlen⟩ : ∃ mid, e.raw c = leBytes 4 e.size ++ (mid ++ leBytes 4 (e.crc c)) ∧
      mid.length = e.size - tailSize - 4 := by
    refine ⟨leBytes 8 e.id ++ (leBytes 4 (int32Bits e.type) ++ (leBytes 4 e.flags ++
      (leBytes 8 e.extra ++ e.data))), by rw [raw_eq]; simp, ?_⟩
    simp only [length_append, length_leBytes, size, minSize_eq, tailSize]; omega
  unfold BinlogEvent.validate
  rw [hraw, hsize, hcrc, if_neg (by rw [length_raw, minSize_eq]; omega)]
  simp only [new_eq hmid, fetchInt_append (show e.size < 256 ^ 4 by omega), htake,
    fetchStringRaw_append hlen, hlast]
  simp [crc]

end

end LogEvent

theorem createRaw_eq (c : Crypto) (e : LogEvent) (he : e.extra = 0) :
    BinlogEvent.createRaw c e.id e.type e.flags e.data = .ok (e.raw c) := by
  have hfits := e.size_lt
  simp only [LogEvent.size] at hfits
  unfold BinlogEvent.createRaw
  dsimp only
  rw [check_true (by omega)]
  simp [pure_def, LogEvent.raw, LogEvent.crc, LogEvent.body, he, LogEvent.size, append_assoc]

end Tdlib.Db
