/-
Encrypted logs: an encryption event in the clear, then the events under the
key stream it names. `do_event` of that event takes the key it was made with
when it is given a key that fits.
-/
import Tdlib.Binlog.Load
import Tdlib.Binlog.Log

namespace Tdlib.Db

open List hiding pure_def
open Outcome AesCtrEncryptionEvent

/-- The salt, the initialization vector and the key of an encrypted log. -/
structure Encryption where
  keySalt : Bytes
  iv : Bytes
  key : Bytes
  length_keySalt : keySalt.length = 32
  length_iv : iv.length = 16
  length_key : key.length = 32

/-- A string short enough for its length to take one byte. -/
def shortString (str : Bytes) : Bytes := UInt8.ofNat str.length :: (str ++ padding (str.length + 1))

theorem storeString_short {str : Bytes} (h : str.length < 254) : storeString str = .ok (shortString str) := by
  unfold storeString; dsimp only; rw [if_pos h]; rfl

theorem length_shortString (str : Bytes) :
    (shortString str).length = str.length + 1 + (4 - (str.length + 1) % 4) % 4 := by
  simp only [shortString, length_cons, length_append, length_padding]; omega

namespace Encryption

variable (c : Crypto) (enc : Encryption)

def event : AesCtrEncryptionEvent := ⟨enc.keySalt, enc.iv, generateHash c enc.key⟩

@[simp] theorem event_keySalt : (enc.event c).keySalt = enc.keySalt := rfl
@[simp] theorem event_iv : (enc.event c).iv = enc.iv := rfl

theorem length_keyHash : (enc.event c).keyHash.length = 32 := c.length_hmacSha256 _ _

/-- The data of the encryption event. -/
def data : Bytes :=
  leBytes 4 0 ++ (shortString enc.keySalt ++ (shortString enc.iv ++ shortString (enc.event c).keyHash))

theorem length_data : (enc.data c).length = 96 := by
  simp [data, length_leBytes, length_shortString, enc.length_keySalt, enc.length_iv, enc.length_keyHash]

/-- The encryption event. -/
def header : LogEvent where
  id := 0
  type := ServiceTypes.aesCtrEncryption
  flags := 0
  extra := 0
  data := enc.data c
  id_lt := LogEvent.zero_lt
  type_ge := by decide
  type_lt := by decide
  flags_lt := by decide
  extra_lt := LogEvent.zero_lt
  aligned := by rw [length_data]
  small := by rw [length_data]; decide

theorem keySalt_short : enc.keySalt.length < 254 := by
  rw [enc.length_keySalt]
  omega

theorem iv_short : enc.iv.length < 254 := by
  rw [enc.length_iv]
  omega

theorem keyHash_short : (enc.event c).keyHash.length < 254 := by
  rw [enc.length_keyHash]
  omega

theorem store_event : (enc.event c).store = .ok (enc.header c).data := by
  unfold store
  rw [event_keySalt, event_iv, storeString_short enc.keySalt_short, storeString_short enc.iv_short,
    storeString_short (enc.keyHash_short c)]
  rfl

theorem parse_data : ∃ parser, parse (enc.data c) = (enc.event c, parser) ∧ parser.error = none := by
  have hsalt := storeString_short enc.keySalt_short
  have hiv := storeString_short enc.iv_short
  have hhash := storeString_short (enc.keyHash_short c)
  have hdata : enc.data c = leBytes 4 0 ++ _ := rfl
  unfold parse
  rw [TlParser.new_eq hdata, TlParser.fetchInt_append (by omega)]
  dsimp only
  rw [if_neg (by simp), TlParser.fetchString_storeString hsalt rfl]
  rw [TlParser.fetchString_storeString hiv rfl]
  rw [TlParser.fetchString_storeString hhash (append_nil _).symm]
  exact ⟨_, rfl, rfl⟩

end Encryption

/-- The key a database key gives with a salt. -/
def deriveKey (c : Crypto) (dbKey : DbKey) (keySalt : Bytes) : Bytes :=
  c.pbkdf2Sha256 dbKey.data keySalt
    (if dbKey.isRawKey then kdfFastIterationCount else kdfIterationCount)

theorem length_deriveKey (c : Crypto) (dbKey : DbKey) (keySalt : Bytes) : (deriveKey c dbKey keySalt).length = 32 :=
  c.length_pbkdf2Sha256 _ _ _

theorem generateKey_eq {c : Crypto} {dbKey : DbKey} (h : dbKey.isEmpty = false) (event : AesCtrEncryptionEvent) :
    event.generateKey c dbKey = .ok (deriveKey c dbKey event.keySalt) := by
  unfold generateKey
  rw [check_true h]; rfl

/-- The log is under a key of `dbKey`. -/
def Encryption.IsFor (c : Crypto) (enc : Encryption) (dbKey : DbKey) : Prop :=
  dbKey.isEmpty = false ∧ enc.key = deriveKey c dbKey enc.keySalt

/-- The key `init` tries first. -/
def firstKey (c : Crypto) (dbKey : DbKey) (keySalt : Bytes) : Bytes :=
  if dbKey.isEmpty then [] else deriveKey c dbKey keySalt

/-- The keys open the log, the first of them if `used`: the old key is tried
where the hash of the first one shows that it is not the log's. -/
def Encryption.Opens (c : Crypto) (enc : Encryption) (dbKey oldDbKey : DbKey) (used : Bool) : Prop :=
  if used then enc.IsFor c dbKey
  else generateHash c (firstKey c dbKey enc.keySalt) ≠ (enc.event c).keyHash ∧
    enc.IsFor c oldDbKey

/-- The keys open the log, if it needs any. -/
def OpenedBy (c : Crypto) (enc : Option Encryption) (dbKey oldDbKey : DbKey) : Prop :=
  ∃ used, ∀ e, enc = some e → e.Opens c dbKey oldDbKey used

theorem OpenedBy.none (c : Crypto) (dbKey oldDbKey : DbKey) : OpenedBy c none dbKey oldDbKey := ⟨false, by simp⟩

/-! ## The bytes -/

/-- The file that has `plain` in an encrypted log, or in one that is not. -/
def sealed (c : Crypto) : Option Encryption → Bytes → Bytes
  | none, plain => plain
  | some enc, plain => (enc.header c).raw c ++ xorStream (c.aesCtr enc.key enc.iv) 0 plain

/-- The bytes of a log. -/
def encode (c : Crypto) (enc : Option Encryption) (log : List LogEvent) : Bytes := sealed c enc (raws c log)

theorem encode_eq (c : Crypto) (enc : Option Encryption) (log : List LogEvent) :
    encode c enc log = sealed c enc (raws c log ++ []) := by rw [append_nil]; rfl

def headerLength : Option Encryption → Nat
  | none => 0
  | some _ => 128

theorem Encryption.size_header (c : Crypto) (enc : Encryption) : (enc.header c).size = 128 := by
  show (enc.data c).length + minSize = 128
  rw [enc.length_data]; rfl

theorem Encryption.fits_header (c : Crypto) (enc : Encryption) : (enc.header c).Fits := by
  unfold LogEvent.Fits; rw [enc.size_header]; decide

theorem length_sealed (c : Crypto) (enc : Option Encryption) (plain : Bytes) :
    (sealed c enc plain).length = headerLength enc + plain.length := by
  cases enc with
  | none => simp [sealed, headerLength]
  | some enc => simp [sealed, headerLength, enc.size_header]

/-- What is written of `plain` after `pos` bytes of events. -/
def cipher (c : Crypto) : Option Encryption → Nat → Bytes → Bytes
  | none, _, plain => plain
  | some enc, pos, plain => xorStream (c.aesCtr enc.key enc.iv) pos plain

section

variable (c : Crypto) (enc : Option Encryption)

include c enc

theorem sealed_append (as bs : Bytes) :
    sealed c enc (as ++ bs) = sealed c enc as ++ cipher c enc as.length bs := by
  cases enc with
  | none => rfl
  | some enc => simp [sealed, cipher, xorStream_append, append_assoc]

theorem encode_append (as bs : List LogEvent) :
    encode c enc (as ++ bs) = encode c enc as ++ cipher c enc (raws c as).length (raws c bs) := by
  unfold encode; rw [raws_append, sealed_append]

/-- A file cut short: its beginning, or a torn encryption event. -/
theorem take_sealed (plain : Bytes) (n : Nat) :
    (headerLength enc ≤ n ∧ (sealed c enc plain).take n = sealed c enc (plain.take (n - headerLength enc))) ∨
    (n < headerLength enc ∧ Torn c ((sealed c enc plain).take n)) := by
  cases enc with
  | none => exact .inl ⟨Nat.zero_le _, rfl⟩
  | some enc =>
    have hlen : ((enc.header c).raw c).length = 128 := by rw [LogEvent.length_raw, enc.size_header]
    simp only [headerLength, sealed]
    by_cases hn : 128 ≤ n
    · refine .inl ⟨hn, ?_⟩
      rw [take_append, take_of_length_le (by omega), hlen, xorStream_take]
    · refine .inr ⟨by omega, enc.header c, n, enc.fits_header c, by rw [enc.size_header]; omega, ?_⟩
      rw [take_append_of_le_length (by omega)]

end

/-! ## The encryption event -/

namespace Binlog

variable {c : Crypto} {b : Binlog} {enc : Encryption} {event : BinlogEvent}

theorem updateEncryption_eq (hold : b.aesCtrKey.length = 32) : b.updateEncryption enc.key enc.iv =
      .ok { b with aesCtrKey := enc.key, aesCtrState := ⟨enc.key, enc.iv, 0⟩ } := by
  have hkey := enc.length_key
  have hiv := enc.length_iv
  unfold updateEncryption
  rw [check_true (by omega), check_true (by omega)]
  simp [pure_def, drop_eq_nil_of_le (show b.aesCtrKey.length ≤ enc.key.length by omega), append_nil, hiv,
    replicate_zero]

theorem keySalt_ne_nil (enc : Encryption) : ¬ ([] : Bytes) = enc.keySalt := by
  intro h
  have := enc.length_keySalt
  rw [← h] at this
  simp at this

theorem eventKey_eq (hsalt : b.aesCtrKeySalt = []) :
    b.eventKey c (enc.event c) = .ok (firstKey c b.dbKey enc.keySalt) := by
  unfold eventKey firstKey
  rw [hsalt, Encryption.event_keySalt, if_neg (keySalt_ne_nil enc)]
  cases hd : b.dbKey.isEmpty with
  | true => rfl
  | false => exact generateKey_eq hd _

/-- While a log is loaded, the key that opens it is found. -/
theorem chooseKey_load {used : Bool} (hstate : b.state = .load) (hsalt : b.aesCtrKeySalt = [])
    (hopens : enc.Opens c b.dbKey b.oldDbKey used) :
    b.chooseKey c (enc.event c) = .ok (enc.key, { b with dbKeyUsed := b.dbKeyUsed || used }) := by
  have hhash : ¬ generateHash c enc.key ≠ (enc.event c).keyHash := fun h => h rfl
  unfold chooseKey
  rw [eventKey_eq hsalt]
  cases used with
  | true =>
    obtain ⟨hd, hk⟩ := hopens
    have hfk : firstKey c b.dbKey enc.keySalt = enc.key := by
      unfold firstKey; rw [if_neg (by simp [hd]), hk]
    simp [hfk, hhash, Bool.or_true]
  | false =>
    obtain ⟨hne, hd, hk⟩ := hopens
    simp [hne, check_true hstate, ok_bind, hd, generateKey_eq hd, Encryption.event_keySalt, ← hk, hhash, Bool.or_false]

/-- While a log is loaded, its encryption event switches to its key. -/
theorem doEncryptionEvent_load {used : Bool} (himage : Image c event (enc.header c)) (hstate : b.state = .load)
    (hsalt : b.aesCtrKeySalt = []) (hkey : b.aesCtrKey.length = 32) (hopens : enc.Opens c b.dbKey b.oldDbKey used) :
    b.doEncryptionEvent c event =
      .ok { b with
        dbKeyUsed := b.dbKeyUsed || used, encryptionType := .aesCtr, aesCtrKeySalt := enc.keySalt,
        aesCtrKey := enc.key, aesCtrState := ⟨enc.key, enc.iv, 0⟩, byteFlowFlag := true,
        input := { b.input with sink := [] } } := by
  obtain ⟨parser, hparse, herr⟩ := enc.parse_data c
  unfold doEncryptionEvent
  rw [show event.getData = enc.data c from (enc.header c).getData_raw c himage.rawEvent, hparse]
  dsimp only
  rw [check_true herr, chooseKey_load hstate hsalt hopens]
  simp only [ok_bind]
  unfold switchEncryption
  rw [Encryption.event_iv, updateEncryption_eq (by exact hkey)]
  simp only [ok_bind, hstate, if_true]
  rfl

end Binlog

end Tdlib.Db
