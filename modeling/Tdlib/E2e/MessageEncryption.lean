/-
Encryption of messages, from `td/e2e/MessageEncryption.cpp`.

A message is padded in front, and its identifier is a MAC of the padded message
together with the data that goes with it unencrypted. The keys of AES-CBC come
from the identifier and the secret. AES-CBC, HMAC and X25519 are parameters,
and so are the bytes of the random generator.
-/
import Tdlib.E2e.Block

namespace Tdlib.E2e

open Outcome

abbrev PrivateKey := UInt256

/-- What else is taken from the cryptographic library. The sizes of the results
are those of the buffers they are written to. -/
structure CallCrypto extends Crypto where
  hmacSha256 : Bytes → Bytes → Bytes
  hmacSha512 : Bytes → Bytes → Bytes
  /-- AES-CBC with a key, an initialization vector and data. -/
  aesCbcEncrypt : Bytes → Bytes → Bytes → Bytes
  aesCbcDecrypt : Bytes → Bytes → Bytes → Bytes
  toPublicKey : PrivateKey → PublicKey
  sign : PrivateKey → Bytes → Outcome Signature
  x25519 : PrivateKey → PublicKey → Outcome Bytes
  length_hmacSha256 : ∀ key message, (hmacSha256 key message).length = 32
  length_hmacSha512 : ∀ key message, (hmacSha512 key message).length = 64
  length_aesCbcEncrypt : ∀ key iv data, (aesCbcEncrypt key iv data).length = data.length
  length_aesCbcDecrypt : ∀ key iv data, (aesCbcDecrypt key iv data).length = data.length

/-- The bytes of a string literal. -/
def literal (s : String) : Bytes := s.toByteArray.data.toList

/-- A random generator, as the bytes that it gives. -/
abbrev Random := Nat → UInt8

/-- `secure_bytes`. -/
def Random.bytes (random : Random) (n : Nat) : Bytes := (List.range n).map random

/-- The generator after `n` bytes. -/
def Random.skip (random : Random) (n : Nat) : Random := fun i => random (n + i)

@[simp] theorem Random.length_bytes (random : Random) (n : Nat) : (random.bytes n).length = n := by
  simp [Random.bytes]

/-! ## AES-CBC -/

structure AesCbcState where
  key : Bytes
  iv : Bytes

namespace AesCbcState

variable (crypto : CallCrypto)

/-- The size of the data is passed to the library as an `int`. -/
def encrypt (state : AesCbcState) (data : Bytes) : Outcome Bytes :=
  if data = [] then pure []
  else do
    check (data.length % 16 = 0)
    check (data.length < 2 ^ 31)
    pure (crypto.aesCbcEncrypt state.key state.iv data)

def decrypt (state : AesCbcState) (data : Bytes) : Outcome Bytes :=
  if data = [] then pure []
  else do
    check (data.length % 16 = 0)
    check (data.length < 2 ^ 31)
    pure (crypto.aesCbcDecrypt state.key state.iv data)

end AesCbcState

namespace MessageEncryption

def minPadding : Nat := 16

def calcAesCbcStateFromHash (hash : Bytes) : Outcome AesCbcState := do
  check (48 ≤ hash.length)
  pure ⟨hash.take 32, (hash.drop 32).take 16⟩

/-- The size of the padding of `data_size` bytes. -/
def prefixSize (dataSize padding : Nat) : Nat := (padding + 15 + dataSize) / 16 * 16 - dataSize

/-- `gen_random_prefix`: the first byte is the size. -/
def genRandomPrefix (random : Random) (dataSize padding : Nat) : Outcome Bytes := do
  let size := prefixSize dataSize padding
  check (size < 256)
  check ((size + dataSize) % 16 = 0)
  pure ((random.bytes size).set 0 (UInt8.ofNat size))

section

variable (crypto : CallCrypto)

def kdfExpand (randomSecret info : Bytes) : Bytes := crypto.hmacSha512 randomSecret info

/-- The key of the encryption and the key of the MAC. -/
def dataSecrets (secret : Bytes) : Bytes × Bytes :=
  let largeSecret := kdfExpand crypto secret (literal "tde2e_encrypt_data")
  (largeSecret.take 32, (largeSecret.drop 32).take 32)

/-- The MAC of the padded data and of what goes with it unencrypted. -/
def largeMsgId (hmacSecret data extra : Bytes) : Bytes :=
  crypto.hmacSha256 hmacSecret (data ++ (extra ++ leBytes 4 extra.length))

/-- `encrypt_data_with_prefix`, with `save_large_msg_id`. -/
def encryptDataWithPrefix (data secret extra : Bytes) : Outcome (Bytes × Bytes) := do
  check (data.length % 16 = 0)
  let (encryptSecret, hmacSecret) := dataSecrets crypto secret
  check (extra.length < 2 ^ 31)
  let largeMsgId := largeMsgId crypto hmacSecret data extra
  let msgId := largeMsgId.take 16
  let cbcState ← calcAesCbcStateFromHash (crypto.hmacSha512 encryptSecret msgId)
  let encrypted ← cbcState.encrypt crypto data
  pure (msgId ++ encrypted, largeMsgId)

def encryptData (random : Random) (data secret additionalData : Bytes) : Outcome (Bytes × Bytes) := do
  let pfx ← genRandomPrefix random data.length minPadding
  encryptDataWithPrefix crypto (pfx ++ data) secret additionalData

/-- The padding is cut off. Its size is in the first byte, which belongs to the
data that goes with the message if the message is empty. -/
def cutPrefix (decryptedData extra : Bytes) : Outcome Bytes := do
  let prefixSize := ((decryptedData ++ (extra ++ leBytes 4 extra.length)).headD 0).toNat
  ensure (¬ (decryptedData.length < prefixSize ∨ prefixSize < minPadding))
    "Failed to decrypt: invalid prefix size"
  pure (decryptedData.drop prefixSize)

/-- `decrypt_data`, with `save_large_msg_id`. -/
def decryptData (encryptedData secret extra : Bytes) : Outcome (Bytes × Bytes) := do
  ensure (16 ≤ encryptedData.length) "Failed to decrypt: encrypted_data is less than 16 bytes"
  ensure (encryptedData.length % 16 = 0) "Failed to decrypt: data size is not divisible by 16"
  let (encryptSecret, hmacSecret) := dataSecrets crypto secret
  let msgId := encryptedData.take 16
  check (extra.length < 2 ^ 31)
  let cbcState ← calcAesCbcStateFromHash (crypto.hmacSha512 encryptSecret msgId)
  let decryptedData ← cbcState.decrypt crypto (encryptedData.drop 16)
  let expectedLargeMsgId := largeMsgId crypto hmacSecret decryptedData extra
  ensure (expectedLargeMsgId.take 16 = msgId) "Failed to decrypt: msg_id mismatch"
  let data ← cutPrefix decryptedData extra
  pure (data, expectedLargeMsgId)

/-- The key for the header of a message. -/
def headerState (encryptedMessage secret : Bytes) : Outcome AesCbcState :=
  let encryptionKey := (kdfExpand crypto secret (literal "tde2e_encrypt_header")).take 32
  calcAesCbcStateFromHash (crypto.hmacSha512 encryptionKey (encryptedMessage.take 16))

def encryptHeader (decryptedHeader encryptedMessage secret : Bytes) : Outcome Bytes := do
  ensure (16 ≤ encryptedMessage.length) "Failed to encrypt header: encrypted_message is too small"
  ensure (decryptedHeader.length = 32) "Failed to encrypt header: header must be 32 bytes"
  let cbcState ← headerState crypto encryptedMessage secret
  cbcState.encrypt crypto decryptedHeader

def decryptHeader (encryptedHeader encryptedMessage secret : Bytes) : Outcome Bytes := do
  ensure (16 ≤ encryptedMessage.length) "Failed to decrypt: invalid message size"
  ensure (encryptedHeader.length = 32) "Failed to decrypt: invalid header size"
  let cbcState ← headerState crypto encryptedMessage secret
  cbcState.decrypt crypto encryptedHeader

end

end MessageEncryption

/-- `PrivateKey::compute_shared_secret`. -/
def PrivateKey.computeSharedSecret (crypto : CallCrypto) (privateKey : PrivateKey) (publicKey : PublicKey) :
    Outcome Bytes := do
  let x25519SharedSecret ← crypto.x25519 privateKey publicKey
  pure ((crypto.hmacSha512 (literal "tde2e_shared_secret") x25519SharedSecret).take 32)

/-! ## What is encrypted is decrypted -/

/-- AES-CBC decryption inverts encryption. -/
def CallCrypto.AesInverts (crypto : CallCrypto) : Prop :=
  ∀ key iv data, data.length % 16 = 0 → crypto.aesCbcDecrypt key iv (crypto.aesCbcEncrypt key iv data) = data

variable {crypto : CallCrypto}
variable {state : AesCbcState} {data encrypted : Bytes}

theorem AesCbcState.encrypt_ok (h : state.encrypt crypto data = .ok encrypted) : encrypted.length = data.length := by
  rw [encrypt] at h
  split at h
  next hnil =>
    cases h
    rw [hnil]
  next =>
    simp only [bind_ok_iff, check_ok_iff, exists_const, pure_def, ok.injEq] at h
    obtain ⟨-, -, rfl⟩ := h
    exact crypto.length_aesCbcEncrypt _ _ _

theorem AesCbcState.decrypt_encrypt (haes : crypto.AesInverts)
    (h : state.encrypt crypto data = .ok encrypted) : state.decrypt crypto encrypted = .ok data := by
  have hlen := encrypt_ok h
  rw [encrypt] at h
  split at h
  next hnil =>
    cases h
    rw [hnil]
    rfl
  next hne =>
    simp only [bind_ok_iff, check_ok_iff, exists_const, pure_def, ok.injEq] at h
    obtain ⟨haligned, hsize, rfl⟩ := h
    have hne' : crypto.aesCbcEncrypt state.key state.iv data ≠ [] := by
      intro hnil
      rw [hnil] at hlen
      exact hne (List.length_eq_zero_iff.mp hlen.symm)
    rw [decrypt, if_neg hne', hlen, check_true haligned, check_true hsize, haes _ _ _ haligned]
    rfl

theorem AesCbcState.encrypt_total (crypto : CallCrypto) (state : AesCbcState) (haligned : data.length % 16 = 0)
    (hsize : data.length < 2 ^ 31) : ∃ encrypted, state.encrypt crypto data = .ok encrypted := by
  rw [encrypt]
  split
  next => exact ⟨_, rfl⟩
  next => exact ⟨_, by rw [check_true haligned, check_true hsize]; rfl⟩

namespace MessageEncryption

theorem calcAesCbcStateFromHash_ok (crypto : CallCrypto) (key message : Bytes) :
    ∃ state, calcAesCbcStateFromHash (crypto.hmacSha512 key message) = .ok state := by
  have hlen : 48 ≤ (crypto.hmacSha512 key message).length := by rw [crypto.length_hmacSha512]; omega
  rw [calcAesCbcStateFromHash, check_true hlen]
  exact ⟨_, rfl⟩

/-- The padding is of 16 to 31 bytes, says so in its first byte, and fills up the
data to blocks of 16 bytes. -/
theorem genRandomPrefix_spec (random : Random) (dataSize : Nat) :
    ∃ pfx, genRandomPrefix random dataSize minPadding = .ok pfx ∧ (pfx.length + dataSize) % 16 = 0 ∧
      16 ≤ pfx.length ∧ pfx.length < 32 ∧ pfx.head? = some (UInt8.ofNat pfx.length) := by
  have hlow : 16 ≤ prefixSize dataSize minPadding := by unfold prefixSize minPadding; omega
  have hhigh : prefixSize dataSize minPadding < 32 := by unfold prefixSize minPadding; omega
  have haligned : (prefixSize dataSize minPadding + dataSize) % 16 = 0 := by unfold prefixSize minPadding; omega
  rw [genRandomPrefix]
  simp only [check_true (show prefixSize dataSize minPadding < 256 by omega), check_true haligned,
    ok_bind, pure_def]
  generalize prefixSize dataSize minPadding = size at hlow hhigh haligned
  refine ⟨_, rfl, ?_, ?_, ?_, ?_⟩
  · simpa using haligned
  · simpa using hlow
  · simpa using hhigh
  · obtain ⟨n, rfl⟩ : ∃ n, size = n + 1 := ⟨size - 1, by omega⟩
    simp [Random.bytes, List.range_succ_eq_map]

/-- Data is encrypted unless it is too large for the cipher. -/
theorem encryptData_total (crypto : CallCrypto) (random : Random) {extra : Bytes} (secret : Bytes)
    (hdata : data.length < 2 ^ 31 - 32)
    (hextra : extra.length < 2 ^ 31) : ∃ encrypted, encryptData crypto random data secret extra = .ok encrypted := by
  obtain ⟨pfx, hpfx, haligned, -, hhigh, -⟩ := genRandomPrefix_spec random data.length
  have haligned' : (pfx ++ data).length % 16 = 0 := by rw [List.length_append]; exact haligned
  rw [encryptData, hpfx, ok_bind, encryptDataWithPrefix, check_true haligned', ok_bind]
  dsimp only
  rw [check_true hextra, ok_bind]
  obtain ⟨state, hstate⟩ := calcAesCbcStateFromHash_ok crypto (dataSecrets crypto secret).1
    ((largeMsgId crypto (dataSecrets crypto secret).2 (pfx ++ data) extra).take 16)
  obtain ⟨body, hbody⟩ := AesCbcState.encrypt_total crypto state haligned'
    (by rw [List.length_append]; omega)
  simp [hstate, ok_bind, hbody]

theorem encryptHeader_total (crypto : CallCrypto) {header message : Bytes} (secret : Bytes)
    (hmessage : 16 ≤ message.length)
    (hheader : header.length = 32) : ∃ encrypted, encryptHeader crypto header message secret = .ok encrypted := by
  rw [encryptHeader, ensure_true hmessage, ok_bind, ensure_true hheader, ok_bind]
  obtain ⟨state, hstate⟩ := calcAesCbcStateFromHash_ok crypto
    ((kdfExpand crypto secret (literal "tde2e_encrypt_header")).take 32) (message.take 16)
  rw [headerState, hstate, ok_bind]
  exact AesCbcState.encrypt_total crypto state (by rw [hheader]) (by rw [hheader]; decide)

/-- An encrypted message starts with its identifier and has at least one more block. -/
theorem encryptDataWithPrefix_ok {secret extra largeId : Bytes}
    (h : encryptDataWithPrefix crypto data secret extra = .ok (encrypted, largeId)) :
    encrypted.length = 16 + data.length ∧ data.length % 16 = 0 ∧ extra.length < 2 ^ 31 := by
  simp only [encryptDataWithPrefix, bind_ok_iff, check_ok_iff, exists_const, pure_def,
    ok.injEq, Prod.mk.injEq] at h
  obtain ⟨haligned, hextra, state, -, body, hbody, rfl, rfl⟩ := h
  refine ⟨?_, haligned, hextra⟩
  rw [List.length_append, List.length_take, largeMsgId, crypto.length_hmacSha256, AesCbcState.encrypt_ok hbody]
  rfl

theorem cutPrefix_append {pfx : Bytes} (extra : Bytes) (hlow : 16 ≤ pfx.length) (hhigh : pfx.length < 32)
    (hhead : pfx.head? = some (UInt8.ofNat pfx.length)) : cutPrefix (pfx ++ data) extra = .ok data := by
  cases pfx with
  | nil => cases hhead
  | cons byte rest =>
    have hbyte : byte.toNat = (byte :: rest).length := by
      have hsize := congrArg UInt8.toNat (Option.some.inj hhead)
      rw [UInt8.toNat_ofNat'] at hsize
      omega
    have hfirst : (((byte :: rest) ++ data ++ (extra ++ leBytes 4 extra.length)).headD 0).toNat =
        (byte :: rest).length := hbyte
    rw [cutPrefix, hfirst, ensure_true (by rw [List.length_append]; unfold minPadding; omega),
      ok_bind, List.drop_left]
    rfl

/-- **Messages read back**, with the identifier they were sent with. -/
theorem decryptData_encryptData (haes : crypto.AesInverts) {random : Random} {secret extra : Bytes}
    {largeId : Bytes} (h : encryptData crypto random data secret extra = .ok (encrypted, largeId)) :
    decryptData crypto encrypted secret extra = .ok (data, largeId) := by
  obtain ⟨pfx, hpfx, -, hlow, hhigh, hhead⟩ := genRandomPrefix_spec random data.length
  rw [encryptData, hpfx, ok_bind] at h
  obtain ⟨hlen, haligned, hextra⟩ := encryptDataWithPrefix_ok h
  simp only [encryptDataWithPrefix, bind_ok_iff, check_ok_iff, exists_const, pure_def,
    ok.injEq, Prod.mk.injEq] at h
  obtain ⟨-, -, state, hstate, body, hbody, rfl, rfl⟩ := h
  generalize hid : largeMsgId crypto (dataSecrets crypto secret).2 (pfx ++ data) extra = largeId at *
  have hidLen : (largeId.take 16).length = 16 := by
    rw [← hid, List.length_take, largeMsgId, crypto.length_hmacSha256]
    rfl
  simp_all [decryptData, ensure_true, ok_bind, AesCbcState.decrypt_encrypt haes hbody,
    cutPrefix_append extra hlow hhigh hhead, pure_def]

theorem encryptHeader_ok {header message secret : Bytes}
    (h : encryptHeader crypto header message secret = .ok encrypted) :
    16 ≤ message.length ∧ encrypted.length = 32 ∧ header.length = 32 := by
  simp only [encryptHeader, bind_ok_iff, ensure_ok_iff, exists_const] at h
  obtain ⟨hmessage, hheader, state, -, hencrypt⟩ := h
  exact ⟨hmessage, (AesCbcState.encrypt_ok hencrypt).trans hheader, hheader⟩

theorem decryptHeader_encryptHeader (haes : crypto.AesInverts) {header message secret : Bytes}
    (h : encryptHeader crypto header message secret = .ok encrypted) :
    decryptHeader crypto encrypted message secret = .ok header := by
  obtain ⟨hmessage, hlen, -⟩ := encryptHeader_ok h
  simp only [encryptHeader, bind_ok_iff, ensure_ok_iff, exists_const] at h
  obtain ⟨-, -, state, hstate, hencrypt⟩ := h
  rw [decryptHeader, ensure_true hmessage, ok_bind, ensure_true hlen, ok_bind,
    hstate, ok_bind]
  exact AesCbcState.decrypt_encrypt haes hencrypt

end MessageEncryption

end Tdlib.E2e
