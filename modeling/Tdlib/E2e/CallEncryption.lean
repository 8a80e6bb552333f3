/-
Encryption of the packets of a call, from `td/e2e/Call.cpp`.

A packet is encrypted with a secret of its own, which goes with it once for
every active epoch, encrypted with the secret of the epoch. The receiver takes
the first epoch it knows. It accepts a number of a sender and a channel only
once.
-/
import Tdlib.Lib.OrderedMap
import Tdlib.E2e.Blockchain
import Tdlib.E2e.MessageEncryption

namespace Tdlib.E2e

open Outcome MessageEncryption

/-- `get_participant` of a user identifier. -/
def GroupState.getParticipantById (g : GroupState) (userId : BitVec 64) : Outcome GroupParticipant :=
  match g.participants.find? fun p => p.userId = userId with
  | some p => .ok p
  | none => .error "Participant not found"

structure EpochInfo where
  epoch : Int
  epochHash : UInt256
  userId : BitVec 64
  secret : Bytes
  groupState : GroupState
  deriving DecidableEq, Repr

/-- The maps from channels, hashes and senders are functions, with a default for
what is not there. The epochs are in the order of their map. Times are those of
`Timestamp`. -/
structure CallEncryption where
  userId : BitVec 64
  privateKey : PrivateKey
  seqno : BitVec 32 → BitVec 32 := fun _ => 0
  epochs : List EpochInfo := []
  epochByHash : UInt256 → Option Int := fun _ => none
  epochsToForget : List (Rat × Int) := []
  seen : PublicKey × BitVec 32 → List (BitVec 32) := fun _ => []

namespace CallEncryption

def forgetEpochDelay : Rat := 10

def maxActiveEpochs : Nat := 15

/-! ## Epochs -/

def findEpoch (s : CallEncryption) (epoch : Int) : Option EpochInfo := s.epochs.find? fun info => info.epoch = epoch

/-- The body of the loop of `sync`. -/
def forgetEpoch (s : CallEncryption) (epoch : Int) : CallEncryption :=
  match s.findEpoch epoch with
  | some info =>
    { s with
      epochByHash := Function.update s.epochByHash info.epochHash none
      epochs := OrderedMap.erase EpochInfo.epoch epoch s.epochs }
  | none => s

/-- The loop of `sync`, over the queue of the epochs to forget. -/
def syncLoop (now : Rat) (s : CallEncryption) : List (Rat × Int) → CallEncryption
  | [] => { s with epochsToForget := [] }
  | (at_, epoch) :: rest =>
    if at_ ≤ now ∨ maxActiveEpochs < s.epochs.length then syncLoop now (s.forgetEpoch epoch) rest
    else { s with epochsToForget := (at_, epoch) :: rest }

def sync (s : CallEncryption) (now : Rat) : CallEncryption := syncLoop now s s.epochsToForget

section

variable (s : CallEncryption) (now : Rat)

theorem sync_eq : s.sync now =
    { s with
      epochs := (s.sync now).epochs
      epochByHash := (s.sync now).epochByHash
      epochsToForget := (s.sync now).epochsToForget } := by
  rw [sync]
  generalize s.epochsToForget = queue
  induction queue generalizing s with
  | nil => rfl
  | cons item queue ih =>
    obtain ⟨at_, epoch⟩ := item
    rw [syncLoop]
    split
    · have hforget : ∀ t : CallEncryption, { s.forgetEpoch epoch with
          epochs := t.epochs, epochByHash := t.epochByHash, epochsToForget := t.epochsToForget } = { s with
          epochs := t.epochs, epochByHash := t.epochByHash, epochsToForget := t.epochsToForget } := by
        intro t
        rw [forgetEpoch]
        split <;> rfl
      rw [← hforget]
      exact ih (s.forgetEpoch epoch)
    · rfl

@[simp] theorem sync_userId : (s.sync now).userId = s.userId := by rw [sync_eq]

@[simp] theorem sync_privateKey : (s.sync now).privateKey = s.privateKey := by
  rw [sync_eq]

@[simp] theorem sync_seqno : (s.sync now).seqno = s.seqno := by rw [sync_eq]

@[simp] theorem sync_seen : (s.sync now).seen = s.seen := by rw [sync_eq]

end

/-- `add_shared_key`: the state afterwards, and the status. -/
def addSharedKey (crypto : CallCrypto) (s : CallEncryption) (now : Rat) (epoch : Int) (epochHash : UInt256)
    (key : Bytes) (groupState : GroupState) : CallEncryption × Outcome Unit :=
  let s := s.sync now
  commit s do
    let self ← groupState.getParticipant (crypto.toPublicKey s.privateKey)
    ensure (self.userId = s.userId) "Wrong user identifier in state"
    check (s.findEpoch epoch = none)
    let info : EpochInfo := ⟨epoch, epochHash, self.userId, key, groupState⟩
    pure
      ({ s with
        epochByHash := Function.update s.epochByHash epochHash (some epoch)
        epochs := OrderedMap.emplace EpochInfo.epoch info s.epochs }, ())

/-- `forget_shared_key`. `Timestamp::in` counts from a time that was cached. -/
def forgetSharedKey (s : CallEncryption) (now cached : Rat) (epoch : Int) : CallEncryption :=
  let s := s.sync now
  { s with epochsToForget := s.epochsToForget ++ [(cached + forgetEpochDelay, epoch)] }

/-! ## Numbers that were seen -/

def checkNotSeen (s : CallEncryption) (publicKey : PublicKey) (channelId seqno : BitVec 32) : Outcome Unit :=
  match s.seen (publicKey, channelId) with
  | [] => pure ()
  | first :: rest => do
    ensure (¬ seqno < first) "Message is too old"
    ensure (seqno ∉ first :: rest) "Message is already processed"

/-- The loop of `mark_as_seen`. The addition is one of `uint32`. -/
def forgetSeen (seqno : BitVec 32) : List (BitVec 32) → List (BitVec 32)
  | [] => []
  | first :: rest =>
    if 1024 < (first :: rest).length ∨ first + 1024 < seqno then forgetSeen seqno rest else first :: rest

def markAsSeen (s : CallEncryption) (publicKey : PublicKey) (channelId seqno : BitVec 32) : Outcome CallEncryption := do
  let seen := s.seen (publicKey, channelId)
  check (seqno ∉ seen)
  let seen := forgetSeen seqno (OrderedMap.emplace BitVec.toNat seqno seen)
  pure { s with seen := Function.update s.seen (publicKey, channelId) seen }

def validateChannelId (channelId : BitVec 32) : Outcome Unit :=
  ensure (¬ (channelId.toInt < 0 ∨ 1023 < channelId.toInt)) ErrorCode.invalidCallChannelId.errorString

/-! ## Encryption -/

namespace TlId

def callPacket : Nat := 0x40a6bee9
def callPacketLargeMsgId : Nat := 0x1ce56c2d

end TlId

/-- `make_magic`. -/
def makeMagic (magic : Nat) : Bytes := leBytes 4 magic

/-- `encrypt_packet_with_secret`. The number is used up even if the signature
fails. -/
def encryptPacketWithSecret (crypto : CallCrypto) (s : CallEncryption) (random : Random) (channelId : BitVec 32)
    (unencryptedPart packet oneTimeSecret : Bytes) : CallEncryption × Outcome Bytes :=
  match (do
    validateChannelId channelId
    ensure (s.seqno channelId ≠ BitVec.allOnes 32) "Seqno overflow" : Outcome Unit) with
  | .error e => (s, .error e)
  | .fatal => (s, .fatal)
  | .ok () =>
    let seqno := s.seqno channelId + 1
    let s := { s with seqno := Function.update s.seqno channelId seqno }
    commit s do
      let payload := storeBits 4 channelId ++ (storeBits 4 seqno ++ packet)
      let (encryptedPayload, largeMsgId) ← encryptData crypto random payload oneTimeSecret
        (makeMagic TlId.callPacket ++ unencryptedPart)
      let signature ← crypto.sign s.privateKey (makeMagic TlId.callPacketLargeMsgId ++ largeMsgId)
      pure (s, encryptedPayload ++ storeBits 64 signature)

/-- The number of the epochs, and their hashes. -/
def headerA (epochs : List EpochInfo) : Bytes :=
  leBytes 4 epochs.length ++ (epochs.map fun epoch => epoch.epochHash.store).flatten

/-- The secret of the packet, for one epoch. -/
def encryptedHeader (crypto : CallCrypto) (oneTimeSecret encryptedPacket : Bytes) (epoch : EpochInfo) :
    Outcome Bytes := do
  let header ← encryptHeader crypto oneTimeSecret encryptedPacket epoch.secret
  check (header.length = 32)
  pure header

/-- `encrypt`. The random bytes are those of the secret, and of the padding. -/
def encrypt (crypto : CallCrypto) (s : CallEncryption) (now : Rat) (random : Random) (channelId : BitVec 32)
    (data : Bytes) (unencryptedHeaderLength : Nat) : CallEncryption × Outcome Bytes :=
  let s := s.sync now
  let unencryptedPrefix := data.take unencryptedHeaderLength
  let oneTimeSecret := random.bytes 32
  match (do
    ensure (¬ (data.length < unencryptedHeaderLength ∨ 2 ^ 16 ≤ unencryptedHeaderLength))
      "Unencrypted header length is too large"
    ensure (s.epochs ≠ []) ErrorCode.encryptUnknownEpoch.errorString
    check (s.epochs.length < 2 ^ 31) : Outcome Unit) with
  | .error e => (s, .error e)
  | .fatal => (s, .fatal)
  | .ok () =>
    let (s, encryptedPacket) := s.encryptPacketWithSecret crypto (random.skip 32) channelId
      (headerA s.epochs ++ unencryptedPrefix) (data.drop unencryptedHeaderLength) oneTimeSecret
    commit s do
      let encryptedPacket ← encryptedPacket
      let encryptedHeaders ← s.epochs.mapM (encryptedHeader crypto oneTimeSecret encryptedPacket)
      pure (s, unencryptedPrefix ++ (headerA s.epochs ++ (encryptedHeaders.flatten ++
        (encryptedPacket ++ leBytes 4 unencryptedHeaderLength))))

/-! ## Decryption -/

/-- What a packet is made of. -/
structure Packet where
  unencryptedPrefix : Bytes
  unencryptedHeader : Bytes
  epochHashes : List UInt256
  encryptedHeaders : List Bytes
  encryptedPacket : Bytes
  deriving DecidableEq, Repr

/-- The first part of `decrypt`: the prefix is cut off from the end, and the rest
is parsed. -/
def readPacket (s : CallEncryption) (userId : BitVec 64) (packet : Bytes) : Outcome Packet := do
  ensure (4 ≤ packet.length) "Packet too small"
  let unencryptedPrefixSize := leNat (packet.drop (packet.length - 4))
  let packet := packet.take (packet.length - 4)
  ensure (¬ (packet.length < unencryptedPrefixSize ∨ 2 ^ 16 ≤ unencryptedPrefixSize))
    "Unencrypted prefix size is too large"
  let encryptedData := packet.drop unencryptedPrefixSize
  ensure (userId ≠ s.userId) "Packet is encrypted by us"
  let (head, parser) := (TlParser.new encryptedData).fetchInt
  let epochsN := head % 256
  ensure (head / 256 % 256 = 0) "Unsupported protocol version"
  ensure (head / 65536 = 0) "Reserved part of head is not zero"
  ensure (epochsN ≤ maxActiveEpochs) "Too many active epochs"
  let (epochHashes, parser) := parser.fetchItems fetchUInt256 epochsN
  let unencryptedHeader := encryptedData.take (encryptedData.length - parser.data.length)
  let (encryptedHeaders, parser) := parser.fetchItems (TlParser.fetchStringRaw 32) epochsN
  let (encryptedPacket, parser) := parser.fetchStringRaw parser.data.length
  parser.fetchEnd.getStatus
  pure
    { unencryptedPrefix := packet.take unencryptedPrefixSize
      unencryptedHeader, epochHashes, encryptedHeaders, encryptedPacket }

/-- The epoch with the hash, if it is known and not forgotten. -/
def epochByHash? (s : CallEncryption) (epochHash : UInt256) : Option EpochInfo := do
  let epoch ← s.epochByHash epochHash
  s.findEpoch epoch

/-- The loop of `decrypt`: the first epoch of the packet that is known, and the
header for it. -/
def knownEpoch (s : CallEncryption) (packet : Packet) : Option (EpochInfo × Bytes) :=
  (packet.epochHashes.zip packet.encryptedHeaders).findSome? fun item =>
    (s.epochByHash? item.1).map fun info => (info, item.2)

/-- Who sent a packet, on which channel, with which number, and what. -/
structure Opened where
  publicKey : PublicKey
  channelId : BitVec 32
  seqno : BitVec 32
  result : Bytes
  deriving DecidableEq, Repr

/-- What is encrypted in a packet. -/
def readPayload (publicKey : PublicKey) (payload : Bytes) : Outcome Opened := do
  let (channelId, parser) := (TlParser.new payload).fetchBits 4 32
  validateChannelId channelId
  let (seqno, parser) := parser.fetchBits 4 32
  let (result, parser) := parser.fetchStringRaw parser.data.length
  parser.fetchEnd.getStatus
  pure ⟨publicKey, channelId, seqno, result⟩

/-- `decrypt_packet_with_secret`, up to the check of the number. The signature is
made of the last 64 bytes. -/
def openPacketWithSecret (crypto : CallCrypto) (expectedUserId : BitVec 64) (packet : Packet) (oneTimeSecret : Bytes)
    (groupState : GroupState) : Outcome Opened := do
  let participant ← groupState.getParticipantById expectedUserId
  let encryptedPacket := packet.encryptedPacket
  ensure (64 ≤ encryptedPacket.length) "Not enough encryption data"
  let signature := BitVec.ofNat 512 (leNat (encryptedPacket.drop (encryptedPacket.length - 64)))
  let (payload, largeMsgId) ← decryptData crypto
    (encryptedPacket.take (encryptedPacket.length - 64)) oneTimeSecret
    (makeMagic TlId.callPacket ++ (packet.unencryptedHeader ++ packet.unencryptedPrefix))
  match crypto.verify participant.publicKey (makeMagic TlId.callPacketLargeMsgId ++ largeMsgId) signature with
  | some message => .error message
  | none => readPayload participant.publicKey payload

/-- `decrypt`, up to the check of the number. -/
def openPacket (crypto : CallCrypto) (s : CallEncryption) (userId : BitVec 64) (packet : Packet) : Outcome Opened :=
  match s.knownEpoch packet with
  | none => .error ErrorCode.decryptUnknownEpoch.errorString
  | some (info, encryptedHeader) => do
    let oneTimeSecret ← decryptHeader crypto encryptedHeader packet.encryptedPacket info.secret
    openPacketWithSecret crypto userId packet oneTimeSecret info.groupState

/-- `decrypt`. The channel that is expected does not matter. -/
def decrypt (crypto : CallCrypto) (s : CallEncryption) (now : Rat) (userId : BitVec 64) (packet : Bytes) :
    CallEncryption × Outcome Bytes :=
  let s := s.sync now
  commit s do
    let packet ← s.readPacket userId packet
    let opened ← s.openPacket crypto userId packet
    s.checkNotSeen opened.publicKey opened.channelId opened.seqno
    let s ← s.markAsSeen opened.publicKey opened.channelId opened.seqno
    pure (s, packet.unencryptedPrefix ++ opened.result)

/-! ## What the calls change -/

section

variable (crypto : CallCrypto) (s : CallEncryption)

theorem encryptPacketWithSecret_state (random : Random) (channelId : BitVec 32)
    (unencryptedPart packet oneTimeSecret : Bytes) :
    ∃ seqno, (s.encryptPacketWithSecret crypto random channelId unencryptedPart packet oneTimeSecret).1 =
      { s with seqno } := by
  rw [encryptPacketWithSecret]
  split
  next => exact ⟨s.seqno, rfl⟩
  next => exact ⟨s.seqno, rfl⟩
  next =>
    refine ⟨Function.update s.seqno channelId (s.seqno channelId + 1), ?_⟩
    dsimp only
    generalize hblock : encryptData crypto random _ oneTimeSecret _ >>= _ = block
    rcases commit_cases _ block with ⟨s', bytes, hok, hcommit⟩ | ⟨hkept, -⟩
    · rw [hcommit]
      rw [← hblock] at hok
      simp only [bind_ok_iff, pure_def, ok.injEq, Prod.mk.injEq] at hok
      obtain ⟨_, -, _, -, rfl, -⟩ := hok
      rfl
    · rw [hkept]

theorem encrypt_state (now : Rat) (random : Random) (channelId : BitVec 32) (data : Bytes)
    (unencryptedHeaderLength : Nat) :
    ∃ seqno, (s.encrypt crypto now random channelId data unencryptedHeaderLength).1 = { s.sync now with seqno } := by
  rw [encrypt]
  dsimp only
  split
  next => exact ⟨(s.sync now).seqno, rfl⟩
  next => exact ⟨(s.sync now).seqno, rfl⟩
  next =>
    obtain ⟨seqno, hstate⟩ := encryptPacketWithSecret_state crypto (s.sync now) (random.skip 32) channelId
      (headerA (s.sync now).epochs ++ data.take unencryptedHeaderLength) (data.drop unencryptedHeaderLength)
      (random.bytes 32)
    generalize (s.sync now).encryptPacketWithSecret crypto (random.skip 32) channelId
      (headerA (s.sync now).epochs ++ data.take unencryptedHeaderLength) (data.drop unencryptedHeaderLength)
      (random.bytes 32) = result at hstate ⊢
    obtain ⟨s1, outcome⟩ := result
    refine ⟨seqno, ?_⟩
    generalize hblock : outcome >>= _ = block
    rcases commit_cases s1 block with ⟨s', bytes, hok, hcommit⟩ | ⟨hkept, -⟩
    · rw [hcommit]
      rw [← hblock] at hok
      simp only [bind_ok_iff, pure_def, ok.injEq, Prod.mk.injEq] at hok
      obtain ⟨_, -, _, -, rfl, -⟩ := hok
      exact hstate
    · rw [hkept]
      exact hstate

theorem decrypt_state (now : Rat) (userId : BitVec 64) (packet : Bytes) :
    ∃ seen, (s.decrypt crypto now userId packet).1 = { s.sync now with seen } := by
  rw [decrypt]
  generalize hblock : (s.sync now).readPacket userId packet >>= _ = block
  rcases commit_cases (s.sync now) block with ⟨s', data, hok, hcommit⟩ | ⟨hkept, -⟩
  · rw [← hblock] at hok
    simp only [bind_ok_iff, pure_def, ok.injEq, Prod.mk.injEq] at hok
    obtain ⟨_, -, _, -, _, -, s1, hmark, rfl, -⟩ := hok
    simp only [markAsSeen, bind_ok_iff, pure_def, ok.injEq] at hmark
    obtain ⟨_, -, rfl⟩ := hmark
    simp [hcommit]
  · exact ⟨(s.sync now).seen, hkept⟩

end

end CallEncryption

end Tdlib.E2e
