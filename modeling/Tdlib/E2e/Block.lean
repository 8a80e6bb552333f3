/-
Blocks of the chain and their TL form, from `td/e2e/Blockchain.cpp` and the
scheme `e2e_api.tl`.

A public key is its 32 bytes, and a signature its 64 bytes. The verification of
Ed25519 signatures and SHA-256 are a parameter (`Crypto`).
-/
import Tdlib.E2e.Trie
import Tdlib.TlObject

namespace Tdlib.E2e

/-- What is taken from the cryptographic library: `td::sha256`, and the error of
`PublicKey::verify`, if any. -/
structure Crypto where
  sha256 : Bytes → UInt256
  verify : UInt256 → Bytes → BitVec 512 → Option String

abbrev PublicKey := UInt256

abbrev Signature := BitVec 512

/-! ## The group -/

namespace GroupParticipantFlags

def addUsers : BitVec 32 := 1
def removeUsers : BitVec 32 := 2
def setValue : BitVec 32 := 4
def allPermissions : BitVec 32 := 7
def isParticipant : BitVec 32 := 0x40000000

end GroupParticipantFlags

structure GroupParticipant where
  userId : BitVec 64 := 0
  flags : BitVec 32 := 0
  publicKey : PublicKey := 0
  version : BitVec 32 := 1
  deriving DecidableEq, Inhabited, Repr

namespace GroupParticipant

def addUsers (p : GroupParticipant) : Bool := p.flags &&& GroupParticipantFlags.addUsers ≠ 0

def removeUsers (p : GroupParticipant) : Bool := p.flags &&& GroupParticipantFlags.removeUsers ≠ 0

/-- The pair that stands for a participant in the comparison of two group states. -/
def key (p : GroupParticipant) : BitVec 64 × PublicKey := (p.userId, p.publicKey)

end GroupParticipant

structure GroupState where
  participants : List GroupParticipant := []
  externalPermissions : BitVec 32 := 0
  deriving DecidableEq, Inhabited, Repr

structure GroupSharedKey where
  ek : PublicKey := 0
  encryptedSharedKey : Bytes := []
  destUserId : List (BitVec 64) := []
  destHeader : List Bytes := []
  deriving DecidableEq, Inhabited, Repr

def GroupSharedKey.emptySharedKey : GroupSharedKey := {}

/-! ## Blocks -/

inductive Change
  | setValue (key value : Bytes)
  | setGroupState (groupState : GroupState)
  | setSharedKey (sharedKey : GroupSharedKey)
  | noop (nonce : UInt256)
  deriving DecidableEq, Repr

instance : Inhabited Change := ⟨.noop 0⟩

structure StateProof where
  kvHash : UInt256 := 0
  groupState : Option GroupState := none
  sharedKey : Option GroupSharedKey := none
  deriving DecidableEq, Inhabited, Repr

structure Block where
  signature : Signature := 0
  prevBlockHash : UInt256 := 0
  changes : List Change := []
  height : BitVec 32 := -1
  stateProof : StateProof := {}
  signaturePublicKey : Option PublicKey := none
  deriving DecidableEq, Inhabited, Repr

/-! ## Storing -/

namespace TlId

/-! The constructors of the scheme. -/

def groupParticipant : Nat := 0x18f3971f
def groupState : Nat := 0x1ddc7584
def sharedKey : Nat := 0x8a847e7f
def changeNoop : Nat := 0xdeb4a41b
def changeSetValue : Nat := 0xfe0139cc
def changeSetGroupState : Nat := 0x2cf17146
def changeSetSharedKey : Nat := 0x987a2158
def stateProof : Nat := 0xd6b679e6
def block : Nat := 0x639a3db6

end TlId

/-- The flags as they are stored, with the bits of `add_users` and `remove_users`. -/
def GroupParticipant.tlFlags (p : GroupParticipant) : BitVec 32 :=
  p.flags ||| (if p.addUsers then 1 else 0) ||| (if p.removeUsers then 2 else 0)

def GroupParticipant.store (p : GroupParticipant) : Outcome Bytes :=
  pure (storeBits 8 p.userId ++ (p.publicKey.store ++ (storeBits 4 p.tlFlags ++ storeBits 4 p.version)))

def GroupState.store (g : GroupState) : Outcome Bytes := do
  let participants ← storeVector (fun p => storeBoxed TlId.groupParticipant p.store) g.participants
  pure (participants ++ storeBits 4 g.externalPermissions)

def GroupSharedKey.store (k : GroupSharedKey) : Outcome Bytes := do
  let encryptedSharedKey ← storeString k.encryptedSharedKey
  let destUserId ← storeVector (fun userId => pure (storeBits 8 userId)) k.destUserId
  let destHeader ← storeVector storeString k.destHeader
  pure (k.ek.store ++ (encryptedSharedKey ++ (destUserId ++ destHeader)))

def Change.store : Change → Outcome Bytes
  | .noop nonce => storeBoxed TlId.changeNoop (pure nonce.store)
  | .setValue key value => storeBoxed TlId.changeSetValue do
    let key ← storeString key
    let value ← storeString value
    pure (key ++ value)
  | .setGroupState groupState => storeBoxed TlId.changeSetGroupState (storeBoxed TlId.groupState groupState.store)
  | .setSharedKey sharedKey => storeBoxed TlId.changeSetSharedKey (storeBoxed TlId.sharedKey sharedKey.store)

/-- A field that is there if the bit of the flags is set. -/
def storeOptional {α : Type} (store : α → Outcome Bytes) : Option α → Outcome Bytes
  | none => pure []
  | some x => store x

def StateProof.tlFlags (proof : StateProof) : BitVec 32 :=
  (if proof.groupState.isSome then 1 else 0) ||| (if proof.sharedKey.isSome then 2 else 0)

def StateProof.store (proof : StateProof) : Outcome Bytes := do
  let groupState ← storeOptional (fun g => storeBoxed TlId.groupState g.store) proof.groupState
  let sharedKey ← storeOptional (fun k => storeBoxed TlId.sharedKey k.store) proof.sharedKey
  pure (storeBits 4 proof.tlFlags ++ (proof.kvHash.store ++ (groupState ++ sharedKey)))

namespace Block

def tlFlags (block : Block) : BitVec 32 := if block.signaturePublicKey.isSome then 1 else 0

def store (block : Block) : Outcome Bytes := do
  let changes ← storeVector Change.store block.changes
  let stateProof ← storeBoxed TlId.stateProof block.stateProof.store
  let signaturePublicKey ← storeOptional (fun key => pure (UInt256.store key)) block.signaturePublicKey
  pure (storeBits 64 block.signature ++ (storeBits 4 block.tlFlags ++ (block.prevBlockHash.store ++
    (changes ++ (storeBits 4 block.height ++ (stateProof ++ signaturePublicKey))))))

def toTlSerialized (block : Block) : Outcome Bytes := storeBoxed TlId.block block.store

def calcHash (crypto : Crypto) (block : Block) : Outcome UInt256 :=
  if block.height = -1 then pure 0
  else do
    let serializedBlock ← block.toTlSerialized
    pure (crypto.sha256 serializedBlock)

end Block

/-! ## Errors -/

inductive ErrorCode
  | invalidBlock
  | noChanges
  | invalidSignature
  | hashMismatch
  | heightMismatch
  | invalidStateProofGroup
  | invalidStateProofSecret
  | noPermissions
  | invalidGroupState
  | invalidSharedSecret
  | invalidCallGroupStateNotParticipant
  | invalidCallGroupStateWrongUserId
  | decryptUnknownEpoch
  | encryptUnknownEpoch
  | invalidBroadcastInFuture
  | invalidBroadcastNotInCommit
  | invalidBroadcastNotInReveal
  | invalidBroadcastUnknownUserId
  | invalidBroadcastAlreadyApplied
  | invalidBroadcastInvalidReveal
  | invalidBroadcastInvalidBlockHash
  | invalidCallChannelId
  | callFailed
  | callKeyAlreadyUsed
  deriving DecidableEq

def ErrorCode.errorString : ErrorCode → String
  | .invalidBlock => "INVALID_BLOCK"
  | .noChanges => "INVALID_BLOCK__NO_CHANGES"
  | .invalidSignature => "INVALID_BLOCK__INVALID_SIGNATURE"
  | .hashMismatch => "INVALID_BLOCK__HASH_MISMATCH"
  | .heightMismatch => "INVALID_BLOCK__HEIGHT_MISMATCH"
  | .invalidStateProofGroup => "INVALID_BLOCK__INVALID_STATE_PROOF__GROUP"
  | .invalidStateProofSecret => "INVALID_BLOCK__INVALID_STATE_PROOF__SECRET"
  | .noPermissions => "INVALID_BLOCK__NO_PERMISSIONS"
  | .invalidGroupState => "INVALID_BLOCK__INVALID_GROUP_STATE"
  | .invalidSharedSecret => "INVALID_BLOCK__INVALID_SHARED_SECRET"
  | .invalidCallGroupStateNotParticipant => "INVALID_CALL_GROUP_STATE__NOT_PARTICIPANT"
  | .invalidCallGroupStateWrongUserId => "INVALID_CALL_GROUP_STATE__WRONG_USER_ID"
  | .decryptUnknownEpoch => "DECRYPT__UNKNOWN_EPOCH"
  | .encryptUnknownEpoch => "ENCRYPT__UNKNOWN_EPOCH"
  | .invalidBroadcastInFuture => "INVALID_BROADCAST__IN_FUTURE"
  | .invalidBroadcastNotInCommit => "INVALID_BROADCAST__NOT_IN_COMMIT"
  | .invalidBroadcastNotInReveal => "INVALID_BROADCAST__NOT_IN_REVEAL"
  | .invalidBroadcastUnknownUserId => "INVALID_BROADCAST__UNKNOWN_USER_ID"
  | .invalidBroadcastAlreadyApplied => "INVALID_BROADCAST__ALREADY_APPLIED"
  | .invalidBroadcastInvalidReveal => "INVALID_BROADCAST__INVALID_REVEAL"
  | .invalidBroadcastInvalidBlockHash => "INVALID_BROADCAST__INVALID_BLOCK_HASH"
  | .invalidCallChannelId => "INVALID_CALL_CHANNEL_ID"
  | .callFailed => "CALL_FAILED"
  | .callKeyAlreadyUsed => "CALL_KEY_ALREADY_USED"

/-- The text of `Error(code, message)`. -/
def ErrorCode.text (code : ErrorCode) (message : String) : String := code.errorString ++ ": " ++ message

/-- `verify_signature`: the signature is for the block without it. -/
def Block.verifySignature (crypto : Crypto) (block : Block) (publicKey : PublicKey) : Outcome Unit := do
  let toSign ← { block with signature := 0 }.toTlSerialized
  match crypto.verify publicKey toSign block.signature with
  | none => pure ()
  | some message => .error (ErrorCode.invalidSignature.text message)

/-! ## Parsing -/

open TlParser

def fetchGroupParticipant (p : TlParser) : GroupParticipant × TlParser :=
  let (userId, p) := p.fetchBits 8 64
  let (publicKey, p) := fetchUInt256 p
  let (flags, p) := p.fetchFlags
  let (version, p) := p.fetchBits 4 32
  (⟨userId, flags, publicKey, version⟩, p)

def fetchGroupState (p : TlParser) : GroupState × TlParser :=
  let (participants, p) := p.fetchVector (fetchBoxed TlId.groupParticipant fetchGroupParticipant)
  let (externalPermissions, p) := p.fetchBits 4 32
  (⟨participants, externalPermissions⟩, p)

def fetchSharedKey (p : TlParser) : GroupSharedKey × TlParser :=
  let (ek, p) := fetchUInt256 p
  let (encryptedSharedKey, p) := p.fetchString
  let (destUserId, p) := p.fetchVector (fetchBits 8 64)
  let (destHeader, p) := p.fetchVector fetchString
  (⟨ek, encryptedSharedKey, destUserId, destHeader⟩, p)

def fetchChange (p : TlParser) : Change × TlParser :=
  let (id, p) := p.fetchInt
  if id = TlId.changeNoop then
    let (nonce, p) := fetchUInt256 p
    (.noop nonce, p)
  else if id = TlId.changeSetValue then
    let (key, p) := p.fetchString
    let (value, p) := p.fetchString
    (.setValue key value, p)
  else if id = TlId.changeSetGroupState then
    let (groupState, p) := p.fetchBoxed TlId.groupState fetchGroupState
    (.setGroupState groupState, p)
  else if id = TlId.changeSetSharedKey then
    let (sharedKey, p) := p.fetchBoxed TlId.sharedKey fetchSharedKey
    (.setSharedKey sharedKey, p)
  else (default, p.failHere ("Unknown constructor found " ++ asHex id))

def fetchStateProof (p : TlParser) : StateProof × TlParser :=
  let (flags, p) := p.fetchFlags
  let (kvHash, p) := fetchUInt256 p
  let (groupState, p) := p.fetchOptional (flags &&& 1 ≠ 0) (fetchBoxed TlId.groupState fetchGroupState)
  let (sharedKey, p) := p.fetchOptional (flags &&& 2 ≠ 0) (fetchBoxed TlId.sharedKey fetchSharedKey)
  (⟨kvHash, groupState, sharedKey⟩, p)

namespace Block

def fetch (p : TlParser) : Block × TlParser :=
  let (signature, p) := p.fetchBits 64 512
  let (flags, p) := p.fetchFlags
  let (prevBlockHash, p) := fetchUInt256 p
  let (changes, p) := p.fetchVector fetchChange
  let (height, p) := p.fetchBits 4 32
  let (stateProof, p) := p.fetchBoxed TlId.stateProof fetchStateProof
  let (signaturePublicKey, p) := p.fetchOptional (flags &&& 1 ≠ 0) fetchUInt256
  (⟨signature, prevBlockHash, changes, height, stateProof, signaturePublicKey⟩, p)

def fromTlSerialized (newBlock : Bytes) : Outcome Block := do
  let (magic, p) := (TlParser.new newBlock).fetchInt
  if magic ≠ TlId.block then
    .error ("Expected magic " ++ asHex TlId.block ++ ", but received " ++ asHex magic)
  else
    let (block, p) := fetch p
    p.fetchEnd.getStatus
    pure block

end Block

end Tdlib.E2e
