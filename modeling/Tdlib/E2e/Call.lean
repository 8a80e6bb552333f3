/-
A call, from `td/e2e/Call.cpp`.

A call follows the blocks of a group. With every block it takes the shared key
out of the block, starts an epoch of the encryption with it and has the epoch
of the block before forgotten. An error in a block ends the call.

Blocks that are only built and not applied are left out, and so are the codes of
the errors.
-/
import Tdlib.E2e.CallEncryption
import Tdlib.E2e.CallVerification

namespace Tdlib.E2e

open Outcome

/-- `GroupState::version`. -/
def GroupState.version (g : GroupState) : Int :=
  match g.participants with
  | [] => 0
  | first :: _ =>
    let version := g.participants.foldl (fun version p => min version p.version.toInt) first.version.toInt
    max 0 (min version 255)

/-! ## Blocks of the server -/

def isGoodMagic (magic : Nat) : Bool := magic ∈ [TlId.block, TlId.nonceCommit, TlId.nonceReveal]

/-- The magic of a block of the server is one more than that of a local one. -/
def fromServerToLocal (block : Bytes) : Outcome Bytes := do
  ensure (4 ≤ block.length) "Block is too short"
  let serverMagic := leNat (block.take 4)
  ensure (isGoodMagic serverMagic = false) "Trying to apply local block, not from server"
  pure (leBytes 4 ((serverMagic + (2 ^ 32 - 1)) % 2 ^ 32) ++ block.drop 4)

/-- `from_local_to_server`. -/
def fromLocalToServer (block : Bytes) : Outcome Bytes := do
  ensure (4 ≤ block.length) "Block is too short"
  pure (leBytes 4 ((leNat (block.take 4) + 1) % 2 ^ 32) ++ block.drop 4)

/-! ## Calls -/

structure Call where
  /-- The error that ended the call. -/
  status : Option String := none
  userId : BitVec 64
  privateKey : PrivateKey
  blockchain : ClientBlockchain
  callVerification : CallVerification
  callEncryption : CallEncryption
  groupSharedKey : Bytes := []

/-- What a step takes from outside: the times that `forget_shared_key` and
`add_shared_key` read, the cached time, and the nonce for the block. -/
structure Ambient where
  forgetNow : Rat
  cached : Rat
  addNow : Rat
  nonce : UInt256

namespace Call

def getStatus (call : Call) : Outcome Unit :=
  match call.status with
  | none => .ok ()
  | some status => .error (ErrorCode.callFailed.text status)

section

variable (crypto : CallCrypto)

/-- `decrypt_shared_key`: the header for the user is at the place of the user. -/
def decryptSharedKey (call : Call) : Outcome Bytes := do
  let groupSharedKey := call.blockchain.blockchain.state.sharedKey
  match groupSharedKey.destUserId.idxOf? call.userId with
  | none => .error "Could not find user_id in group_shared_key"
  | some i =>
    let sharedKey ← call.privateKey.computeSharedSecret crypto groupSharedKey.ek
    match groupSharedKey.destHeader[i]? with
    | none => .fatal
    | some destHeader =>
      let oneTimeSecret ← MessageEncryption.decryptHeader crypto destHeader groupSharedKey.encryptedSharedKey sharedKey
      let (decryptedSharedKey, _) ← MessageEncryption.decryptData crypto groupSharedKey.encryptedSharedKey
        oneTimeSecret []
      ensure (decryptedSharedKey.length = 32) "Invalid shared key (size != 32)"
      pure decryptedSharedKey

/-- The key that the block has for the user of the call. -/
def blockSharedKey (call : Call) : Outcome Bytes := do
  let chain := call.blockchain.blockchain
  let groupState := chain.state.groupState
  let participant ← match groupState.getParticipant (crypto.toPublicKey call.privateKey) with
    | .error _ => .error ErrorCode.invalidCallGroupStateNotParticipant.errorString
    | outcome => outcome
  ensure (participant.userId = call.userId) ErrorCode.invalidCallGroupStateWrongUserId.errorString
  let groupSharedKey ← call.decryptSharedKey crypto
  pure (if 1 ≤ groupState.version then (crypto.hmacSha512 groupSharedKey chain.lastBlockHash.store).take 32
    else groupSharedKey)

/-- `update_group_shared_key`: the old key is dropped first. -/
def updateGroupSharedKey (call : Call) (t : Ambient) : Call × Outcome Unit :=
  let chain := call.blockchain.blockchain
  let call :=
    { call with
      groupSharedKey := []
      callEncryption := call.callEncryption.forgetSharedKey t.forgetNow t.cached (chain.getHeight - 1) }
  match call.blockSharedKey crypto with
  | .error e => (call, .error e)
  | .fatal => (call, .fatal)
  | .ok groupSharedKey =>
    let (callEncryption, status) := call.callEncryption.addSharedKey crypto t.addNow chain.getHeight
      chain.lastBlockHash groupSharedKey chain.state.groupState
    ({ call with groupSharedKey, callEncryption }, status)

/-- `create`. No key is used for two calls: `publicKeys` are those used so far. -/
def create (publicKeys : List PublicKey) (userId : BitVec 64) (privateKey : PrivateKey) (lastBlockServer : Bytes)
    (t : Ambient) : List PublicKey × Outcome Call :=
  if crypto.toPublicKey privateKey ∈ publicKeys then (publicKeys, .error ErrorCode.callKeyAlreadyUsed.errorString)
  else (crypto.toPublicKey privateKey :: publicKeys, do
    let lastBlock ← fromServerToLocal lastBlockServer
    let blockchain ← ClientBlockchain.createFromBlock crypto.toCrypto lastBlock
    let callVerification ← CallVerification.create crypto userId privateKey blockchain.blockchain t.nonce
    let call : Call :=
      { userId, privateKey, blockchain, callVerification, callEncryption := { userId, privateKey } }
    let (call, status) := call.updateGroupSharedKey crypto t
    status
    pure call)

def doApplyBlock (call : Call) (block : Bytes) (t : Ambient) : Call × Outcome Unit :=
  let (blockchain, changes) := call.blockchain.tryApplyBlock crypto.toCrypto block
  let call := { call with blockchain }
  match (do
    let _ ← changes
    call.callVerification.onNewMainBlock crypto blockchain.blockchain t.nonce : Outcome CallVerification) with
  | .error e => (call, .error e)
  | .fatal => (call, .fatal)
  | .ok callVerification => { call with callVerification }.updateGroupSharedKey crypto t

def applyBlock (call : Call) (serverBlock : Bytes) (t : Ambient) : Call × Outcome Unit :=
  match (do
    call.getStatus
    fromServerToLocal serverBlock : Outcome Bytes) with
  | .error e => (call, .error e)
  | .fatal => (call, .fatal)
  | .ok block =>
    let (call, status) := call.doApplyBlock crypto block t
    match status with
    | .ok () => (call, call.getStatus)
    | .error e => ({ call with status := some e }, { call with status := some e }.getStatus)
    | .fatal => (call, .fatal)

/-- A method that fails when the call has. -/
def whenOk {α : Type} (call : Call) (method : Call × Outcome α) : Call × Outcome α :=
  match call.getStatus with
  | .error e => (call, .error e)
  | .fatal => (call, .fatal)
  | .ok () => method

def encrypt (call : Call) (now : Rat) (random : Random) (channelId : BitVec 32) (decryptedData : Bytes)
    (unencryptedPrefixSize : Nat) : Call × Outcome Bytes :=
  let (callEncryption, packet) := call.callEncryption.encrypt crypto now random channelId decryptedData
    unencryptedPrefixSize
  call.whenOk ({ call with callEncryption }, packet)

def decrypt (call : Call) (now : Rat) (userId : BitVec 64) (encryptedData : Bytes) : Call × Outcome Bytes :=
  let (callEncryption, data) := call.callEncryption.decrypt crypto now userId encryptedData
  call.whenOk ({ call with callEncryption }, data)

/-- `receive_inbound_message`, up to the state it returns. -/
def receiveInboundMessage (call : Call) (verificationMessage : Bytes) : Call × Outcome Unit :=
  call.whenOk (commit call do
    let message ← fromServerToLocal verificationMessage
    let callVerification ← call.callVerification.receiveInboundMessage crypto message
    pure ({ call with callVerification }, ()))

def pullOutboundMessages (call : Call) : Call × Outcome (List Bytes) :=
  let (callVerification, messages) := call.callVerification.pullOutboundMessages
  call.whenOk ({ call with callVerification }, .ok messages)

end

end Call

end Tdlib.E2e
