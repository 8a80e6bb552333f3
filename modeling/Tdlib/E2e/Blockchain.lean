/-
The chain of blocks and its state, from `td/e2e/Blockchain.cpp`.

A chain checks a block in one of two modes. With `validate_state_hash` it runs
the changes of values on its trie and compares the root hash. Without it, as
the client does, it takes the root hash from the state proof of the block.
-/
import Mathlib.Data.List.Dedup
import Tdlib.E2e.Block

namespace Tdlib.E2e

open Outcome ErrorCode GroupParticipantFlags

/-! ## Permissions -/

structure Permissions where
  flags : BitVec 32
  deriving DecidableEq, Repr

namespace Permissions

def mayAddUsers (p : Permissions) : Bool := p.flags &&& addUsers ≠ 0

def mayRemoveUsers (p : Permissions) : Bool := p.flags &&& removeUsers ≠ 0

def maySetValue (p : Permissions) : Bool := p.flags &&& setValue ≠ 0

def isParticipant (p : Permissions) : Bool := p.flags &&& GroupParticipantFlags.isParticipant ≠ 0

def mayChangeSharedKey (p : Permissions) : Bool := p.isParticipant && (p.mayRemoveUsers || p.mayAddUsers)

end Permissions

namespace GroupState

def getParticipant (g : GroupState) (publicKey : PublicKey) : Outcome GroupParticipant :=
  match g.participants.find? fun p => p.publicKey = publicKey with
  | some p => .ok p
  | none => .error "Participant not found"

def getPermissions (g : GroupState) (publicKey : PublicKey) (limitPermissions : BitVec 32) : Permissions :=
  let limitPermissions := limitPermissions &&& allPermissions
  match g.getParticipant publicKey with
  | .ok p => ⟨(p.flags &&& limitPermissions) ||| isParticipant⟩
  | _ => ⟨g.externalPermissions &&& limitPermissions⟩

/-- The map from participants to their flags that `set_group_state` fills: of two
entries for a participant the last one counts. -/
def flagsOf (key : BitVec 64 × PublicKey) : List GroupParticipant → Option (BitVec 32)
  | [] => none
  | p :: ps => (flagsOf key ps).or (if p.key = key then some p.flags else none)

end GroupState

/-! ## The key-value state -/

structure KeyValueState where
  node : TrieNode
  snapshot : Bytes := []
  deriving DecidableEq, Repr

/-- The key, where it is one: 32 bytes that are not all zero. -/
def asKey (key : Bytes) : Outcome UInt256 := do
  ensure (key.length = 32) "Invalid key size"
  ensure (BitVec.ofNat 256 (leNat key) ≠ 0) "Invalid zero key"
  pure (BitVec.ofNat 256 (leNat key))

def keyToBitstring (key : Bytes) : Outcome BitString := do
  let _ ← asKey key
  BitString.ofSlice key

namespace KeyValueState

def getHash (kv : KeyValueState) : UInt256 := kv.node.hash

def getValue (crypto : Crypto) (kv : KeyValueState) (key : Bytes) : Outcome Bytes := do
  let bitstring ← keyToBitstring key
  kv.node.get crypto.sha256 bitstring kv.snapshot

def setValue (crypto : Crypto) (kv : KeyValueState) (key value : Bytes) : Outcome KeyValueState := do
  let bitstring ← keyToBitstring key
  let node ← kv.node.set crypto.sha256 bitstring value kv.snapshot
  pure { kv with node := node }

def createFromHash (hash : UInt256) : KeyValueState := ⟨TrieNode.newPruned hash, []⟩

def createFromSnapshot (crypto : Crypto) (snapshot : Bytes) : Outcome KeyValueState := do
  let node ← TrieNode.fetchFromSnapshot crypto.sha256 snapshot
  pure ⟨node, snapshot⟩

end KeyValueState

/-! ## The state of a chain -/

structure ValidateOptions where
  validateStateHash : Bool := true
  validateSignature : Bool := true
  permissions : BitVec 32 := allPermissions
  deriving DecidableEq, Repr

structure State where
  keyValueState : KeyValueState
  groupState : GroupState
  sharedKey : GroupSharedKey
  hasSetValue : Bool := false
  hasSharedKeyChange : Bool := false
  hasGroupStateChange : Bool := false
  deriving DecidableEq, Repr

namespace State

/-- `create_empty`. -/
def createEmpty (crypto : Crypto) : Outcome State := do
  let node ← TrieNode.newEmpty crypto.sha256
  pure { keyValueState := { node := node }, groupState := {}, sharedKey := .emptySharedKey }

def setValue (crypto : Crypto) (s : State) (key value : Bytes) (permissions : Permissions) : Outcome State := do
  ensure permissions.maySetValue (noPermissions.text "Can't set value")
  let keyValueState ← s.keyValueState.setValue crypto key value
  pure { s with keyValueState := keyValueState }

def setValueFast (s : State) (keyValueHash : UInt256) : State :=
  { s with keyValueState := .createFromHash keyValueHash }

def validateGroupState (groupState : GroupState) : Outcome Unit := do
  ensure (∀ p ∈ groupState.participants, p.flags &&& ~~~allPermissions = 0)
    (invalidGroupState.text "invalid permissions")
  ensure (groupState.externalPermissions &&& ~~~allPermissions = 0)
    (invalidGroupState.text "invalid external permissions")
  ensure ((groupState.participants.map (·.userId)).dedup.length = groupState.participants.length)
    (invalidGroupState.text "duplicate user_id")
  ensure ((groupState.participants.map (·.publicKey)).dedup.length = groupState.participants.length)
    (invalidGroupState.text "duplicate public_key")

/-- One participant of the new group state: the flags that are needed for it,
and for those before it. -/
def neededFlags (old : List GroupParticipant) (permissions : Permissions) (needed : BitVec 32) (p : GroupParticipant) :
    Outcome (BitVec 32) :=
  match GroupState.flagsOf p.key old with
  | none => do
    ensure permissions.mayAddUsers (noPermissions.text "Can't add users")
    pure (needed ||| p.flags)
  | some oldFlags =>
    if p.flags ≠ oldFlags then do
      ensure (permissions.mayAddUsers ∧ permissions.mayRemoveUsers)
        (noPermissions.text "Can't add users")
      pure (needed ||| (p.flags &&& ~~~oldFlags))
    else pure needed

/-- `set_group_state`. The new participants are distinct when they are compared
with the old ones, so the list stands for the map of the source. -/
def setGroupState (s : State) (groupState : GroupState) (permissions : Permissions) : Outcome State := do
  validateGroupState groupState
  ensure (~~~s.groupState.externalPermissions &&& groupState.externalPermissions = 0)
    (noPermissions.text "Can't increase external permissions")
  ensure (∀ p ∈ s.groupState.participants,
      GroupState.flagsOf p.key groupState.participants = none → permissions.mayRemoveUsers)
    (noPermissions.text "Can't remove users")
  let needed ← groupState.participants.foldlM (neededFlags s.groupState.participants permissions) 0
  ensure (needed &&& ~~~(permissions.flags &&& allPermissions) = 0)
    (noPermissions.text "Can't give more permissions than we have")
  pure { s with groupState := groupState }

def clearSharedKey (s : State) (permissions : Permissions) : Outcome State := do
  ensure permissions.mayChangeSharedKey (noPermissions.text "Can't clear shared key")
  pure { s with sharedKey := .emptySharedKey }

def validateSharedKey (sharedKey : GroupSharedKey) (groupState : GroupState) : Outcome Unit :=
  if sharedKey = .emptySharedKey then pure ()
  else do
    ensure (sharedKey.destUserId.length = sharedKey.destHeader.length)
      (invalidSharedSecret.text "different number of users and headers")
    ensure (sharedKey.destUserId.length = groupState.participants.length)
      (invalidSharedSecret.text "wrong number of users")
    ensure (sharedKey.destUserId.dedup.length = sharedKey.destUserId.length)
      (invalidSharedSecret.text "duplicate users")
    ensure (∀ p ∈ groupState.participants, p.userId ∈ sharedKey.destUserId)
      (invalidSharedSecret.text "unknown user_id")

def setSharedKey (s : State) (sharedKey : GroupSharedKey) (permissions : Permissions) : Outcome State := do
  ensure (s.sharedKey = .emptySharedKey) "Shared key is already set"
  ensure permissions.mayChangeSharedKey (noPermissions.text "Can't set shared key")
  validateSharedKey sharedKey s.groupState
  pure { s with sharedKey := sharedKey }

def validateState (s : State) (stateProof : StateProof) : Outcome Unit := do
  ensure (stateProof.kvHash = s.keyValueState.getHash) "State hash mismatch"
  ensure (s.hasGroupStateChange ∨ s.hasSetValue)
    (noChanges.text "There must be at least SetValue or SetGroupState changes")
  ensure (¬ (s.hasGroupStateChange ∧ stateProof.groupState.isSome))
    (invalidStateProofGroup.text "Group state must be omitted when there is a group state change")
  ensure (s.hasGroupStateChange ∨ stateProof.groupState.isSome)
    (invalidStateProofGroup.text "Group state must be provided when there is no group state change")
  ensure (s.hasGroupStateChange ∨ stateProof.groupState = some s.groupState)
    (invalidStateProofGroup.text "group state differs")
  let sharedKeyMustBeOmitted := s.hasGroupStateChange || s.hasSharedKeyChange
  ensure (¬ (sharedKeyMustBeOmitted ∧ stateProof.sharedKey.isSome))
    (invalidStateProofSecret.text "Shared key state must be omitted")
  ensure (sharedKeyMustBeOmitted ∨ stateProof.sharedKey.isSome)
    (invalidStateProofSecret.text "Shared key state must be provided")
  ensure (sharedKeyMustBeOmitted ∨ stateProof.sharedKey = some s.sharedKey)
    (invalidStateProofSecret.text "shared key state differs")
  validateGroupState s.groupState
  validateSharedKey s.sharedKey s.groupState

def applyChange (crypto : Crypto) (publicKey : PublicKey) (options : ValidateOptions) (s : State) :
    Change → Outcome State
  | .noop _ => pure s
  | .setValue key value =>
    let s := { s with hasSetValue := true }
    if options.validateStateHash then
      s.setValue crypto key value (s.groupState.getPermissions publicKey options.permissions)
    else pure s
  | .setGroupState groupState => do
    let s := { s with hasGroupStateChange := true }
    let s ← s.setGroupState groupState (s.groupState.getPermissions publicKey options.permissions)
    s.clearSharedKey (s.groupState.getPermissions publicKey options.permissions)
  | .setSharedKey sharedKey =>
    let s := { s with hasSharedKeyChange := true }
    s.setSharedKey sharedKey (s.groupState.getPermissions publicKey options.permissions)

/-- The group of the ephemeral block before the first one. -/
def firstGroupState : GroupState := ⟨[], allPermissions⟩

/-- The state the changes of the block start from. -/
def before (s : State) (block : Block) : Outcome State :=
  if block.height = 0 then do
    check (s.groupState.participants = [])
    pure { s with groupState := firstGroupState }
  else pure s

/-- The key that signs the block: the one it names, or the one of the first
participant. -/
def signer (groupState : GroupState) (block : Block) : Option PublicKey :=
  block.signaturePublicKey.or (groupState.participants.head?.map (·.publicKey))

/-- The changes of a block, one by one. -/
def applyChanges (crypto : Crypto) (publicKey : PublicKey) (options : ValidateOptions) (s : State)
    (changes : List Change) : Outcome State :=
  changes.foldlM (fun s change => s.applyChange crypto publicKey options change)
    { s with hasSetValue := false, hasSharedKeyChange := false, hasGroupStateChange := false }

def checkSignature (crypto : Crypto) (publicKey : PublicKey) (options : ValidateOptions) (block : Block) :
    Outcome Unit :=
  if options.validateSignature then block.verifySignature crypto publicKey else pure ()

/-- The root hash after the changes: the client takes it from the block. -/
def finish (s : State) (options : ValidateOptions) (block : Block) : State :=
  if options.validateStateHash then s else s.setValueFast block.stateProof.kvHash

def apply (crypto : Crypto) (s : State) (block : Block) (options : ValidateOptions) : Outcome State := do
  let s ← s.before block
  match signer s.groupState block with
  | none => .error "Unknown public key"
  | some publicKey =>
    checkSignature crypto publicKey options block
    let s ← s.applyChanges crypto publicKey options block.changes
    let s := s.finish options block
    s.validateState block.stateProof
    pure s

/-! ### Joining at a block -/

/-- What the changes of a block say about the state after it. -/
structure Outline where
  groupState : Option GroupState
  sharedKey : Option GroupSharedKey := none
  hasSetValue : Bool := false
  hasGroupStateChange : Bool := false
  hasSharedKeyChange : Bool := false

def Outline.add (o : Outline) : Change → Outline
  | .noop _ => o
  | .setValue _ _ => { o with hasSetValue := true }
  | .setGroupState groupState =>
    { o with groupState := some groupState, sharedKey := some .emptySharedKey, hasGroupStateChange := true }
  | .setSharedKey sharedKey => { o with sharedKey := some sharedKey, hasSharedKeyChange := true }

/-- The key-value state to start from. -/
def keyValueStateFrom (crypto : Crypto) (block : Block) (snapshot : Option Bytes) : Outcome KeyValueState :=
  match snapshot with
  | some snapshot => KeyValueState.createFromSnapshot crypto snapshot
  | none => pure (.createFromHash block.stateProof.kvHash)

def createFromBlock (crypto : Crypto) (block : Block) (snapshot : Option Bytes) : Outcome State := do
  let keyValueState ← keyValueStateFrom crypto block snapshot
  let outline := block.changes.foldl Outline.add
    { groupState := if block.height = 0 then some firstGroupState else none }
  match block.stateProof.groupState.or outline.groupState with
  | none => .error (invalidStateProofGroup.text "no group state proof")
  | some groupState =>
    match block.stateProof.sharedKey.or outline.sharedKey with
    | none => .error (invalidStateProofSecret.text "no shared key")
    | some sharedKey =>
      let s : State :=
        { keyValueState, groupState, sharedKey
          hasSetValue := outline.hasSetValue
          hasGroupStateChange := outline.hasGroupStateChange
          hasSharedKeyChange := outline.hasSharedKeyChange }
      s.validateState block.stateProof
      pure s

end State

/-! ## Chains -/

structure Blockchain where
  lastBlock : Block := {}
  lastBlockHash : UInt256 := 0
  state : State
  deriving DecidableEq, Repr

namespace Blockchain

def createEmpty (crypto : Crypto) : Outcome Blockchain := do
  let state ← State.createEmpty crypto
  pure { state }

def getHeight (chain : Blockchain) : Int := chain.lastBlock.height.toInt

def tryApplyBlock (crypto : Crypto) (chain : Blockchain) (block : Block) (options : ValidateOptions) :
    Outcome Blockchain := do
  ensure (block.height.toInt = chain.getHeight + 1 ∧ chain.getHeight ≠ 2 ^ 31 - 1)
    (heightMismatch.text ("new_block.height=" ++ toString block.height.toInt ++
      " != 1 + last_block.height=" ++ toString chain.getHeight))
  ensure (block.prevBlockHash = chain.lastBlockHash) hashMismatch.errorString
  let state ← chain.state.apply crypto block options
  let lastBlockHash ← block.calcHash crypto
  pure { lastBlock := block, lastBlockHash, state }

def createFromBlock (crypto : Crypto) (block : Block) (snapshot : Option Bytes) : Outcome Blockchain := do
  ensure (0 ≤ block.height.toInt) (invalidBlock.text "negative height")
  let lastBlockHash ← block.calcHash crypto
  let state ← State.createFromBlock crypto block snapshot
  pure { lastBlock := block, lastBlockHash, state }

end Blockchain

/-! ## The client -/

/-- A value that the client saw in a block. -/
structure Entry where
  height : Int
  value : Bytes
  deriving DecidableEq, Repr

structure ClientBlockchain where
  blockchain : Blockchain
  map : UInt256 → Option Entry := fun _ => none

namespace ClientBlockchain

def createEmpty (crypto : Crypto) : Outcome ClientBlockchain := do
  let blockchain ← Blockchain.createEmpty crypto
  pure { blockchain }

def createFromBlock (crypto : Crypto) (blockSlice : Bytes) : Outcome ClientBlockchain := do
  let block ← Block.fromTlSerialized blockSlice
  let blockchain ← Blockchain.createFromBlock crypto block none
  pure { blockchain }

/-- The values of the block go to the map, until a key is not valid. -/
def recordValues (height : Int) (map : UInt256 → Option Entry) : List Change → (UInt256 → Option Entry) × Outcome Unit
  | [] => (map, pure ())
  | .setValue key value :: changes =>
    match asKey key with
    | .ok key => recordValues height (Function.update map key (some ⟨height, value⟩)) changes
    | .error e => (map, .error e)
    | .fatal => (map, .fatal)
  | _ :: changes => recordValues height map changes

/-- What the client asks the chain to check. -/
def options : ValidateOptions := { validateSignature := true, validateStateHash := false }

/-- The client after the call, and what the call returns. -/
def tryApplyBlock (crypto : Crypto) (client : ClientBlockchain) (blockSlice : Bytes) :
    ClientBlockchain × Outcome (List Change) :=
  match Block.fromTlSerialized blockSlice with
  | .error e => (client, .error e)
  | .fatal => (client, .fatal)
  | .ok block =>
    match client.blockchain.tryApplyBlock crypto block options with
    | .error e => (client, .error e)
    | .fatal => (client, .fatal)
    | .ok blockchain =>
      let (map, status) := recordValues block.height.toInt client.map block.changes
      ({ blockchain, map }, status >>= fun _ => pure block.changes)

def addProof (crypto : Crypto) (client : ClientBlockchain) (proof : Bytes) : Outcome ClientBlockchain := do
  let state ← TrieNode.fetchFromNetwork crypto.sha256 proof
  ensure (state.hash = client.blockchain.state.keyValueState.getHash) "Invalid proof"
  let s := client.blockchain.state
  pure { client with blockchain := { client.blockchain with
    state := { s with keyValueState := { s.keyValueState with node := state } } } }

def getValue (crypto : Crypto) (client : ClientBlockchain) (rawKey : Bytes) : Outcome Bytes := do
  let key ← asKey rawKey
  match client.map key with
  | some entry => pure entry.value
  | none => client.blockchain.state.keyValueState.getValue crypto rawKey

end ClientBlockchain

end Tdlib.E2e
