/-
Verification of a call, from `td/e2e/Call.cpp`.

For every block the participants agree on a hash that they can compare. Each of
them first commits to a nonce and reveals it when all have committed. Broadcasts
for a later block are kept until it comes.

The times that are only printed and the words of the mnemonic are left out.
-/
import Mathlib.Data.List.Sort
import Tdlib.Lib.OrderedMap
import Tdlib.E2e.Blockchain
import Tdlib.E2e.MessageEncryption

namespace Tdlib.E2e

open Outcome ErrorCode

/-! ## Broadcasts -/

structure NonceCommit where
  signature : Signature := 0
  userId : BitVec 64
  chainHeight : BitVec 32
  chainHash : UInt256
  nonceHash : UInt256
  deriving DecidableEq, Repr

structure NonceReveal where
  signature : Signature := 0
  userId : BitVec 64
  chainHeight : BitVec 32
  chainHash : UInt256
  nonce : UInt256
  deriving DecidableEq, Repr

inductive GroupBroadcast
  | commit (commit : NonceCommit)
  | reveal (reveal : NonceReveal)
  deriving DecidableEq, Repr

namespace TlId

def nonceCommit : Nat := 0xd1512ae7
def nonceReveal : Nat := 0x83f4f9d8

end TlId

/-- The two broadcasts have the same fields in the TL form. -/
def storeBroadcast (id : Nat) (signature : Signature) (userId : BitVec 64) (chainHeight : BitVec 32)
    (chainHash nonce : UInt256) : Bytes :=
  leBytes 4 id ++ (storeBits 64 signature ++ (storeBits 8 userId ++ (storeBits 4 chainHeight ++
    (chainHash.store ++ nonce.store))))

/-- `serialize_boxed`. -/
def NonceCommit.store (commit : NonceCommit) : Bytes :=
  storeBroadcast TlId.nonceCommit commit.signature commit.userId commit.chainHeight commit.chainHash commit.nonceHash

/-- `serialize_boxed`. -/
def NonceReveal.store (reveal : NonceReveal) : Bytes :=
  storeBroadcast TlId.nonceReveal reveal.signature reveal.userId reveal.chainHeight reveal.chainHash reveal.nonce

def fetchBroadcast {α : Type} (make : Signature → BitVec 64 → BitVec 32 → UInt256 → UInt256 → α) (p : TlParser) :
    α × TlParser :=
  let (signature, p) := p.fetchBits 64 512
  let (userId, p) := p.fetchBits 8 64
  let (chainHeight, p) := p.fetchBits 4 32
  let (chainHash, p) := fetchUInt256 p
  let (nonce, p) := fetchUInt256 p
  (make signature userId chainHeight chainHash nonce, p)

namespace GroupBroadcast

instance : Inhabited GroupBroadcast := ⟨.commit { userId := 0, chainHeight := 0, chainHash := 0, nonceHash := 0 }⟩

def fetch (p : TlParser) : GroupBroadcast × TlParser :=
  let (id, p) := p.fetchInt
  if id = TlId.nonceCommit then fetchBroadcast (fun s u h c n => .commit ⟨s, u, h, c, n⟩) p
  else if id = TlId.nonceReveal then fetchBroadcast (fun s u h c n => .reveal ⟨s, u, h, c, n⟩) p
  else (default, p.failHere ("Unknown constructor found " ++ asHex id))

/-- How `try_apply_block` reads a message. -/
def ofMessage (message : Bytes) : Outcome GroupBroadcast := do
  let (broadcast, parser) := fetch (TlParser.new message)
  parser.fetchEnd.getStatus
  pure broadcast

def chainHeight : GroupBroadcast → BitVec 32
  | .commit c => c.chainHeight
  | .reveal r => r.chainHeight

def chainHash : GroupBroadcast → UInt256
  | .commit c => c.chainHash
  | .reveal r => r.chainHash

/-- Who commits to which hash. -/
def commit? : GroupBroadcast → Option (BitVec 64 × Bytes)
  | .commit c => some (c.userId, c.nonceHash.store)
  | .reveal _ => none

/-- Who reveals which nonce. -/
def reveal? : GroupBroadcast → Option (BitVec 64 × Bytes)
  | .commit _ => none
  | .reveal r => some (r.userId, r.nonce.store)

end GroupBroadcast

/-- `verify_signature`, over the bytes that are signed. -/
def verifySignature (crypto : Crypto) (publicKey : PublicKey) (toSign : Bytes) (signature : Signature) : Outcome Unit :=
  match crypto.verify publicKey toSign signature with
  | none => pure ()
  | some message => .error (invalidSignature.text message)

/-! ## The chain of broadcasts -/

/-- `CallVerificationChain::State`. -/
inductive VerificationPhase
  | ended
  | commit
  | reveal
  deriving DecidableEq, Repr

/-- The maps from users are lists with one entry for a user, in the order of the
users. `applied` are the broadcasts of the current block that were applied, which
the source writes to its log. -/
structure CallVerificationChain where
  state : VerificationPhase := .ended
  emojiHash : Option Bytes := none
  height : Int := -1
  lastBlockHash : UInt256 := 0
  participantKeys : List (BitVec 64 × PublicKey) := []
  committed : List (BitVec 64 × Bytes) := []
  revealed : List (BitVec 64 × Bytes) := []
  delayAllowed : Bool := false
  maySkipSignaturesValidation : Bool := false
  delayedBroadcasts : Int → List GroupBroadcast := fun _ => []
  applied : List GroupBroadcast := []

/-- The order of the maps from users. -/
def userOrder {α : Type} (entry : BitVec 64 × α) : Int := entry.1.toInt

/-- `find` in a map from users. -/
def findUser {α : Type} (userId : BitVec 64) (entries : List (BitVec 64 × α)) : Option α :=
  (entries.find? fun entry => entry.1 = userId).map Prod.snd

/-- The order of byte strings. -/
def bytesLe (a b : Bytes) : Prop := List.le a b

instance : DecidableRel bytesLe := fun a b => inferInstanceAs (Decidable (¬b < a))

namespace CallVerificationChain

/-- A signature is checked unless it may be skipped. -/
def checkBroadcast (crypto : Crypto) (chain : CallVerificationChain) (publicKey : PublicKey) (toSign : Bytes)
    (signature : Signature) : Outcome Unit :=
  if chain.maySkipSignaturesValidation then pure () else verifySignature crypto publicKey toSign signature

/-- The key of a participant of the block. -/
def participantKey (chain : CallVerificationChain) (userId : BitVec 64) : Outcome PublicKey :=
  match findUser userId chain.participantKeys with
  | none => .error invalidBroadcastUnknownUserId.errorString
  | some publicKey => .ok publicKey

def processCommit (crypto : Crypto) (chain : CallVerificationChain) (commit : NonceCommit) :
    Outcome CallVerificationChain := do
  check (commit.chainHeight.toInt = chain.height)
  ensure (chain.state = .commit) invalidBroadcastNotInCommit.errorString
  let publicKey ← chain.participantKey commit.userId
  chain.checkBroadcast crypto publicKey { commit with signature := 0 }.store commit.signature
  ensure (findUser commit.userId chain.committed = none) invalidBroadcastAlreadyApplied.errorString
  let committed := OrderedMap.assign userOrder (commit.userId, commit.nonceHash.store) chain.committed
  pure
    { chain with
      committed
      state := if committed.length = chain.participantKeys.length then .reveal else chain.state
      applied := chain.applied ++ [.commit commit] }

/-- The hash that the participants compare. -/
def emojiOf (crypto : CallCrypto) (lastBlockHash : UInt256) (nonces : List Bytes) : Bytes :=
  crypto.hmacSha512 (nonces.insertionSort bytesLe).flatten lastBlockHash.store

def processReveal (crypto : CallCrypto) (chain : CallVerificationChain) (reveal : NonceReveal) :
    Outcome CallVerificationChain := do
  check (reveal.chainHeight.toInt = chain.height)
  ensure (chain.state = .reveal) invalidBroadcastNotInReveal.errorString
  let publicKey ← chain.participantKey reveal.userId
  chain.checkBroadcast crypto.toCrypto publicKey { reveal with signature := 0 }.store reveal.signature
  ensure (findUser reveal.userId chain.revealed = none) invalidBroadcastAlreadyApplied.errorString
  match findUser reveal.userId chain.committed with
  | none => .fatal
  | some expectedNonceHash =>
    ensure (expectedNonceHash = (crypto.sha256 reveal.nonce.store).store)
      invalidBroadcastInvalidReveal.errorString
    let revealed := OrderedMap.assign userOrder (reveal.userId, reveal.nonce.store) chain.revealed
    check (chain.emojiHash = none)
    let done := revealed.length = chain.participantKeys.length
    pure
      { chain with
        revealed
        emojiHash :=
          if done then some (emojiOf crypto chain.lastBlockHash (revealed.map Prod.snd)) else chain.emojiHash
        state := if done then .ended else chain.state
        applied := chain.applied ++ [.reveal reveal] }

/-- `process_broadcast`: the chain after it, unless there is an error. -/
def processBroadcast (crypto : CallCrypto) (chain : CallVerificationChain) (broadcast : GroupBroadcast) :
    Outcome CallVerificationChain := do
  ensure (broadcast.chainHash = chain.lastBlockHash) invalidBroadcastInvalidBlockHash.errorString
  match broadcast with
  | .commit commit => chain.processCommit crypto.toCrypto commit
  | .reveal reveal => chain.processReveal crypto reveal

/-- A broadcast that was delayed: errors are only logged. -/
def processDelayed (crypto : CallCrypto) (chain : CallVerificationChain) (broadcast : GroupBroadcast) :
    Outcome CallVerificationChain :=
  match chain.processBroadcast crypto broadcast with
  | .error _ => pure chain
  | outcome => outcome

/-- The participants of a group, as a map. -/
def keysOf (participants : List GroupParticipant) : List (BitVec 64 × PublicKey) :=
  participants.foldl (fun keys p => OrderedMap.emplace userOrder (p.userId, p.publicKey) keys) []

/-- A new block: nothing is committed yet. -/
def reset (chain : CallVerificationChain) (blockchain : Blockchain) : CallVerificationChain :=
  { chain with
    state := .commit
    height := blockchain.getHeight
    lastBlockHash := blockchain.lastBlockHash
    emojiHash := none
    committed := []
    revealed := []
    participantKeys := keysOf blockchain.state.groupState.participants
    applied := [] }

def onNewMainBlock (crypto : CallCrypto) (chain : CallVerificationChain) (blockchain : Blockchain) :
    Outcome CallVerificationChain := do
  check (chain.height < blockchain.getHeight)
  let chain := chain.reset blockchain
  check (chain.participantKeys.length = blockchain.state.groupState.participants.length)
  let chain ← (chain.delayedBroadcasts chain.height).foldlM (processDelayed crypto) chain
  pure { chain with delayedBroadcasts := Function.update chain.delayedBroadcasts chain.height [] }

def tryApplyBlock (crypto : CallCrypto) (chain : CallVerificationChain) (message : Bytes) :
    Outcome CallVerificationChain := do
  let broadcast ← GroupBroadcast.ofMessage message
  let chainHeight := broadcast.chainHeight.toInt
  if chainHeight < chain.height then pure chain
  else if chain.height < chainHeight then do
    ensure chain.delayAllowed (invalidBroadcastInFuture.text
      ("broadcast_height=" ++ toString chainHeight ++ " height=" ++ toString chain.height))
    pure
      { chain with
        delayedBroadcasts := Function.update chain.delayedBroadcasts chainHeight
          (chain.delayedBroadcasts chainHeight ++ [broadcast]) }
  else chain.processBroadcast crypto broadcast

end CallVerificationChain

/-! ## The broadcasts of a participant -/

structure CallVerification where
  userId : BitVec 64
  privateKey : PrivateKey
  chain : CallVerificationChain
  pendingOutboundMessages : List Bytes := []
  sentCommit : Bool := false
  sentReveal : Bool := false
  height : BitVec 32 := -1
  lastBlockHash : UInt256 := 0
  nonce : UInt256 := 0

namespace CallVerification

/-- `sign(…).move_as_ok()`. -/
def signOrAbort (crypto : CallCrypto) (privateKey : PrivateKey) (toSign : Bytes) : Outcome Signature :=
  match crypto.sign privateKey toSign with
  | .ok signature => .ok signature
  | _ => .fatal

def onNewMainBlock (crypto : CallCrypto) (v : CallVerification) (blockchain : Blockchain) (nonce : UInt256) :
    Outcome CallVerification := do
  let nonceCommit : NonceCommit :=
    { userId := v.userId
      chainHeight := blockchain.lastBlock.height
      chainHash := blockchain.lastBlockHash
      nonceHash := crypto.sha256 nonce.store }
  let signature ← signOrAbort crypto v.privateKey nonceCommit.store
  let chain ← v.chain.onNewMainBlock crypto blockchain
  pure
    { v with
      height := blockchain.lastBlock.height
      lastBlockHash := blockchain.lastBlockHash
      nonce
      sentCommit := true
      sentReveal := false
      pendingOutboundMessages := [{ nonceCommit with signature }.store]
      chain }

def create (crypto : CallCrypto) (userId : BitVec 64) (privateKey : PrivateKey) (blockchain : Blockchain)
    (nonce : UInt256) : Outcome CallVerification :=
  onNewMainBlock crypto { userId, privateKey, chain := { delayAllowed := true } } blockchain nonce

/-- The reveal of the participant, not signed yet. -/
def ownReveal (v : CallVerification) : NonceReveal :=
  { userId := v.userId, chainHeight := v.height, chainHash := v.lastBlockHash, nonce := v.nonce }

/-- The end of `receive_inbound_message`: the reveal is sent when all have
committed. -/
def sendReveal (crypto : CallCrypto) (v : CallVerification) : Outcome CallVerification :=
  if v.chain.state = .reveal ∧ v.sentReveal = false then do
    let signature ← signOrAbort crypto v.privateKey v.ownReveal.store
    check (v.pendingOutboundMessages = [])
    pure { v with sentReveal := true, pendingOutboundMessages := [{ v.ownReveal with signature }.store] }
  else pure v

def receiveInboundMessage (crypto : CallCrypto) (v : CallVerification) (message : Bytes) :
    Outcome CallVerification := do
  let chain ← v.chain.tryApplyBlock crypto message
  { v with chain }.sendReveal crypto

def pullOutboundMessages (v : CallVerification) : CallVerification × List Bytes :=
  ({ v with pendingOutboundMessages := [] }, v.pendingOutboundMessages)

end CallVerification

end Tdlib.E2e
