/-
The Merkle trie of the key-value state, from `td/e2e/Trie.cpp`.

A node holds its hash, taken by the constructors over its own contents and the
hashes of its children. A pruned node holds a hash only: with a negative offset
the node cannot be loaded, with another one `try_load` reads it from a
snapshot. The source replaces a loaded node in place; here `load` gives the
node to go on with, and the next access loads it again from the same bytes.

The functions that load nodes recurse on a bound of their depth. Each call of
`set`, `get` and `parse_from_network` shortens the key, or the base string, by
a bit at least, so one more than its length is enough.
-/
import Tdlib.E2e.BitString

namespace Tdlib.E2e

open BitString

/-- `UInt256`, its first byte the least significant. -/
abbrev UInt256 := BitVec 256

def UInt256.store (x : UInt256) : Bytes := leBytes 32 x.toNat

def fetchUInt256 (parser : TlParser) : UInt256 × TlParser :=
  let (bytes, parser) := parser.fetchBinary 32
  (BitVec.ofNat 256 (leNat bytes), parser)

inductive TrieNodeType
  | empty
  | leaf
  | inner
  | pruned
  deriving DecidableEq, Repr

namespace TrieNodeType

/-- The value of the enumerator. -/
def code : TrieNodeType → Nat
  | .empty => 0
  | .leaf => 1
  | .inner => 2
  | .pruned => 3

def store (type : TrieNodeType) : Bytes := leBytes 4 type.code

/-- The enumerator of a value, if it has one. -/
def ofCode : Nat → Option TrieNodeType
  | 0 => some .empty
  | 1 => some .leaf
  | 2 => some .inner
  | 3 => some .pruned
  | _ => none

end TrieNodeType

inductive TrieNode
  | empty (hash : UInt256)
  | leaf (hash : UInt256) (keySuffix : BitString) (value : Bytes)
  | inner (hash : UInt256) (pfx : BitString) (left right : TrieNode)
  | pruned (hash : UInt256) (offset : Int) (baseBitString : BitString)
  deriving DecidableEq, Repr

namespace TrieNode

def hash : TrieNode → UInt256
  | .empty hash => hash
  | .leaf hash _ _ => hash
  | .inner hash _ _ _ => hash
  | .pruned hash _ _ => hash

def storeForHash : TrieNode → Outcome Bytes
  | .leaf _ keySuffix value => do
    let value ← storeString value
    pure (TrieNodeType.leaf.store ++ keySuffix.store ++ value)
  | .inner _ pfx left right =>
    pure (TrieNodeType.inner.store ++ pfx.store ++ left.hash.store ++ right.hash.store)
  | .empty _ => pure TrieNodeType.empty.store
  | .pruned .. => .fatal

section

variable (sha256 : Bytes → UInt256)

def computeHash (node : TrieNode) : Outcome UInt256 := do
  let buf ← node.storeForHash
  pure (sha256 buf)

/-! ## Constructors -/

/-- `TrieNode()`. -/
def newEmpty : Outcome TrieNode := do
  let hash ← computeHash sha256 (.empty 0)
  pure (.empty hash)

/-- `TrieNode(key_suffix, value)`. -/
def newLeaf (keySuffix : BitString) (value : Bytes) : Outcome TrieNode := do
  let hash ← computeHash sha256 (.leaf 0 keySuffix value)
  pure (.leaf hash keySuffix value)

/-- `TrieNode(prefix, left, right)`. -/
def newInner (pfx : BitString) (left right : TrieNode) : Outcome TrieNode := do
  let hash ← computeHash sha256 (.inner 0 pfx left right)
  pure (.inner hash pfx left right)

/-- `TrieNode(hash_value)`. -/
def newPruned (hashValue : UInt256) : TrieNode := .pruned hashValue (-1) .null

/-- An inner node with the children swapped where `bit` is set, as the cases of
`set` that split a node do. -/
def newSplit (bit : UInt8) (pfx : BitString) (left right : TrieNode) : Outcome TrieNode :=
  if bit ≠ 0 then newInner sha256 pfx right left else newInner sha256 pfx left right

/-! ## Loading -/

def fetchNodeFromSnapshot (snapshotSlice : Bytes) (bs : BitString) : Outcome TrieNode := do
  let (type, parser) := (TlParser.new snapshotSlice).fetchInt
  match TrieNodeType.ofCode type with
  | some .leaf =>
    let (keySuffix, parser) ← fetch parser bs
    let (value, parser) := parser.fetchString
    parser.getStatus
    newLeaf sha256 keySuffix value
  | some .inner =>
    let (pfx, parser) ← fetch parser bs
    let (leftOffset, parser) := parser.fetchLong
    let (leftHash, parser) := fetchUInt256 parser
    let (rightOffset, parser) := parser.fetchLong
    let (rightHash, parser) := fetchUInt256 parser
    parser.getStatus
    let leftBs ← (bs.withBuffer pfx).substrFrom (pfx.bitsSize + 1)
    let rightBs := { null with beginBit := leftBs.beginBit, bitsSize := leftBs.bitsSize }
    newInner sha256 pfx (.pruned leftHash (int64OfBits leftOffset) leftBs)
      (.pruned rightHash (int64OfBits rightOffset) rightBs)
  | some .empty => newEmpty sha256
  | _ => .error "Failed to parse trie node"

/-- The string `try_load` reads into: a base without a buffer gets a new one. -/
def loadBase (baseBitString : BitString) : Outcome BitString :=
  match baseBitString.data with
  | some _ => pure baseBitString
  | none => create none baseBitString.beginBit baseBitString.bitsSize

/-- `try_load` of a pruned node. -/
def tryLoad (snapshot : Bytes) (hash : UInt256) (offset : Int) (baseBitString : BitString) : Outcome TrieNode := do
  if offset < 0 then .error "Cannot load pruned node"
  else if snapshot.length < offset.toNat then .error "Cannot load pruned node: invalid offset"
  else
    let bs ← loadBase baseBitString
    let newNode ← fetchNodeFromSnapshot sha256 (snapshot.drop offset.toNat) bs
    if newNode.hash ≠ hash then .error "Cannot load pruned node: hash mismatch"
    else pure newNode

/-- The node to go on with: a pruned one is loaded first. -/
def load (snapshot : Bytes) : TrieNode → Outcome TrieNode
  | .pruned hash offset baseBitString => tryLoad sha256 snapshot hash offset baseBitString
  | node => pure node

/-! ## Reading and writing keys -/

def setLoop (snapshot : Bytes) : Nat → TrieNode → BitString → Bytes → Outcome TrieNode
  | 0, _, _, _ => .fatal
  | fuel + 1, n, key, value => do
    match ← n.load sha256 snapshot with
    | .pruned .. => .fatal
    | .empty _ => newLeaf sha256 key value
    | .leaf _ keySuffix leafValue =>
      if ← key.equals keySuffix then newLeaf sha256 key value
      else
        let i ← key.commonPrefixLength keySuffix
        let commonPrefix ← key.substr 0 i
        let bit ← key.getBit i
        let left ← newLeaf sha256 (← key.substrFrom (i + 1)) value
        let right ← newLeaf sha256 (← keySuffix.substrFrom (i + 1)) leafValue
        newSplit sha256 bit commonPrefix left right
    | .inner _ pfx left right =>
      let i ← pfx.commonPrefixLength key
      if i < pfx.bitsSize then
        let commonPrefix ← pfx.substr 0 i
        let remainingPrefix ← pfx.substrFrom (i + 1)
        let bit ← pfx.getBit i
        let left ← newInner sha256 remainingPrefix left right
        let right ← newLeaf sha256 (← key.substrFrom (i + 1)) value
        newSplit sha256 bit commonPrefix left right
      else
        let keyBit ← key.getBit i
        if keyBit ≠ 0 then
          let right ← setLoop snapshot fuel right (← key.substrFrom (i + 1)) value
          newInner sha256 pfx left right
        else
          let left ← setLoop snapshot fuel left (← key.substrFrom (i + 1)) value
          newInner sha256 pfx left right

def set (n : TrieNode) (key : BitString) (value snapshot : Bytes) : Outcome TrieNode :=
  setLoop sha256 snapshot (key.bitsSize + 1) n key value

def getLoop (snapshot : Bytes) : Nat → TrieNode → BitString → Outcome Bytes
  | 0, _, _ => .fatal
  | fuel + 1, n, key => do
    match ← n.load sha256 snapshot with
    | .pruned .. => .fatal
    | .empty _ => pure []
    | .leaf _ keySuffix value => if ← key.equals keySuffix then pure value else pure []
    | .inner _ pfx left right =>
      let prefixLength := pfx.bitsSize
      if (← key.commonPrefixLength pfx) ≠ prefixLength then pure []
      else
        let keyBit ← key.getBit prefixLength
        if keyBit ≠ 0 then getLoop snapshot fuel right (← key.substrFrom (prefixLength + 1))
        else getLoop snapshot fuel left (← key.substrFrom (prefixLength + 1))

def get (n : TrieNode) (key : BitString) (snapshot : Bytes) : Outcome Bytes :=
  getLoop sha256 snapshot (key.bitsSize + 1) n key

end

/-- `to_key`: a shorter key is filled up with zeros. -/
def toKey (key : Bytes) : Outcome BitString :=
  if key.length ≠ 32 then do
    Outcome.check (key.length ≤ 32)
    ofSlice (key ++ List.replicate (32 - key.length) 0)
  else ofSlice key

/-- `set` of a key that is a slice. -/
def setKey (sha256 : Bytes → UInt256) (n : TrieNode) (key value snapshot : Bytes) : Outcome TrieNode := do
  let key ← toKey key
  n.set sha256 key value snapshot

/-- `get` of a key that is a slice. -/
def getKey (sha256 : Bytes → UInt256) (n : TrieNode) (key snapshot : Bytes) : Outcome Bytes := do
  let key ← toKey key
  n.get sha256 key snapshot

/-! ## Pruning -/

/-- One key of the loop of `prune_node`: its rest goes to the left keys, or to
the right ones, or the key ends at the prefix. -/
def splitKey (pfx : BitString) (sides : List BitString × List BitString) (key : BitString) :
    Outcome (List BitString × List BitString) := do
  let prefixLen := pfx.bitsSize
  let common ← key.commonPrefixLength pfx
  if common = prefixLen then
    let bit ← key.getBit prefixLen
    let rest ← key.substrFrom (prefixLen + 1)
    if bit ≠ 0 then pure (sides.1, sides.2 ++ [rest]) else pure (sides.1 ++ [rest], sides.2)
  else pure sides

section

variable (sha256 : Bytes → UInt256)

def pruneNode (snapshot : Bytes) : Nat → TrieNode → List BitString → Outcome TrieNode
  | 0, _, _ => .fatal
  | fuel + 1, n, keys => do
    match ← n.load sha256 snapshot with
    | .pruned .. => .fatal
    | .empty hash => pure (.empty hash)
    | .leaf hash keySuffix value =>
      if keys.isEmpty then pure (newPruned hash) else pure (.leaf hash keySuffix value)
    | .inner hash pfx left right =>
      if keys.isEmpty then pure (newPruned hash)
      else
        let (leftKeys, rightKeys) ← keys.foldlM (splitKey pfx) ([], [])
        let left ← pruneNode snapshot fuel left leftKeys
        let right ← pruneNode snapshot fuel right rightKeys
        newInner sha256 pfx left right

/-- `generate_pruned_tree`. The keys have 256 bits, and one level below the last
bit the list of keys is empty. -/
def generatePrunedTree (n : TrieNode) (keys : List Bytes) (snapshot : Bytes) : Outcome TrieNode := do
  let keys ← keys.mapM toKey
  pruneNode sha256 snapshot 258 n keys

end

/-! ## The network format -/

def storeForNetwork : TrieNode → Outcome Bytes
  | .leaf _ keySuffix value => do
    let value ← storeString value
    pure (TrieNodeType.leaf.store ++ keySuffix.store ++ value)
  | .inner _ pfx left right => do
    let left ← storeForNetwork left
    let right ← storeForNetwork right
    pure (TrieNodeType.inner.store ++ pfx.store ++ left ++ right)
  | .pruned hash _ _ => pure (TrieNodeType.pruned.store ++ hash.store)
  | .empty _ => pure TrieNodeType.empty.store

def serializeForNetwork (node : TrieNode) : Outcome Bytes := node.storeForNetwork

section

variable (sha256 : Bytes → UInt256)

/-- `parse_from_network`, with the base string after it. The prefix of an inner
node shares its buffer with the left subtree, and the node is built when both
subtrees are read. -/
def parseFromNetwork : Nat → TlParser → BitString → Outcome (TrieNode × TlParser × BitString)
  | 0, _, _ => .fatal
  | fuel + 1, parser, bs => do
    let (type, parser) := parser.fetchInt
    match TrieNodeType.ofCode type with
    | some .leaf =>
      let (keySuffix, parser) ← fetch parser bs
      let (value, parser) := parser.fetchString
      let node ← newLeaf sha256 keySuffix value
      pure (node, parser, bs.withBuffer keySuffix)
    | some .inner =>
      let (pfx, parser) ← fetch parser bs
      let leftBs ← (bs.withBuffer pfx).substrFrom (pfx.bitsSize + 1)
      let (left, parser, leftBs) ← parseFromNetwork fuel parser leftBs
      let rightBs ← create none leftBs.beginBit leftBs.bitsSize
      let (right, parser, _) ← parseFromNetwork fuel parser rightBs
      let node ← newInner sha256 (pfx.withBuffer leftBs) left right
      pure (node, parser, bs.withBuffer leftBs)
    | some .pruned =>
      let (hash, parser) := fetchUInt256 parser
      pure (newPruned hash, parser, bs)
    | some .empty =>
      let node ← newEmpty sha256
      pure (node, parser, bs)
    | none => .fatal

def fetchFromNetwork (data : Bytes) : Outcome TrieNode := do
  let bs ← create none 0 256
  let (node, parser, _) ← parseFromNetwork sha256 (bs.bitsSize + 1) (TlParser.new data) bs
  parser.fetchEnd.getStatus
  pure node

/-! ## Snapshots -/

/-- `store_for_snapshot`: `storer` is what is written so far, and `getOffset`
takes its length. -/
def storeForSnapshot (getOffset : Nat → Int) (snapshot : Bytes) : Nat → TrieNode → Bytes → Outcome (Int × Bytes)
  | 0, _, _ => .fatal
  | fuel + 1, node, storer => do
    match ← node.load sha256 snapshot with
    | .pruned .. => .fatal
    | .leaf _ keySuffix value =>
      let offset := getOffset storer.length
      let value ← storeString value
      pure (offset, storer ++ TrieNodeType.leaf.store ++ keySuffix.store ++ value)
    | .inner _ pfx left right =>
      let (leftOffset, storer) ← storeForSnapshot getOffset snapshot fuel left storer
      let (rightOffset, storer) ← storeForSnapshot getOffset snapshot fuel right storer
      let offset := getOffset storer.length
      pure (offset, storer ++ TrieNodeType.inner.store ++ pfx.store ++ leBytes 8 (int64Bits leftOffset) ++
        left.hash.store ++ leBytes 8 (int64Bits rightOffset) ++ right.hash.store)
    | .empty _ =>
      let offset := getOffset storer.length
      pure (offset, storer ++ TrieNodeType.empty.store)

/-- The levels of a trie that are in memory. -/
def height : TrieNode → Nat
  | .inner _ _ left right => max left.height right.height + 1
  | _ => 0

/-- `serialize_for_snapshot`: a pass for the length, and one that writes. The
buffer throws where its size is more than a `std::string` holds. -/
def serializeForSnapshot (node : TrieNode) (snapshot : Bytes) : Outcome Bytes := do
  let fuel := node.height + 258
  let (_, calcLength) ← storeForSnapshot sha256 (fun _ => 0) snapshot fuel node []
  Outcome.check (calcLength.length + 8 < 2 ^ 63)
  let (rootOffset, storer) ← storeForSnapshot sha256 (fun length => length + 8) snapshot fuel node []
  pure (leBytes 8 (int64Bits rootOffset) ++ storer ++ List.replicate (calcLength.length - storer.length) 0)

def fetchFromSnapshot (snapshot : Bytes) : Outcome TrieNode := do
  let (rootOffset, parser) := (TlParser.new snapshot).fetchLong
  parser.getStatus
  if snapshot.length ≤ rootOffset then .error "Failed to parse"
  else
    let bs ← create none 0 256
    fetchNodeFromSnapshot sha256 (snapshot.drop rootOffset) bs

end

end TrieNode

end Tdlib.E2e
