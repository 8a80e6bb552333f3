/-
What the client reads.

A full chain and a client start together and see the same blocks, and the
client is handed proofs by whoever wants to. It answers a read from the values
it saw in blocks, or from the last proof it took. Whatever it answers is what
the trie of the full chain holds (`client_reads_full`), and the full chain can
prove any value to it (`proof_complete`).
-/
import Tdlib.E2e.ChainClient
import Tdlib.E2e.TrieProof

namespace Tdlib.E2e

open Outcome ClientBlockchain

/-! ## Keys -/

/-- The 32 bytes of a key of the map of the client. -/
def UInt256.toKey (k : UInt256) : Key256 := ⟨k.store, length_leBytes 32 k.toNat⟩

theorem UInt256.toKey_inj {k k' : UInt256} : k.toKey = k'.toKey ↔ k = k' := by
  refine ⟨fun h => BitVec.eq_of_toNat_eq (leBytes_injective (w := 32) k.isLt k'.isLt ?_), fun h => by rw [h]⟩
  exact congrArg Subtype.val h

/-- The bytes of a key are those of the number it is read as. -/
theorem asKey_ok {key : Bytes} {k : UInt256} (h : asKey key = .ok k) : key = k.toKey.val := by
  rw [asKey] at h
  simp only [bind_ok_iff, ensure_ok_iff, exists_const, pure_def, ok.injEq] at h
  obtain ⟨hlen, -, rfl⟩ := h
  have hlt : leNat key < 2 ^ 256 := by
    have hlt := leNat_lt key
    rw [hlen] at hlt
    exact hlt
  change key = leBytes 32 (BitVec.ofNat 256 (leNat key)).toNat
  rw [BitVec.toNat_ofNat, Nat.mod_eq_of_lt hlt, ← hlen, leBytes_leNat]

theorem keyToBitstring_toKey {k : UInt256} (h : asKey k.toKey.val = .ok k) :
    keyToBitstring k.toKey.val = TrieNode.toKey k.toKey.val := by
  rw [keyToBitstring, h, ok_bind, TrieNode.toKey, if_neg (not_not_intro k.toKey.2)]

theorem KeyValueState.getValue_toKey {crypto : Crypto} {k : UInt256} (h : asKey k.toKey.val = .ok k)
    (kv : KeyValueState) : kv.getValue crypto k.toKey.val = kv.node.getKey crypto.sha256 k.toKey.val kv.snapshot := by
  rw [getValue, keyToBitstring_toKey h]
  rfl

/-! ## The values of the full chain -/

/-- The full chain holds a whole trie, and in it every value of the map. -/
structure Recorded (crypto : Crypto) (kv : KeyValueState) (map : UInt256 → Option Entry) (t : KeyTrie) : Prop where
  snapshot : kv.snapshot = []
  whole : Whole crypto.sha256 [] kv.node t
  values : ∀ k entry, map k = some entry → t.lookup k.toKey.bits = some (some entry.value)

namespace Recorded

variable {crypto : Crypto} {kv : KeyValueState} {map : UInt256 → Option Entry} {t : KeyTrie}

theorem forget (h : Recorded crypto kv map t) : Recorded crypto kv (fun _ => none) t :=
  ⟨h.snapshot, h.whole, (fun _ _ hmap => nomatch hmap)⟩

theorem setValue (h : Recorded crypto kv map t) {key value : Bytes} {kv' : KeyValueState}
    (hset : kv.setValue crypto key value = .ok kv') (height : Int) :
    ∃ k t', asKey key = .ok k ∧ Recorded crypto kv' (Function.update map k (some ⟨height, value⟩)) t' := by
  rw [KeyValueState.setValue, bind_ok_iff] at hset
  obtain ⟨bits, hbits, hset⟩ := hset
  obtain ⟨k, hk, -⟩ := bind_ok_iff.mp hbits
  have hkey := asKey_ok hk
  subst hkey
  rw [keyToBitstring_toKey hk] at hbits
  rw [bind_ok_iff] at hset
  obtain ⟨node, hnode, hset⟩ := hset
  cases hset
  have hsetKey : kv.node.setKey crypto.sha256 k.toKey.val value [] = .ok node := by
    rw [TrieNode.setKey, hbits, ← h.snapshot]
    exact hnode
  obtain ⟨t', ht', hshort, hlong⟩ := h.whole.setKey k.toKey value
  have hv : value.length < 2 ^ 32 := by
    by_contra hge
    rw [hlong (by omega)] at hsetKey
    cases hsetKey
  obtain ⟨node', hnode', hwhole⟩ := hshort hv
  rw [hsetKey] at hnode'
  cases hnode'
  refine ⟨k, t', hk, h.snapshot, hwhole, fun k' entry hentry => ?_⟩
  rw [h.whole.lookup_set ht']
  by_cases hkk : k' = k
  · subst hkk
    rw [Function.update_self] at hentry
    cases hentry
    exact if_pos rfl
  · rw [Function.update_of_ne hkk] at hentry
    rw [if_neg fun heq => hkk (UInt256.toKey_inj.mp heq)]
    exact h.values k' entry hentry

variable {publicKey : PublicKey} {options : ValidateOptions}

section

variable (hfull : options.validateStateHash = true) (height : Int) {s s' : State}
    (h : Recorded crypto s.keyValueState map t)

include hfull height h

/-- The changes of a block, on the full chain and in the map of the client. -/
theorem runChanges {changes : List Change} (hrun : State.runChanges crypto publicKey options s changes = .ok s') :
    ∃ t', Recorded crypto s'.keyValueState (recordValues height map changes).1 t' := by
  induction changes generalizing s map t with
  | nil =>
    cases hrun
    exact ⟨t, h⟩
  | cons change changes ih =>
    obtain ⟨s1, hstep, hrest⟩ := State.runChanges_cons.mp hrun
    cases change with
    | noop nonce =>
      obtain rfl : s1 = s := hstep
      exact ih h hrest
    | setValue key value =>
      simp only [State.ChangeStep, hfull, if_true] at hstep
      obtain ⟨-, kv, hset, rfl⟩ := hstep
      obtain ⟨k, t1, hk, h1⟩ := h.setValue hset height
      rw [recordValues, hk]
      exact ih (s := { s with hasSetValue := true, keyValueState := kv }) h1 hrest
    | setGroupState g =>
      obtain ⟨-, -, -, rfl⟩ := hstep
      exact ih (s := { s with hasGroupStateChange := true, groupState := g, sharedKey := .emptySharedKey }) h hrest
    | setSharedKey k =>
      obtain ⟨-, -, -, rfl⟩ := hstep
      exact ih (s := { s with hasSharedKeyChange := true, sharedKey := k }) h hrest

theorem apply {block : Block} (happly : s.apply crypto block options = .ok s') :
    ∃ t', Recorded crypto s'.keyValueState (recordValues height map block.changes).1 t' := by
  obtain ⟨s0, s1, publicKey, happ⟩ := State.apply_ok_iff.mp happly
  have hs0 : s0.keyValueState = s.keyValueState := by
    have hbefore := happ.before
    rw [State.before] at hbefore
    split at hbefore
    · obtain ⟨_, -, hbefore⟩ := bind_ok_iff.mp hbefore
      cases hbefore
      rfl
    · cases hbefore
      rfl
  have hs' : s' = s1 := by rw [happ.finish, State.finish, if_pos hfull]
  subst hs'
  have h0 : Recorded crypto s0.fresh.keyValueState map t := hs0 ▸ h
  exact h0.runChanges hfull height happ.changes

end

end Recorded

/-! ## Runs -/

/-- A full chain, and a client of it. -/
structure Replicas where
  full : Blockchain
  client : ClientBlockchain

/-- A block for both, with the permissions the full chain limits it to, or a
proof for the client. -/
inductive ClientEvent
  | block (data : Bytes) (limit : BitVec 32)
  | proof (data : Bytes)

/-- The options of a full check. -/
abbrev ValidateOptions.full (limit : BitVec 32) : ValidateOptions :=
  { validateStateHash := true, validateSignature := true, permissions := limit }

namespace Replicas

/-- Both apply the block. A proof that is refused leaves the client as it is. -/
def step (crypto : Crypto) (r : Replicas) : ClientEvent → Outcome Replicas
  | .block data limit => do
    let block ← Block.fromTlSerialized data
    let full ← r.full.tryApplyBlock crypto block (.full limit)
    let _ ← (r.client.tryApplyBlock crypto data).2
    pure ⟨full, (r.client.tryApplyBlock crypto data).1⟩
  | .proof data =>
    match r.client.addProof crypto data with
    | .ok client => pure { r with client := client }
    | .error _ => pure r
    | .fatal => .fatal

def run (crypto : Crypto) (r : Replicas) (events : List ClientEvent) : Outcome Replicas :=
  events.foldlM (step crypto) r

/-- The two start together: without any block, or the client from the last block
of the full chain. -/
inductive Start (crypto : Crypto) : Replicas → Prop
  | empty {full : Blockchain} {client : ClientBlockchain} :
    Blockchain.createEmpty crypto = .ok full → createEmpty crypto = .ok client →
      Start crypto ⟨full, client⟩
  | joined {empty full : Blockchain} {client : ClientBlockchain} {blocks : List (Block × BitVec 32)} {block : Block}
      {limit : BitVec 32} {data : Bytes} :
    Blockchain.createEmpty crypto = .ok empty →
      empty.run crypto ((blocks.map fun b => (b.1, .full b.2)) ++ [(block, .full limit)]) = .ok full →
      Block.fromTlSerialized data = .ok block → createFromBlock crypto data = .ok client →
      Start crypto ⟨full, client⟩

/-- What holds at any time: the chains agree, the values the client saw are in
the trie of the full chain, and the trie of the client is one, with parts
missing. -/
structure Consistent (crypto : Crypto) (r : Replicas) : Prop where
  agree : r.full.Agree r.client.blockchain
  recorded : ∃ t, Recorded crypto r.full.state.keyValueState r.client.map t
  snapshot : r.client.blockchain.state.keyValueState.snapshot = []
  rep : ∃ p, Rep crypto.sha256 [] 0 r.client.blockchain.state.keyValueState.node p

section

variable {crypto : Crypto}

theorem createEmpty_recorded {full : Blockchain} (h : Blockchain.createEmpty crypto = .ok full) :
    Recorded crypto full.state.keyValueState (fun _ => none) .empty := by
  simp only [Blockchain.createEmpty, State.createEmpty, bind_ok_iff, pure_def] at h
  obtain ⟨state, ⟨node, hnode, hstate⟩, h⟩ := h
  cases h
  cases hstate
  cases hnode
  exact ⟨rfl, .empty [], by simp⟩

theorem run_recorded {blocks : List (Block × BitVec 32)} {chain chain' : Blockchain} {t : KeyTrie}
    (h : Recorded crypto chain.state.keyValueState (fun _ => none) t)
    (hrun : chain.run crypto (blocks.map fun b => (b.1, .full b.2)) = .ok chain') :
    ∃ t', Recorded crypto chain'.state.keyValueState (fun _ => none) t' := by
  induction blocks generalizing chain t with
  | nil =>
    cases hrun
    exact ⟨t, h⟩
  | cons block blocks ih =>
    rw [List.map_cons, Blockchain.run, List.foldlM_cons, bind_ok_iff] at hrun
    obtain ⟨chain1, hstep, hrest⟩ := hrun
    obtain ⟨t1, h1⟩ := h.apply rfl 0 (Blockchain.tryApplyBlock_ok_iff.mp hstep).state
    exact ih h1.forget hrest

theorem Start.consistent {r : Replicas} (h : Start crypto r) : Consistent crypto r := by
  cases h with
  | empty hfull hclient =>
    rw [createEmpty, hfull] at hclient
    cases hclient
    have hrecorded := createEmpty_recorded hfull
    exact ⟨⟨rfl, rfl, rfl, rfl, rfl⟩, ⟨_, hrecorded⟩, hrecorded.snapshot, ⟨_, hrecorded.whole.rep⟩⟩
  | @joined empty full client blocks block limit data hempty hrun hdata hclient =>
    obtain ⟨last, hblocks, hlast⟩ := Blockchain.run_append.mp hrun
    have haccepts := Blockchain.run_singleton.mp hlast
    have hheight : -1 ≤ last.getHeight :=
      Blockchain.run_height (by rw [Blockchain.createEmpty_height hempty]) hblocks
    obtain ⟨hjoined, hagree⟩ := haccepts.createFromBlock hheight
    rw [createFromBlock, hdata, ok_bind, hjoined] at hclient
    cases hclient
    obtain ⟨t, hrecorded⟩ := run_recorded (createEmpty_recorded hempty) hblocks
    obtain ⟨t', hrecorded'⟩ := hrecorded.apply rfl 0 haccepts.state
    exact ⟨hagree, ⟨t', hrecorded'.forget⟩, rfl, ⟨_, .hole _⟩⟩

theorem Consistent.step {r r' : Replicas} {event : ClientEvent} (h : Consistent crypto r)
    (hstep : r.step crypto event = .ok r') : Consistent crypto r' := by
  cases event with
  | block data limit =>
    simp only [Replicas.step, bind_ok_iff, pure_def, ok.injEq] at hstep
    obtain ⟨block, hblock, full, hfull, _, -, rfl⟩ := hstep
    obtain ⟨t, hrecorded⟩ := h.recorded
    obtain ⟨t', hrecorded'⟩ :=
      hrecorded.apply rfl block.height.toInt (Blockchain.tryApplyBlock_ok_iff.mp hfull).state
    rw [tryApplyBlock_follows h.agree hfull hblock]
    exact ⟨⟨rfl, rfl, rfl, rfl, rfl⟩, ⟨t', hrecorded'⟩, rfl, ⟨_, .hole _⟩⟩
  | proof data =>
    rw [Replicas.step] at hstep
    split at hstep
    next client hproof =>
      cases hstep
      simp only [addProof, bind_ok_iff, ensure_ok_iff, exists_const,
        pure_def, ok.injEq] at hproof
      obtain ⟨node, hnode, hhash, rfl⟩ := hproof
      have hagree := h.agree
      exact ⟨{ hagree with kvHash := hagree.kvHash.trans hhash.symm }, h.recorded, h.snapshot,
        TrieNode.fetchFromNetwork_ok hnode⟩
    next =>
      cases hstep
      exact h
    next => cases hstep

theorem Consistent.run {r r' : Replicas} {events : List ClientEvent} (h : Consistent crypto r)
    (hrun : r.run crypto events = .ok r') : Consistent crypto r' :=
  foldlM_inv (fun hI hstep => Consistent.step hI hstep) h hrun

/-- What the client answers, whether from its map or from a proof. -/
theorem Consistent.getValue {r : Replicas} (h : Consistent crypto r)
    (inj : ∀ x ∈ r.client.blockchain.state.keyValueState.node.hashInputs,
      ∀ y ∈ r.full.state.keyValueState.node.hashInputs, crypto.sha256 x = crypto.sha256 y → x = y)
    {key value : Bytes} (hread : r.client.getValue crypto key = .ok value) :
    r.full.state.keyValueState.getValue crypto key = .ok value := by
  obtain ⟨t, hrecorded⟩ := h.recorded
  rw [ClientBlockchain.getValue, bind_ok_iff] at hread
  obtain ⟨k, hk, hread⟩ := hread
  have hkey := asKey_ok hk
  subst hkey
  rw [KeyValueState.getValue_toKey hk, hrecorded.snapshot]
  cases hmap : r.client.map k with
  | some entry =>
    rw [hmap] at hread
    cases hread
    obtain ⟨stored, hstored, hget⟩ := hrecorded.whole.getKey k.toKey
    rw [hrecorded.values k entry hmap] at hstored
    cases hstored
    exact hget
  | none =>
    rw [hmap] at hread
    simp only [KeyValueState.getValue_toKey hk, h.snapshot] at hread
    obtain ⟨p, hrep⟩ := h.rep
    have hprunes := hrecorded.whole.prunes hrep h.agree.kvHash.symm inj
    rcases hrecorded.whole.getKey_pruned hrep hprunes k.toKey with ⟨e, herror⟩ | hsame
    · rw [herror] at hread
      cases hread
    · rw [← hsame, hread]

/-- **The client reads what the full chain holds.** After any blocks and proofs, in
any order, a value the client returns is the one in the trie of the full chain,
unless the inputs of the hashes of the two tries collide. -/
theorem client_reads_full {r r' : Replicas} {events : List ClientEvent} (hstart : Start crypto r)
    (hrun : r.run crypto events = .ok r') (inj : ∀ x ∈ r'.client.blockchain.state.keyValueState.node.hashInputs,
      ∀ y ∈ r'.full.state.keyValueState.node.hashInputs, crypto.sha256 x = crypto.sha256 y → x = y)
    {key value : Bytes} (hread : r'.client.getValue crypto key = .ok value) :
    r'.full.state.keyValueState.getValue crypto key = .ok value :=
  (hstart.consistent.run hrun).getValue inj hread

end

/-! The small chain again. The client joins at its first block, sees a second one
and is handed two proofs, of which only the second is one. -/

def sampleFirstBytes : Bytes := sampleFirst.toTlSerialized.getD []

theorem fromTlSerialized_sampleFirstBytes : Block.fromTlSerialized sampleFirstBytes = .ok sampleFirst := by
  decide +kernel

def sampleJoined : ClientBlockchain :=
  (createFromBlock sampleCrypto sampleFirstBytes).get (by decide +kernel)

theorem sampleStart : Start sampleCrypto ⟨sampleChain, sampleJoined⟩ := by
  have hrun : sampleEmpty.run sampleCrypto [(sampleFirst, .full GroupParticipantFlags.allPermissions)] =
      .ok sampleChain :=
    Blockchain.run_singleton.mpr (Blockchain.tryApplyBlock_ok_iff.mp tryApplyBlock_sampleFirst)
  have hblocks : sampleEmpty.run sampleCrypto ((([] : List (Block × BitVec 32)).map fun b => (b.1, .full b.2)) ++
      [(sampleFirst, .full GroupParticipantFlags.allPermissions)]) = .ok sampleChain := hrun
  exact .joined createEmpty_sample hblocks fromTlSerialized_sampleFirstBytes (eq_ok_get _ _)

/-- The values after the second block. -/
def sampleMore : KeyValueState :=
  (sampleChain.state.keyValueState.setValue sampleCrypto (sampleKey 1 200).val [9]).getD
    sampleChain.state.keyValueState

def sampleNext : Block := sampleSign 6
  { prevBlockHash := sampleChain.lastBlockHash
    changes := [.setValue (sampleKey 1 200).val [9]]
    height := 1
    stateProof :=
      { kvHash := sampleMore.getHash, groupState := some sampleGroup, sharedKey := some sampleSharedKey }
    signaturePublicKey := some 6 }

def sampleNextBytes : Bytes := sampleNext.toTlSerialized.getD []

def sampleProof : Bytes :=
  (sampleMore.node.generatePrunedTree sampleHash [(sampleKey 1 2).val] [] >>= TrieNode.serializeForNetwork).getD []

def sampleEvents : List ClientEvent :=
  [.block sampleNextBytes GroupParticipantFlags.allPermissions, .proof [], .proof sampleProof]

def sampleEnd : Replicas :=
  (run sampleCrypto ⟨sampleChain, sampleJoined⟩ sampleEvents).getD ⟨sampleChain, sampleJoined⟩

-- one evaluation of the run for all that is read off it
theorem sampleEnd_facts : (run sampleCrypto ⟨sampleChain, sampleJoined⟩ sampleEvents).isOk = true ∧
      (∀ x ∈ sampleEnd.client.blockchain.state.keyValueState.node.hashInputs,
        ∀ y ∈ sampleEnd.full.state.keyValueState.node.hashInputs,
          sampleCrypto.sha256 x = sampleCrypto.sha256 y → x = y) ∧
      sampleEnd.client.getValue sampleCrypto (sampleKey 1 2).val = .ok [8] ∧
      sampleEnd.client.getValue sampleCrypto (sampleKey 1 200).val = .ok [9] := by decide +kernel

theorem run_sampleEvents : run sampleCrypto ⟨sampleChain, sampleJoined⟩ sampleEvents = .ok sampleEnd :=
  eq_ok_getD sampleEnd_facts.1 _

theorem client_reads_full_sample :
    sampleEnd.full.state.keyValueState.getValue sampleCrypto (sampleKey 1 2).val = .ok [8] ∧
      sampleEnd.full.state.keyValueState.getValue sampleCrypto (sampleKey 1 200).val = .ok [9] :=
  have ⟨_, hinj, hold, hnew⟩ := sampleEnd_facts
  ⟨client_reads_full sampleStart run_sampleEvents hinj hold, client_reads_full sampleStart run_sampleEvents hinj hnew⟩

end Replicas

/-! ## Proofs for the client -/

def KeyValueState.genProof (crypto : Crypto) (kv : KeyValueState) (keys : List Bytes) : Outcome Bytes := do
  let prunedTree ← kv.node.generatePrunedTree crypto.sha256 keys kv.snapshot
  prunedTree.serializeForNetwork

namespace Replicas

variable {crypto : Crypto}

/-- **Proofs are complete.** At any time the full chain can prove any of its keys: the client
takes the proof, and then reads each of them, with the value of the full chain. -/
theorem proof_complete {r r' : Replicas} {events : List ClientEvent} (hstart : Start crypto r)
    (hrun : r.run crypto events = .ok r') (keys : List Key256) :
    ∃ proof client, r'.full.state.keyValueState.genProof crypto (keys.map Subtype.val) = .ok proof ∧
      r'.client.addProof crypto proof = .ok client ∧ ∀ key ∈ keys, ∀ k, asKey key.val = .ok k →
        ∃ value, client.getValue crypto key.val = .ok value ∧
          r'.full.state.keyValueState.getValue crypto key.val = .ok value := by
  have h := hstart.consistent.run hrun
  obtain ⟨t, hrecorded⟩ := h.recorded
  obtain ⟨pruned, hpruned, hhash, hfor⟩ := hrecorded.whole.generatePrunedTree keys
  obtain ⟨p, t', hrep, hwhole, hprunes, hkeys⟩ := hfor.tries
  have hsized := hprunes.sized hwhole.sized
  obtain ⟨node, hfetch, hnode⟩ := TrieNode.fetchFromNetwork_rep hrep hsized
  have hroot : node.hash = r'.client.blockchain.state.keyValueState.getHash := by
    rw [hnode.hash, ← hrep.hash, hhash]
    exact h.agree.kvHash
  refine ⟨_, _, ?_, by rw [ClientBlockchain.addProof, hfetch, ok_bind, ensure_true hroot]; rfl, ?_⟩
  · rw [KeyValueState.genProof, hrecorded.snapshot, hpruned]
    exact TrieNode.storeForNetwork_rep hrep
  · intro key hkey k hk
    have heq := asKey_ok hk
    obtain rfl : key = k.toKey := Subtype.ext heq
    have hget := @KeyValueState.getValue_toKey crypto k hk
    rw [hget, hrecorded.snapshot, ClientBlockchain.getValue, hk, ok_bind]
    cases hmap : r'.client.map k with
    | some entry =>
      obtain ⟨stored, hstored, hread⟩ := hrecorded.whole.getKey k.toKey
      rw [hrecorded.values k entry hmap] at hstored
      cases hstored
      exact ⟨_, rfl, hread⟩
    | none =>
      obtain ⟨stored, hstored, hread⟩ := hwhole.getKey k.toKey
      refine ⟨_, ?_, hread⟩
      simp only [hget, h.snapshot]
      have hsame := (hprunes.lookup k.toKey.bits).resolve_left (Option.isSome_iff_ne_none.mp (hkeys _ hkey))
      rw [TrieNode.getKey_rep hnode hsized, hsame, hstored]
      rfl

theorem proof_complete_sample : ∃ proof client value,
    sampleEnd.full.state.keyValueState.genProof sampleCrypto [(sampleKey 1 2).val] = .ok proof ∧
      sampleEnd.client.addProof sampleCrypto proof = .ok client ∧
      client.getValue sampleCrypto (sampleKey 1 2).val = .ok value ∧
      sampleEnd.full.state.keyValueState.getValue sampleCrypto (sampleKey 1 2).val = .ok value := by
  obtain ⟨proof, client, hproof, hclient, hreads⟩ := proof_complete sampleStart run_sampleEvents [sampleKey 1 2]
  have hkey : (asKey (sampleKey 1 2).val).isOk = true := by decide +kernel
  obtain ⟨value, hread, hvalue⟩ := hreads _ (List.mem_singleton_self _) _ (eq_ok_get _ hkey)
  exact ⟨proof, client, value, hproof, hclient, hread, hvalue⟩

end Replicas

end Tdlib.E2e
