/-
The client: it parses a block, lets its chain apply it in the mode of the
client, and records the values of the block.

What the full check accepts, the client accepts. The other way the client
accepts more: it does not look at who writes a value, and a key that is no key
is noticed only when the chain is already advanced.
-/
import Tdlib.E2e.ChainModes

namespace Tdlib.E2e

open Outcome State Block

open GroupParticipantFlags (allPermissions)

/-! ## The bytes of an accepted block -/

theorem GroupState.Valid.readable {g : GroupState} (h : g.Valid) : g.Readable := by
  intro p hp
  apply BitVec.toInt_nonneg_of_msb_false
  rw [BitVec.msb_eq_getLsbD_last, Bool.eq_false_iff]
  intro hbit
  exact absurd (h.flags p hp 31 hbit) (by decide)

namespace State

variable {crypto : Crypto} {options : ValidateOptions} {block : Block} {s s0 s1 s' : State} {publicKey : PublicKey}

theorem Applied.step (h : Applied crypto options block s s0 s1 s' publicKey) {pre post : List Change}
    {change : Change} (hsplit : block.changes = pre ++ change :: post) :
    ∃ t t', t.groupState = groupAfter s0.groupState pre ∧ ChangeStep crypto publicKey options t t' change := by
  have hrun := h.changes
  rw [hsplit] at hrun
  obtain ⟨t, t', hpre, hstep, -⟩ := runChanges_split hrun
  exact ⟨t, t', runChanges_groupState (s := s0.fresh) hpre, hstep⟩

theorem Applied.readable (h : Applied crypto options block s s0 s1 s' publicKey) : block.Readable where
  changes := by
    intro change hchange
    obtain ⟨pre, post, hsplit⟩ := List.append_of_mem hchange
    obtain ⟨t, t', -, hstep⟩ := h.step hsplit
    cases change with
    | setGroupState g => exact hstep.1.readable
    | noop | setValue | setSharedKey => trivial
  groupState := by
    intro g hg
    have hproof := h.proven.groupState
    split at hproof
    · rw [hproof] at hg
      cases hg
    · rw [hproof] at hg
      cases hg
      exact h.proven.valid.readable

end State

/-- A signature is checked over the bytes of the block, so that there are some. -/
theorem Block.toTlSerialized_of_verifySignature {crypto : Crypto} {block : Block} {publicKey : PublicKey} {u : Unit}
    (h : block.verifySignature crypto publicKey = .ok u) : ∃ data, block.toTlSerialized = .ok data := by
  rw [verifySignature, bind_ok_iff] at h
  obtain ⟨toSign, hserialized, -⟩ := h
  simp only [toTlSerialized, storeBoxed, store, bind_ok_iff, pure_def] at hserialized ⊢
  obtain ⟨-, ⟨changes, hchanges, proof, hproof, key, hkey, -⟩, -⟩ := hserialized
  exact ⟨_, _, ⟨changes, hchanges, proof, hproof, key, hkey, rfl⟩, rfl⟩

namespace ClientBlockchain

/-! ## The values of a block -/

/-- Every value of the block has a key that is one. -/
def ValidKeys (changes : List Change) : Prop :=
  ∀ key value, Change.setValue key value ∈ changes → ∃ k, asKey key = .ok k

theorem asKey_cases (key : Bytes) : (∃ k, asKey key = .ok k) ∨ ∃ e, asKey key = .error e := by
  rw [asKey, Outcome.ensure, Outcome.ensure]
  split
  · split
    · exact .inl ⟨_, rfl⟩
    · exact .inr ⟨_, rfl⟩
  · exact .inr ⟨_, rfl⟩

theorem recordValues_cases (height : Int) (map : UInt256 → Option Entry) (changes : List Change) :
    (ValidKeys changes ∧ (recordValues height map changes).2 = .ok ()) ∨
      (¬ ValidKeys changes ∧ ∃ e, (recordValues height map changes).2 = .error e) := by
  -- a change that writes no value does not matter
  have hskip : ∀ {change changes}, (∀ key value, change ≠ Change.setValue key value) →
      (ValidKeys (change :: changes) ↔ ValidKeys changes) := by
    intro change changes hne
    refine forall₂_congr fun key value => ?_
    rw [List.mem_cons, or_iff_right (hne key value).symm]
  induction changes generalizing map with
  | nil => exact .inl ⟨(fun _ _ h => nomatch h), rfl⟩
  | cons change changes ih =>
    cases change with
    | setValue key value =>
      rcases asKey_cases key with ⟨k, hk⟩ | ⟨e, he⟩
      · have hcons : ValidKeys (.setValue key value :: changes) ↔ ValidKeys changes := by
          refine ⟨fun h key' value' hmem => h key' value' (.tail _ hmem), fun h key' value' hmem => ?_⟩
          cases hmem with
          | head => exact ⟨k, hk⟩
          | tail _ hmem => exact h key' value' hmem
        simp only [recordValues, hk, hcons]
        exact ih _
      · simp only [recordValues, he]
        refine .inr ⟨fun h => ?_, e, rfl⟩
        obtain ⟨k, hk⟩ := h key value (.head _)
        rw [he] at hk
        cases hk
    | noop | setGroupState | setSharedKey =>
      rw [hskip (by simp)]
      exact ih map

/-! ## What the client does with a block -/

section

variable {crypto : Crypto} {client : ClientBlockchain} {data : Bytes} {block : Block} {chain' : Blockchain}

theorem tryApplyBlock_refused (hrefused : ∀ block chain', fromTlSerialized data = .ok block →
    client.blockchain.tryApplyBlock crypto block options ≠ .ok chain') :
    (client.tryApplyBlock crypto data).1 = client ∧ ∀ changes, (client.tryApplyBlock crypto data).2 ≠ .ok changes := by
  rw [tryApplyBlock]
  split
  next => exact ⟨rfl, fun _ h => nomatch h⟩
  next => exact ⟨rfl, fun _ h => nomatch h⟩
  next block hblock =>
    split
    next => exact ⟨rfl, fun _ h => nomatch h⟩
    next => exact ⟨rfl, fun _ h => nomatch h⟩
    next chain' hchain => exact absurd hchain (hrefused block chain' hblock)

section

variable (hblock : fromTlSerialized data = .ok block)
    (hchain : client.blockchain.tryApplyBlock crypto block options = .ok chain')

include hblock hchain

/-- A block that the chain accepts advances it, whatever the keys. -/
theorem tryApplyBlock_applied : (client.tryApplyBlock crypto data).1.blockchain = chain' ∧
      (client.tryApplyBlock crypto data).2 =
        ((recordValues block.height.toInt client.map block.changes).2 >>= fun _ => pure block.changes) := by
  simp [tryApplyBlock, hblock, hchain]

theorem tryApplyBlock_valid (hkeys : ValidKeys block.changes) :
    (client.tryApplyBlock crypto data).2 = .ok block.changes := by
  rw [(tryApplyBlock_applied hblock hchain).2]
  rcases recordValues_cases block.height.toInt client.map block.changes with ⟨-, hok⟩ | ⟨hbad, -⟩
  · rw [hok]
    rfl
  · exact absurd hkeys hbad

theorem tryApplyBlock_invalid (hkeys : ¬ ValidKeys block.changes) :
    ∃ e, (client.tryApplyBlock crypto data).2 = .error e := by
  rw [(tryApplyBlock_applied hblock hchain).2]
  rcases recordValues_cases block.height.toInt client.map block.changes with ⟨hgood, -⟩ | ⟨-, e, he⟩
  · exact absurd hgood hkeys
  · rw [he]
    exact ⟨e, rfl⟩

end

/-! ## The client follows the full check -/

/-- The values of a block that passed the full check are in the trie, under keys. -/
theorem validKeys_of_apply {full : ValidateOptions} (hfull : full.validateStateHash = true) {s s' : State}
    (h : s.apply crypto block full = .ok s') : ValidKeys block.changes := by
  intro key value hmem
  obtain ⟨s0, s1, publicKey, happ⟩ := apply_ok_iff.mp h
  obtain ⟨pre, post, hsplit⟩ := List.append_of_mem hmem
  obtain ⟨t, t', -, hstep⟩ := happ.step hsplit
  simp only [State.ChangeStep, hfull, if_true] at hstep
  obtain ⟨-, kv, hset, -⟩ := hstep
  rw [KeyValueState.setValue, bind_ok_iff] at hset
  obtain ⟨bits, hbits, -⟩ := hset
  rw [keyToBitstring, bind_ok_iff] at hbits
  obtain ⟨k, hk, -⟩ := hbits
  exact ⟨k, hk⟩

/-- What the client makes of a block that passed the full check. -/
theorem tryApplyBlock_follows {full full' : Blockchain} {limit : BitVec 32} (hagree : full.Agree client.blockchain)
    (haccept : full.tryApplyBlock crypto block
      { validateStateHash := true, validateSignature := true, permissions := limit } = .ok full')
    (hdata : fromTlSerialized data = .ok block) :
    client.tryApplyBlock crypto data =
      (⟨{ full' with state := full'.state.setValueFast full'.state.keyValueState.getHash },
        (recordValues block.height.toInt client.map block.changes).1⟩, .ok block.changes) := by
  have haccepts := Blockchain.tryApplyBlock_ok_iff.mp haccept
  -- the full chain in the mode of the client, and then the chain of the client
  have hstate : full.state.apply crypto block options =
      .ok (full'.state.setValueFast full'.state.keyValueState.getHash) := by
    refine apply_client ?_ ?_ ?_ ?_ haccepts.state <;> rfl
  let next : Blockchain := { full' with state := full'.state.setValueFast full'.state.keyValueState.getHash }
  have hnext : client.blockchain.tryApplyBlock crypto block options = .ok next := by
    rw [← hagree.tryApplyBlock_eq rfl block]
    exact Blockchain.tryApplyBlock_ok_iff.mpr { haccepts with state := hstate }
  have hvalid := tryApplyBlock_valid hdata hnext (validKeys_of_apply rfl haccepts.state)
  grind [tryApplyBlock]

/-- **The client accepts what the full check accepts.** The block has bytes and
reads back from them, the client accepts it in any form that reads as it, and
afterwards the two chains agree again. -/
theorem follows_full_check {full full' : Blockchain} {limit : BitVec 32} (hagree : full.Agree client.blockchain)
    (haccept : full.tryApplyBlock crypto block
      { validateStateHash := true, validateSignature := true, permissions := limit } = .ok full') :
    (∃ data, block.toTlSerialized = .ok data ∧ fromTlSerialized data = .ok block) ∧
      ∀ data, fromTlSerialized data = .ok block →
        (client.tryApplyBlock crypto data).2 = .ok block.changes ∧
          full'.Agree (client.tryApplyBlock crypto data).1.blockchain := by
  have haccepts := Blockchain.tryApplyBlock_ok_iff.mp haccept
  obtain ⟨s0, s1, publicKey, happ⟩ := apply_ok_iff.mp haccepts.state
  constructor
  · have hverified := happ.signature
    obtain ⟨data, hdata⟩ := toTlSerialized_of_verifySignature hverified
    exact ⟨data, hdata, fromTlSerialized_toTlSerialized happ.readable hdata⟩
  · intro data hdata
    rw [tryApplyBlock_follows hagree haccept hdata]
    exact ⟨rfl, rfl, rfl, rfl, rfl, rfl⟩

end

/-- The client that joined the chain before its first block. -/
def sampleNew : ClientBlockchain := { blockchain := sampleEmpty }

theorem follows_full_check_sample :
    (∃ data, sampleFirst.toTlSerialized = .ok data ∧ fromTlSerialized data = .ok sampleFirst) ∧
      ∀ data, fromTlSerialized data = .ok sampleFirst →
        (sampleNew.tryApplyBlock sampleCrypto data).2 = .ok sampleFirst.changes ∧
          sampleChain.Agree (sampleNew.tryApplyBlock sampleCrypto data).1.blockchain :=
  follows_full_check ⟨rfl, rfl, rfl, rfl, rfl⟩ tryApplyBlock_sampleFirst

/-! ## Errors -/

/-- Nothing of the client is different: neither its chain nor the values it
recorded. -/
structure Same (a b : ClientBlockchain) : Prop where
  chain : a.blockchain.Agree b.blockchain
  map : a.map = b.map

theorem Same.refl (client : ClientBlockchain) : client.Same client := ⟨⟨rfl, rfl, rfl, rfl, rfl⟩, rfl⟩

/-- **Errors and the client.** A block that is answered with an error leaves the
client as it was, if and only if the keys of its values are valid, should the
chain accept it. -/
theorem error_keeps_iff (crypto : Crypto) (client : ClientBlockchain) (data : Bytes) :
    (∀ e, (client.tryApplyBlock crypto data).2 = .error e → client.Same (client.tryApplyBlock crypto data).1) ↔
      ∀ block chain', fromTlSerialized data = .ok block →
        client.blockchain.tryApplyBlock crypto block options = .ok chain' → ValidKeys block.changes := by
  constructor
  · intro hkeeps block chain' hblock hchain
    by_contra hkeys
    obtain ⟨e, he⟩ := tryApplyBlock_invalid hblock hchain hkeys
    -- the chain is one block higher
    have hsame := (hkeeps e he).chain.height
    have hnext := (Blockchain.tryApplyBlock_ok_iff.mp hchain).getHeight
    rw [(tryApplyBlock_applied hblock hchain).1] at hsame
    omega
  · intro hvalid e he
    by_cases haccepted : ∃ block chain', fromTlSerialized data = .ok block ∧
        client.blockchain.tryApplyBlock crypto block options = .ok chain'
    · obtain ⟨block, chain', hblock, hchain⟩ := haccepted
      rw [tryApplyBlock_valid hblock hchain (hvalid block chain' hblock hchain)] at he
      cases he
    · have hrefused : (client.tryApplyBlock crypto data).1 = client :=
        (tryApplyBlock_refused fun block chain' hblock hchain => haccepted ⟨block, chain', hblock, hchain⟩).1
      rw [hrefused]
      exact Same.refl client

/-- A client that knows the first block. -/
def sampleClient : ClientBlockchain := { blockchain := sampleChain }

/-- The second participant writes a value, under a key of one byte. -/
def sampleShortKey : Block := sampleSign 6
  { prevBlockHash := sampleChain.lastBlockHash
    changes := [.setValue [1] [8]]
    height := 1
    stateProof := { kvHash := 77, groupState := some sampleGroup, sharedKey := some sampleSharedKey }
    signaturePublicKey := some 6 }

def sampleShortKeyData : Bytes := sampleShortKey.toTlSerialized.get (by decide +kernel)

/-- A block with such a key is answered with an error, and applied. -/
theorem error_advances_client :
    (sampleClient.tryApplyBlock sampleCrypto sampleShortKeyData).2 = .error "Invalid key size" ∧
      sampleClient.blockchain.getHeight = 0 ∧
      (sampleClient.tryApplyBlock sampleCrypto sampleShortKeyData).1.blockchain.getHeight = 1 ∧
      (sampleClient.tryApplyBlock sampleCrypto sampleShortKeyData).1.blockchain.state.keyValueState.getHash = 77 := by
  decide +kernel

/-! ## Permissions -/

/-- The change is permitted to the signer by the group. -/
def Permits (g : GroupState) (publicKey : PublicKey) : Change → Prop
  | .noop _ => True
  | .setValue _ _ => g.rights publicKey &&& GroupParticipantFlags.setValue ≠ 0
  | .setGroupState g' => g.MayBecome g' (g.getPermissions publicKey allPermissions) ∧
      (g'.getPermissions publicKey allPermissions).mayChangeSharedKey = true
  | .setSharedKey _ => (g.getPermissions publicKey allPermissions).mayChangeSharedKey = true

section

variable {crypto : Crypto}

/-- What the chain of the client accepts after its first block. -/
theorem accepted_changes {chain chain' : Blockchain} {block : Block} (hheight : 0 ≤ chain.getHeight)
    (h : chain.tryApplyBlock crypto block options = .ok chain') :
    ∃ publicKey, signer chain.state.groupState block = some publicKey ∧
      ∀ pre change post, block.changes = pre ++ change :: post →
        ∃ t t', t.groupState = groupAfter chain.state.groupState pre ∧
          State.ChangeStep crypto publicKey options t t' change := by
  obtain ⟨s1, publicKey, happ⟩ := (Blockchain.tryApplyBlock_ok_iff.mp h).applied hheight
  exact ⟨publicKey, happ.signer, fun pre change post hsplit => happ.step hsplit⟩

/-- **Permissions and the client.** The changes of an accepted block are all
permitted to its signer, each by the group just before it, if and only if those
that write values are: the client checks all the others. -/
theorem permits_iff {client : ClientBlockchain} {data : Bytes} {block : Block} {changes : List Change}
    (hheight : 0 ≤ client.blockchain.getHeight) (hblock : fromTlSerialized data = .ok block)
    (haccept : (client.tryApplyBlock crypto data).2 = .ok changes) :
    ∃ publicKey, signer client.blockchain.state.groupState block = some publicKey ∧
      ((∀ pre change post, block.changes = pre ++ change :: post →
          Permits (groupAfter client.blockchain.state.groupState pre) publicKey change) ↔
        ∀ pre key value post, block.changes = pre ++ .setValue key value :: post →
          (groupAfter client.blockchain.state.groupState pre).rights publicKey &&&
            GroupParticipantFlags.setValue ≠ 0) := by
  have haccepted : ∃ chain', client.blockchain.tryApplyBlock crypto block options = .ok chain' := by
    by_contra hnone
    refine (tryApplyBlock_refused fun block' chain' hblock' hchain => ?_).2 changes haccept
    rw [hblock] at hblock'
    cases hblock'
    exact hnone ⟨chain', hchain⟩
  obtain ⟨chain', hchain⟩ := haccepted
  obtain ⟨publicKey, hsigner, hsteps⟩ := accepted_changes hheight hchain
  refine ⟨publicKey, hsigner, fun h pre key value post hsplit => h pre _ post hsplit, ?_⟩
  intro hvalues pre change post hsplit
  obtain ⟨t, t', hgroup, hstep⟩ := hsteps pre change post hsplit
  rw [← hgroup]
  cases change with
  | noop nonce => trivial
  | setValue key value =>
    rw [hgroup]
    exact hvalues pre key value post hsplit
  | setGroupState g => exact ⟨hstep.2.1, hstep.2.2.1⟩
  | setSharedKey k => exact hstep.2.1

end

def sampleSecondData : Bytes := sampleSecond.toTlSerialized.get (by decide +kernel)

theorem permits_iff_sample :
    ∃ publicKey, signer sampleClient.blockchain.state.groupState sampleSecond = some publicKey ∧
      ((∀ pre change post, sampleSecond.changes = pre ++ change :: post →
          Permits (groupAfter sampleClient.blockchain.state.groupState pre) publicKey change) ↔
        ∀ pre key value post, sampleSecond.changes = pre ++ .setValue key value :: post →
          (groupAfter sampleClient.blockchain.state.groupState pre).rights publicKey &&&
            GroupParticipantFlags.setValue ≠ 0) := by
  have hheight : 0 ≤ sampleClient.blockchain.getHeight := by decide +kernel
  have hblock : fromTlSerialized sampleSecondData = .ok sampleSecond := by decide +kernel
  have haccept : (sampleClient.tryApplyBlock sampleCrypto sampleSecondData).2 = .ok sampleSecond.changes := by
    decide +kernel
  exact permits_iff hheight hblock haccept

/-- Somebody who is not in the group, which grants no writing to others. -/
def sampleStranger : Block := sampleSign 8
  { prevBlockHash := sampleChain.lastBlockHash
    changes := [.setValue (sampleKey 1 2).val [9]]
    height := 1
    stateProof := { kvHash := 77, groupState := some sampleGroup, sharedKey := some sampleSharedKey }
    signaturePublicKey := some 8 }

def sampleStrangerData : Bytes := sampleStranger.toTlSerialized.get (by decide +kernel)

/-- The full check refuses the block of the stranger, and the client accepts it. -/
theorem stranger_writes :
    0 ≤ sampleClient.blockchain.getHeight ∧ fromTlSerialized sampleStrangerData = .ok sampleStranger ∧
      (sampleClient.tryApplyBlock sampleCrypto sampleStrangerData).2 = .ok [.setValue (sampleKey 1 2).val [9]] ∧
      signer sampleClient.blockchain.state.groupState sampleStranger = some 8 ∧
      ¬ Permits sampleClient.blockchain.state.groupState 8 (.setValue (sampleKey 1 2).val [9]) ∧
      sampleChain.tryApplyBlock sampleCrypto sampleStranger { validateStateHash := true } =
        .error (ErrorCode.noPermissions.text "Can't set value") := by
  refine ⟨by decide +kernel, by decide +kernel, by decide +kernel, by decide +kernel, ?_, by decide +kernel⟩
  rw [Permits, not_not]
  decide +kernel

end ClientBlockchain

end Tdlib.E2e
