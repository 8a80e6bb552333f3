/-
The two modes of checking a block, and joining a chain at a block.

Without `validate_state_hash` a chain never looks at its values, so that two
chains which agree on everything but the trie treat a block alike. A block that
the full check accepts is accepted without it. A chain that is made from its
last block alone agrees with the chain that applied all of them. The hash of
the last block fixes the history (`same_history`).
-/
import Mathlib.Data.List.Induction
import Tdlib.E2e.BlockCodec
import Tdlib.E2e.ChainSteps
import Tdlib.E2e.TrieMap

namespace Tdlib.E2e

open Outcome Blockchain

open GroupParticipantFlags (allPermissions)

namespace State

/-- The same state over other values. -/
def withKv (s : State) (kv : KeyValueState) : State := { s with keyValueState := kv }

/-! ## The mode of the client -/

section

variable {crypto : Crypto} {publicKey : PublicKey} {options : ValidateOptions}

theorem setGroupState_withKv (s : State) (kv : KeyValueState) (g : GroupState) (permissions : Permissions) :
    Outcome.Rel (fun a b => b = a.withKv kv) (s.setGroupState g permissions)
      ((s.withKv kv).setGroupState g permissions) := by
  refine .bind (.refl _) fun _ _ _ => ?_
  refine .bind (.refl _) fun _ _ _ => ?_
  refine .bind (.refl _) fun _ _ _ => ?_
  refine .bind (.refl _) fun needed _ h => ?_
  subst h
  refine .bind (.refl _) fun _ _ _ => ?_
  exact rfl

theorem applyChange_withKv (hmode : options.validateStateHash = false) (s : State) (kv : KeyValueState)
    (change : Change) : Outcome.Rel (fun a b => b = a.withKv kv) (s.applyChange crypto publicKey options change)
      ((s.withKv kv).applyChange crypto publicKey options change) := by
  cases change with
  | noop nonce => exact rfl
  | setValue key value =>
    simp only [applyChange, hmode, Bool.false_eq_true, if_false]
    exact rfl
  | setGroupState g =>
    refine .bind (setGroupState_withKv { s with hasGroupStateChange := true } kv g _) fun a b h => ?_
    subst h
    refine .bind (.refl _) fun _ _ _ => ?_
    exact rfl
  | setSharedKey k =>
    refine .bind (.refl _) fun _ _ _ => ?_
    refine .bind (.refl _) fun _ _ _ => ?_
    refine .bind (.refl _) fun _ _ _ => ?_
    exact rfl

/-- What a block makes of a state does not depend on the values, nor on what the
block before it changed. -/
theorem apply_congr (hmode : options.validateStateHash = false) {a b : State} (hgroup : a.groupState = b.groupState)
    (hkey : a.sharedKey = b.sharedKey) (block : Block) :
    a.apply crypto block options = b.apply crypto block options := by
  apply Outcome.Rel.eq
  have hbefore : Outcome.Rel (fun x y => y.fresh = x.fresh.withKv b.keyValueState)
      (a.before block) (b.before block) := by
    rw [before, before, hgroup]
    split
    · refine .bind (.refl _) fun _ _ _ => ?_
      simp [Outcome.Rel, fresh, withKv, hkey]
    · simp [Outcome.Rel, fresh, withKv, hgroup, hkey]
  refine .bind hbefore fun x y hxy => ?_
  have hsame : y.fresh.groupState = x.fresh.groupState := by rw [hxy]; rfl
  change y.groupState = x.groupState at hsame
  rw [hsame]
  split
  next => exact rfl
  next publicKey hsigner =>
    refine .bind (.refl _) fun _ _ _ => ?_
    have hrun : Outcome.Rel (fun x y => y = x.withKv b.keyValueState)
        (runChanges crypto publicKey options x.fresh block.changes)
        (runChanges crypto publicKey options y.fresh block.changes) := by
      refine Outcome.Rel.foldlM (fun u v change huv => ?_) _ hxy
      subst huv
      exact applyChange_withKv hmode u _ change
    refine .bind hrun fun u v huv => ?_
    -- the root hash comes from the block, whatever the values were
    have hfinish : v.finish options block = u.finish options block := by
      rw [huv, finish, finish, hmode]
      rfl
    rw [hfinish]
    exact .refl _

end

/-! ## From the full check to the check of the client -/

section

variable {crypto : Crypto} {publicKey : PublicKey} {full client : ValidateOptions}

section

variable (hfull : full.validateStateHash = true) (hclient : client.validateStateHash = false)
    (hall : client.permissions = allPermissions)

include hfull hclient hall

variable {s s' : State}

/-- The client checks less of a change, and limits the permissions less. -/
theorem ChangeStep.forClient {change : Change} (h : ChangeStep crypto publicKey full s s' change) (kv : KeyValueState) :
    ChangeStep crypto publicKey client (s.withKv kv) (s'.withKv kv) change := by
  have hle : ∀ g : GroupState,
      (g.getPermissions publicKey full.permissions).Le (g.getPermissions publicKey client.permissions) := by
    intro g
    rw [hall]
    exact getPermissions_le_all g publicKey full.permissions
  cases change with
  | noop nonce =>
    obtain rfl : s' = s := h
    exact rfl
  | setValue key value =>
    simp only [ChangeStep, hfull, if_true] at h
    obtain ⟨-, kv', -, rfl⟩ := h
    simp only [ChangeStep, hclient, Bool.false_eq_true, if_false]
    rfl
  | setGroupState g =>
    obtain ⟨hvalid, hbecome, hmay, rfl⟩ := h
    exact ⟨hvalid, hbecome.mono (hle _), (hle _).mayChangeSharedKey hmay, rfl⟩
  | setSharedKey k =>
    obtain ⟨hempty, hmay, hvalid, rfl⟩ := h
    exact ⟨hempty, (hle _).mayChangeSharedKey hmay, hvalid, rfl⟩

theorem runChanges_client (kv : KeyValueState) {changes : List Change}
    (h : runChanges crypto publicKey full s changes = .ok s') :
    runChanges crypto publicKey client (s.withKv kv) changes = .ok (s'.withKv kv) := by
  induction changes generalizing s with
  | nil =>
    cases h
    rfl
  | cons change changes ih =>
    obtain ⟨s1, hstep, hrest⟩ := runChanges_cons.mp h
    exact runChanges_cons.mpr ⟨s1.withKv kv, hstep.forClient hfull hclient hall kv, ih hrest⟩

/-- A block the full check accepts is accepted by the client, with the root hash
that the full check computed. -/
theorem apply_client (hsig : full.validateSignature = client.validateSignature) {block : Block}
    (h : s.apply crypto block full = .ok s') :
    s.apply crypto block client = .ok (s'.setValueFast s'.keyValueState.getHash) := by
  obtain ⟨s0, s1, publicKey, happ⟩ := apply_ok_iff.mp h
  have hs' : s' = s1 := by rw [happ.finish, finish, if_pos hfull]
  subst hs'
  have hrun : runChanges crypto publicKey client s0.fresh block.changes =
      .ok (s'.withKv s0.keyValueState) := runChanges_client hfull hclient hall s0.keyValueState happ.changes
  have hfinish : (s'.withKv s0.keyValueState).finish client block = s'.setValueFast s'.keyValueState.getHash := by
    rw [finish, hclient, happ.proven.kvHash]
    rfl
  have hsignature : checkSignature crypto publicKey client block = .ok () := by
    have hcheck := happ.signature
    rw [checkSignature, hsig] at hcheck
    exact hcheck
  have hproven : (s'.setValueFast s'.keyValueState.getHash).Proven block.stateProof :=
    { happ.proven with kvHash := happ.proven.kvHash }
  exact apply_ok_iff.mpr ⟨s0, _, publicKey, happ.before, happ.signer, hsignature, hrun, hfinish.symm, hproven⟩

end

end

/-! ## Joining at a block -/

/-- What the changes say of the state is what they make of it. -/
structure Outlines (o : Outline) (s : State) : Prop where
  hasSetValue : o.hasSetValue = s.hasSetValue
  hasGroupStateChange : o.hasGroupStateChange = s.hasGroupStateChange
  hasSharedKeyChange : o.hasSharedKeyChange = s.hasSharedKeyChange
  groupState : s.hasGroupStateChange = true → o.groupState = some s.groupState
  sharedKey : (s.hasGroupStateChange || s.hasSharedKeyChange) = true → o.sharedKey = some s.sharedKey

section

variable {crypto : Crypto} {publicKey : PublicKey} {options : ValidateOptions}
variable {o : Outline} {s s' : State}

theorem Outlines.step {change : Change} (h : Outlines o s)
    (hstep : ChangeStep crypto publicKey options s s' change) : Outlines (o.add change) s' := by
  cases change with
  | noop nonce =>
    obtain rfl : s' = s := hstep
    exact h
  | setValue key value =>
    obtain ⟨kv, rfl⟩ := hstep.setValue_eq
    exact ⟨rfl, h.hasGroupStateChange, h.hasSharedKeyChange, h.groupState, h.sharedKey⟩
  | setGroupState g =>
    obtain ⟨-, -, -, rfl⟩ := hstep
    exact ⟨h.hasSetValue, rfl, h.hasSharedKeyChange, fun _ => rfl, fun _ => rfl⟩
  | setSharedKey k =>
    obtain ⟨-, -, -, rfl⟩ := hstep
    exact ⟨h.hasSetValue, h.hasGroupStateChange, rfl, h.groupState, fun _ => rfl⟩

theorem Outlines.run {changes : List Change} (h : Outlines o s)
    (hrun : runChanges crypto publicKey options s changes = .ok s') : Outlines (changes.foldl Outline.add o) s' := by
  induction changes generalizing o s with
  | nil =>
    cases hrun
    exact h
  | cons change changes ih =>
    obtain ⟨s1, hstep, hrest⟩ := runChanges_cons.mp hrun
    exact ih (h.step hstep) hrest

theorem Outlines.finish (h : Outlines o s) (options : ValidateOptions) (block : Block) :
    Outlines o (s.finish options block) := by
  rw [State.finish]
  split
  · exact h
  · exact { h with }

theorem createFromBlock_of_apply {block : Block} (h : s.apply crypto block options = .ok s') :
    createFromBlock crypto block none = .ok (s'.withKv (.createFromHash block.stateProof.kvHash)) := by
  obtain ⟨s0, s1, publicKey, happ⟩ := apply_ok_iff.mp h
  have hfresh : Outlines { groupState := if block.height = 0 then some firstGroupState else none } s0.fresh :=
    ⟨rfl, rfl, rfl, (fun h => nomatch h), (fun h => nomatch h)⟩
  have houtline := (hfresh.run happ.changes).finish options block
  rw [← happ.finish] at houtline
  have hproven := happ.proven
  rw [createFromBlock]
  simp only [keyValueStateFrom, pure_def, ok_bind]
  generalize block.changes.foldl Outline.add
    { groupState := if block.height = 0 then some firstGroupState else none } = outline at houtline ⊢
  -- the group state and the shared key are in the changes, or else in the proof
  have hgroup : block.stateProof.groupState.or outline.groupState = some s'.groupState := by
    rw [hproven.groupState]
    split
    next hchange => exact houtline.groupState hchange
    next => rfl
  have hkey : block.stateProof.sharedKey.or outline.sharedKey = some s'.sharedKey := by
    rw [hproven.sharedKey]
    split
    next hchange => exact houtline.sharedKey hchange
    next => rfl
  rw [hgroup, hkey]
  rw [houtline.hasSetValue, houtline.hasGroupStateChange, houtline.hasSharedKeyChange]
  have hproven' : (s'.withKv (.createFromHash block.stateProof.kvHash)).Proven block.stateProof :=
    { hproven with kvHash := rfl }
  have hvalidate : (s'.withKv (.createFromHash block.stateProof.kvHash)).validateState block.stateProof = .ok () :=
    validateState_ok_iff.mpr hproven'
  simp_all [withKv]

end

end State

/-! ## Chains -/

namespace Blockchain

/-- Two chains with the same height, last block, group, shared key and root hash. -/
structure Agree (a b : Blockchain) : Prop where
  height : a.getHeight = b.getHeight
  lastBlockHash : a.lastBlockHash = b.lastBlockHash
  groupState : a.state.groupState = b.state.groupState
  sharedKey : a.state.sharedKey = b.state.sharedKey
  kvHash : a.state.keyValueState.getHash = b.state.keyValueState.getHash

section

variable {crypto : Crypto}
variable {options : ValidateOptions} {chain chain' : Blockchain} {block : Block}

/-- In the mode of the client, chains that agree answer a block alike. -/
theorem Agree.tryApplyBlock_eq {a b : Blockchain} (h : a.Agree b)
    (hmode : options.validateStateHash = false) (block : Block) :
    a.tryApplyBlock crypto block options = b.tryApplyBlock crypto block options := by
  simp [tryApplyBlock, h.height, h.lastBlockHash, State.apply_congr hmode h.groupState h.sharedKey block]

theorem createEmpty_height (h : createEmpty crypto = .ok chain) : chain.getHeight = -1 := by
  rw [createEmpty, bind_ok_iff] at h
  obtain ⟨state, -, h⟩ := h
  cases h
  rfl

theorem run_height {blocks : List (Block × ValidateOptions)} (h : -1 ≤ chain.getHeight)
    (hrun : chain.run crypto blocks = .ok chain') : -1 ≤ chain'.getHeight := by
  refine run_inv (I := fun chain => -1 ≤ chain.getHeight) (fun {chain chain' _ _} hI hstep => ?_) h hrun
  have hnext : chain'.getHeight = chain.getHeight + 1 := hstep.getHeight
  omega

theorem run_append {before after : List (Block × ValidateOptions)} : chain.run crypto (before ++ after) = .ok chain' ↔
      ∃ mid, chain.run crypto before = .ok mid ∧ mid.run crypto after = .ok chain' := by
  rw [run, List.foldlM_append, bind_ok_iff]
  rfl

theorem run_singleton :
    chain.run crypto [(block, options)] = .ok chain' ↔ Accepts crypto options block chain chain' := by
  rw [← tryApplyBlock_ok_iff, run, List.foldlM_cons, bind_ok_iff]
  constructor
  · rintro ⟨_, h, hnil⟩
    cases hnil
    exact h
  · intro h
    exact ⟨_, h, rfl⟩

/-- The chain that is made from an accepted block alone, without its values. -/
theorem Accepts.createFromBlock {last : Blockchain}
    (h : Accepts crypto options block last chain) (hheight : -1 ≤ last.getHeight) :
    let joined : Blockchain :=
      ⟨block, chain.lastBlockHash, chain.state.withKv (.createFromHash block.stateProof.kvHash)⟩
    Blockchain.createFromBlock crypto block none = .ok joined ∧ chain.Agree joined := by
  have hnonneg : 0 ≤ block.height.toInt := by
    rw [h.height]
    omega
  obtain ⟨_, _, _, happ⟩ := State.apply_ok_iff.mp h.state
  constructor
  · simp [Blockchain.createFromBlock, hnonneg, ensure_true, ok_bind, h.hash, State.createFromBlock_of_apply h.state]
  · exact
      { height := by rw [Blockchain.getHeight, h.lastBlock]; rfl
        lastBlockHash := rfl
        groupState := rfl
        sharedKey := rfl
        kvHash := happ.proven.kvHash.symm }

/-- **Joining agrees with replaying.** A chain that is made from the last block of
a history agrees with the chain that applied all blocks of it, and in the mode
of the client they answer every further block alike. -/
theorem createFromBlock_replays {empty chain : Blockchain} {blocks : List (Block × ValidateOptions)} {block : Block}
    {options : ValidateOptions} (hempty : createEmpty crypto = .ok empty)
    (hrun : empty.run crypto (blocks ++ [(block, options)]) = .ok chain) :
    ∃ joined, createFromBlock crypto block none = .ok joined ∧ chain.Agree joined ∧
      ∀ (next : Block) (o : ValidateOptions), o.validateStateHash = false →
        chain.tryApplyBlock crypto next o = joined.tryApplyBlock crypto next o := by
  obtain ⟨last, hblocks, hlast⟩ := run_append.mp hrun
  have haccepts := run_singleton.mp hlast
  have hheight : -1 ≤ last.getHeight := run_height (by rw [createEmpty_height hempty]) hblocks
  obtain ⟨hjoined, hagree⟩ := haccepts.createFromBlock hheight
  exact ⟨_, hjoined, hagree, fun next o hmode => hagree.tryApplyBlock_eq hmode next⟩

/-- A block leaves the same state wherever it is accepted, however it was checked. -/
theorem Accepts.agree {options' : ValidateOptions} {last last' : Blockchain}
    (h : Accepts crypto options block last chain) (h' : Accepts crypto options' block last' chain')
    (hheight : -1 ≤ last.getHeight) (hheight' : -1 ≤ last'.getHeight) :
    chain.Agree chain' := by
  obtain ⟨hjoin, hagree⟩ := h.createFromBlock hheight
  obtain ⟨hjoin', hagree'⟩ := h'.createFromBlock hheight'
  rw [ok.inj (hjoin.symm.trans hjoin')] at hagree
  exact ⟨hagree.height.trans hagree'.height.symm, hagree.lastBlockHash.trans hagree'.lastBlockHash.symm,
    hagree.groupState.trans hagree'.groupState.symm, hagree.sharedKey.trans hagree'.sharedKey.symm,
    hagree.kvHash.trans hagree'.kvHash.symm⟩

/-- **One hash, one history.** Two chains that are at the same height with the same hash of
the last block have applied the same blocks, however these were checked, and agree on
the state, unless two of the blocks collide. -/
theorem same_history {empty a b : Blockchain} {as bs : List (Block × ValidateOptions)}
    (hempty : createEmpty crypto = .ok empty) (ha : empty.run crypto as = .ok a) (hb : empty.run crypto bs = .ok b)
    (hheight : a.getHeight = b.getHeight) (hhash : a.lastBlockHash = b.lastBlockHash)
    (inj : ∀ x ∈ as, ∀ y ∈ bs, x.1.calcHash crypto = y.1.calcHash crypto → x.1 = y.1) :
    as.map Prod.fst = bs.map Prod.fst ∧ a.Agree b := by
  have hstart := createEmpty_height hempty
  have habove : ∀ {blocks chain}, empty.run crypto blocks = .ok chain → -1 ≤ chain.getHeight :=
    fun hrun => run_height hstart.ge hrun
  induction as using List.reverseRecOn generalizing a b bs with
  | nil =>
    cases ha
    rcases List.eq_nil_or_concat' bs with rfl | ⟨bs, y, rfl⟩
    · cases hb
      exact ⟨rfl, rfl, rfl, rfl, rfl, rfl⟩
    · obtain ⟨mid, hmid, hlast⟩ := run_append.mp hb
      have hnext := (run_singleton.mp hlast).getHeight
      have hmid := habove hmid
      omega
  | append_singleton as x ih =>
    obtain ⟨mida, hmida, hlasta⟩ := run_append.mp ha
    have hx := run_singleton.mp hlasta
    rcases List.eq_nil_or_concat' bs with rfl | ⟨bs, y, rfl⟩
    · cases hb
      have hnext := hx.getHeight
      have hmid := habove hmida
      omega
    · obtain ⟨midb, hmidb, hlastb⟩ := run_append.mp hb
      have hy := run_singleton.mp hlastb
      -- the last blocks have the same hash, and name the same one before them
      have hxy : x.1 = y.1 := inj x (by simp) y (by simp) (by rw [hx.hash, hy.hash, hhash])
      have hprev : mida.lastBlockHash = midb.lastBlockHash := by
        rw [← hx.prevBlockHash, ← hy.prevBlockHash, hxy]
      have hbefore : mida.getHeight = midb.getHeight := by
        have hnexta := hx.getHeight
        have hnextb := hy.getHeight
        omega
      obtain ⟨hblocks, -⟩ := ih hmida hmidb hbefore hprev fun x hx y hy => inj x (by simp [hx]) y (by simp [hy])
      rw [← hxy] at hy
      exact ⟨by rw [List.map_append, List.map_append, hblocks]; simp [hxy], hx.agree hy (habove hmida) (habove hmidb)⟩

end

end Blockchain

/-! A small chain: the first block makes a group of two and gives it a shared
key and a value, in the second one the other participant writes a value. -/

def sampleCrypto : Crypto where
  sha256 := sampleHash
  verify publicKey data signature :=
    if signature = publicKey.setWidth 512 + (sampleHash data).setWidth 512 then none else some "Wrong signature"

/-- The block with the signature that `sampleCrypto` asks for. -/
def sampleSign (publicKey : PublicKey) (block : Block) : Block :=
  match block.toTlSerialized with
  | .ok data => { block with signature := publicKey.setWidth 512 + (sampleHash data).setWidth 512 }
  | _ => block

def sampleEmpty : Blockchain := (createEmpty sampleCrypto).get (by decide +kernel)

theorem createEmpty_sample : createEmpty sampleCrypto = .ok sampleEmpty := eq_ok_get _ _

def sampleGroup : GroupState :=
  { participants := [{ userId := 1, flags := 7, publicKey := 5 }, { userId := 2, flags := 4, publicKey := 6 }]
    externalPermissions := 1 }

def sampleSharedKey : GroupSharedKey :=
  { ek := 9, encryptedSharedKey := [1, 2], destUserId := [2, 1], destHeader := [[3], [4]] }

def sampleValues : KeyValueState :=
  (sampleEmpty.state.keyValueState.setValue sampleCrypto (sampleKey 1 2).val [8]).get (by decide +kernel)

def sampleFirst : Block := sampleSign 5
  { changes := [.setGroupState sampleGroup, .setSharedKey sampleSharedKey, .setValue (sampleKey 1 2).val [8]]
    height := 0
    stateProof := { kvHash := sampleValues.getHash }
    signaturePublicKey := some 5 }

def sampleChain : Blockchain := (sampleEmpty.tryApplyBlock sampleCrypto sampleFirst {}).get (by decide +kernel)

theorem tryApplyBlock_sampleFirst : sampleEmpty.tryApplyBlock sampleCrypto sampleFirst {} = .ok sampleChain :=
  eq_ok_get _ _

def sampleSecond : Block := sampleSign 6
  { prevBlockHash := sampleChain.lastBlockHash
    changes := [.noop 3, .setValue (sampleKey 1 200).val []]
    height := 1
    stateProof := { kvHash := 77, groupState := some sampleGroup, sharedKey := some sampleSharedKey }
    signaturePublicKey := some 6 }

/-- The full check of the first block, the check of the client for the second. -/
def sampleHistory : List (Block × ValidateOptions) :=
  [(sampleFirst, { validateStateHash := true })] ++ [(sampleSecond, ClientBlockchain.options)]

def sampleReplayed : Blockchain := (sampleEmpty.run sampleCrypto sampleHistory).get (by decide +kernel)

theorem run_sampleHistory : sampleEmpty.run sampleCrypto sampleHistory = .ok sampleReplayed := eq_ok_get _ _

theorem Blockchain.createFromBlock_replays_sample :
    ∃ joined, createFromBlock sampleCrypto sampleSecond none = .ok joined ∧ sampleReplayed.Agree joined ∧
      ∀ (next : Block) (o : ValidateOptions), o.validateStateHash = false →
        sampleReplayed.tryApplyBlock sampleCrypto next o = joined.tryApplyBlock sampleCrypto next o := by
  have hrun := run_sampleHistory
  exact createFromBlock_replays createEmpty_sample hrun

theorem Blockchain.same_history_sample :
    ∃ other, sampleEmpty.run sampleCrypto (sampleHistory.map fun b => (b.1, ClientBlockchain.options)) = .ok other ∧
      sampleReplayed.Agree other := by
  have hrun : sampleEmpty.run sampleCrypto (sampleHistory.map fun b => (b.1, ClientBlockchain.options)) = .ok _ :=
    eq_ok_get _ (by decide +kernel)
  exact ⟨_, hrun, (same_history createEmpty_sample run_sampleHistory hrun (by decide +kernel) (by decide +kernel)
    (by decide +kernel)).2⟩

end Tdlib.E2e
