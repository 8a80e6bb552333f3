/-
What a block can do to a chain.

Each function of the chain that can fail has one lemma that says when it
succeeds, and with what. The changes of a block are one run, and every property
of a block is shown for a change first.
-/
import Tdlib.E2e.GroupRules

namespace Tdlib.E2e

open Outcome

open GroupParticipantFlags (allPermissions)

namespace State

/-! ## One change -/

/-- What a change makes of the state, when it is accepted. -/
def ChangeStep (crypto : Crypto) (publicKey : PublicKey) (options : ValidateOptions) (s s' : State) : Change → Prop
  | .noop _ => s' = s
  | .setValue key value =>
    if options.validateStateHash then
      (s.groupState.getPermissions publicKey options.permissions).maySetValue = true ∧
        ∃ kv, s.keyValueState.setValue crypto key value = .ok kv ∧
          s' = { s with hasSetValue := true, keyValueState := kv }
    else s' = { s with hasSetValue := true }
  | .setGroupState g =>
    g.Valid ∧ s.groupState.MayBecome g (s.groupState.getPermissions publicKey options.permissions) ∧
      (g.getPermissions publicKey options.permissions).mayChangeSharedKey = true ∧
      s' = { s with hasGroupStateChange := true, groupState := g, sharedKey := .emptySharedKey }
  | .setSharedKey k =>
    s.sharedKey = .emptySharedKey ∧
      (s.groupState.getPermissions publicKey options.permissions).mayChangeSharedKey = true ∧
      validateSharedKey k s.groupState = .ok () ∧ s' = { s with hasSharedKeyChange := true, sharedKey := k }

section

variable {crypto : Crypto} {publicKey : PublicKey} {options : ValidateOptions} {s s' : State}
variable {change : Change} {changes : List Change}

theorem applyChange_ok_iff :
    s.applyChange crypto publicKey options change = .ok s' ↔ ChangeStep crypto publicKey options s s' change := by
  cases change with
  | noop nonce => simp only [applyChange, ChangeStep, pure_def, ok.injEq, eq_comm]
  | setValue key value =>
    simp only [applyChange, ChangeStep]
    split
    · simp [setValue, bind_ok_iff, ensure_ok_iff, exists_const, pure_def, ok.injEq, eq_comm (a := s')]
    · simp [eq_comm]
  | setGroupState g =>
    simp only [applyChange, ChangeStep, bind_ok_iff, setGroupState_ok_iff, clearSharedKey,
      ensure_ok_iff, exists_const, pure_def, ok.injEq]
    constructor
    · rintro ⟨_, ⟨hvalid, hbecome, rfl⟩, hmay, rfl⟩
      exact ⟨hvalid, hbecome, hmay, rfl⟩
    · rintro ⟨hvalid, hbecome, hmay, rfl⟩
      exact ⟨_, ⟨hvalid, hbecome, rfl⟩, hmay, rfl⟩
  | setSharedKey k =>
    simp only [applyChange, ChangeStep, setSharedKey, bind_ok_iff, ensure_ok_iff, exists_const,
      pure_def, ok.injEq, eq_comm (a := s')]
    constructor
    · rintro ⟨hempty, hmay, _, hvalid, hs'⟩
      exact ⟨hempty, hmay, hvalid, hs'⟩
    · rintro ⟨hempty, hmay, hvalid, hs'⟩
      exact ⟨hempty, hmay, (), hvalid, hs'⟩

theorem ChangeStep.setValue_eq {key value : Bytes}
    (h : ChangeStep crypto publicKey options s s' (.setValue key value)) :
    ∃ kv, s' = { s with hasSetValue := true, keyValueState := kv } := by
  simp only [ChangeStep] at h
  split at h
  · obtain ⟨-, kv, -, hs'⟩ := h
    exact ⟨kv, hs'⟩
  · exact ⟨s.keyValueState, h⟩

/-! ## The changes of a block -/

/-- The changes, from a state that is ready for them. -/
abbrev runChanges (crypto : Crypto) (publicKey : PublicKey) (options : ValidateOptions) (s : State)
    (changes : List Change) : Outcome State :=
  changes.foldlM (fun s change => s.applyChange crypto publicKey options change) s

/-- No change is made yet. -/
abbrev fresh (s : State) : State :=
  { s with hasSetValue := false, hasSharedKeyChange := false, hasGroupStateChange := false }

theorem applyChanges_eq (s : State) (changes : List Change) :
    s.applyChanges crypto publicKey options changes = runChanges crypto publicKey options s.fresh changes := rfl

theorem runChanges_cons : runChanges crypto publicKey options s (change :: changes) = .ok s' ↔
      ∃ s1, ChangeStep crypto publicKey options s s1 change ∧
        runChanges crypto publicKey options s1 changes = .ok s' := by
  rw [runChanges, List.foldlM_cons, bind_ok_iff]
  exact exists_congr fun s1 => and_congr_left fun _ => applyChange_ok_iff

/-- An accepted block splits at any of its changes. -/
theorem runChanges_split {pre post : List Change}
    (h : runChanges crypto publicKey options s (pre ++ change :: post) = .ok s') :
    ∃ s1 s2, runChanges crypto publicKey options s pre = .ok s1 ∧ ChangeStep crypto publicKey options s1 s2 change ∧
      runChanges crypto publicKey options s2 post = .ok s' := by
  rw [runChanges, List.foldlM_append, bind_ok_iff] at h
  obtain ⟨s1, hpre, h⟩ := h
  obtain ⟨s2, hstep, hpost⟩ := runChanges_cons.mp h
  exact ⟨s1, s2, hpre, hstep, hpost⟩

/-- The group after the changes: the last one they set. -/
def groupAfter (g : GroupState) : List Change → GroupState
  | [] => g
  | .setGroupState g' :: changes => groupAfter g' changes
  | _ :: changes => groupAfter g changes

theorem ChangeStep.groupState (h : ChangeStep crypto publicKey options s s' change) :
    s'.groupState = groupAfter s.groupState [change] := by
  cases change with
  | noop nonce =>
    obtain rfl : s' = s := h
    rfl
  | setValue key value =>
    obtain ⟨kv, rfl⟩ := h.setValue_eq
    rfl
  | setGroupState g =>
    obtain ⟨-, -, -, rfl⟩ := h
    rfl
  | setSharedKey k =>
    obtain ⟨-, -, -, rfl⟩ := h
    rfl

theorem groupAfter_cons (g : GroupState) (change : Change) (changes : List Change) :
    groupAfter g (change :: changes) = groupAfter (groupAfter g [change]) changes := by
  cases change <;> rfl

theorem runChanges_groupState (h : runChanges crypto publicKey options s changes = .ok s') :
    s'.groupState = groupAfter s.groupState changes := by
  induction changes generalizing s with
  | nil =>
    cases h
    rfl
  | cons change changes ih =>
    obtain ⟨s1, hstep, hrest⟩ := runChanges_cons.mp h
    rw [ih hrest, hstep.groupState, ← groupAfter_cons]

end

/-! ## A block -/

/-- What `validate_state` checks. -/
structure Proven (s : State) (proof : StateProof) : Prop where
  kvHash : proof.kvHash = s.keyValueState.getHash
  changed : s.hasGroupStateChange = true ∨ s.hasSetValue = true
  groupState : proof.groupState = if s.hasGroupStateChange then none else some s.groupState
  sharedKey : proof.sharedKey = if s.hasGroupStateChange || s.hasSharedKeyChange then none else some s.sharedKey
  valid : s.groupState.Valid
  sharedKeyValid : validateSharedKey s.sharedKey s.groupState = .ok ()

theorem validateState_ok_iff {s : State} {proof : StateProof} {u : Unit} :
    s.validateState proof = .ok u ↔ s.Proven proof := by
  simp only [validateState, bind_ok_iff, ensure_ok_iff, exists_const, validateGroupState_ok_iff]
  constructor
  · rintro ⟨hkv, hchanged, hg1, hg2, hg3, hk1, hk2, hk3, hvalid, hkey⟩
    refine ⟨hkv, hchanged, ?_, ?_, hvalid, hkey⟩
    · cases hgroup : s.hasGroupStateChange <;> simp_all
    · cases hgroup : s.hasGroupStateChange <;> cases hshared : s.hasSharedKeyChange <;> simp_all
  · rintro ⟨hkv, hchanged, hgroup, hshared, hvalid, hkey⟩
    rw [hgroup, hshared]
    refine ⟨hkv, hchanged, ?_, ?_, ?_, ?_, ?_, ?_, hvalid, hkey⟩ <;>
      cases s.hasGroupStateChange <;> cases s.hasSharedKeyChange <;> simp

section

variable {crypto : Crypto} {options : ValidateOptions} {s s' : State} {block : Block}

/-- How an accepted block gets from one state to the next. -/
structure Applied (crypto : Crypto) (options : ValidateOptions) (block : Block) (s s₀ s₁ s' : State)
    (publicKey : PublicKey) : Prop where
  before : s.before block = .ok s₀
  signer : State.signer s₀.groupState block = some publicKey
  signature : checkSignature crypto publicKey options block = .ok ()
  changes : runChanges crypto publicKey options s₀.fresh block.changes = .ok s₁
  finish : s' = s₁.finish options block
  proven : s'.Proven block.stateProof

theorem apply_ok_iff : s.apply crypto block options = .ok s' ↔
    ∃ s0 s1 publicKey, Applied crypto options block s s0 s1 s' publicKey := by
  rw [apply, bind_ok_iff]
  constructor
  · rintro ⟨s0, hbefore, h⟩
    split at h
    next => cases h
    next publicKey hsigner =>
      simp only [bind_ok_iff, validateState_ok_iff, pure_def, ok.injEq] at h
      obtain ⟨_, hsig, s1, hchanges, _, hproven, rfl⟩ := h
      exact ⟨s0, s1, publicKey, hbefore, hsigner, hsig, hchanges, rfl, hproven⟩
  · rintro ⟨s0, s1, publicKey, hbefore, hsigner, hsig, hchanges, rfl, hproven⟩
    refine ⟨s0, hbefore, ?_⟩
    have hvalidate : (s1.finish options block).validateState block.stateProof = .ok () :=
      validateState_ok_iff.mpr hproven
    simp [hsigner, hsig, applyChanges_eq, hchanges, ok_bind, hvalidate, pure_def]

end

end State

/-! ## A chain -/

namespace Blockchain

section

variable {crypto : Crypto} {options : ValidateOptions} {chain chain' : Blockchain} {block : Block}

/-- How an accepted block gets from one chain to the next. -/
structure Accepts (crypto : Crypto) (options : ValidateOptions) (block : Block) (chain chain' : Blockchain) : Prop where
  height : block.height.toInt = chain.getHeight + 1
  notLast : chain.getHeight ≠ 2 ^ 31 - 1
  prevBlockHash : block.prevBlockHash = chain.lastBlockHash
  state : chain.state.apply crypto block options = .ok chain'.state
  hash : block.calcHash crypto = .ok chain'.lastBlockHash
  lastBlock : chain'.lastBlock = block

theorem tryApplyBlock_ok_iff : chain.tryApplyBlock crypto block options = .ok chain' ↔
    Accepts crypto options block chain chain' := by
  simp only [tryApplyBlock, bind_ok_iff, ensure_ok_iff, exists_const, pure_def,
    ok.injEq]
  constructor
  · rintro ⟨⟨hheight, hlast⟩, hprev, state, hstate, hash, hhash, rfl⟩
    exact ⟨hheight, hlast, hprev, hstate, hhash, rfl⟩
  · rintro ⟨hheight, hlast, hprev, hstate, hhash, hblock⟩
    refine ⟨⟨hheight, hlast⟩, hprev, _, hstate, _, hhash, ?_⟩
    rw [← hblock]

theorem Accepts.getHeight (h : Accepts crypto options block chain chain') : chain'.getHeight = chain.getHeight + 1 := by
  rw [Blockchain.getHeight, h.lastBlock, h.height]

/-- After the first block the changes start from the state of the chain. -/
theorem Accepts.applied (h : Accepts crypto options block chain chain') (hheight : 0 ≤ chain.getHeight) :
    ∃ s1 publicKey, State.Applied crypto options block chain.state chain.state s1 chain'.state publicKey := by
  obtain ⟨s0, s1, publicKey, happ⟩ := State.apply_ok_iff.mp h.state
  have hne : block.height ≠ 0 := by
    intro hzero
    have hnext := h.height
    have htoInt : block.height.toInt = 0 := by rw [hzero]; rfl
    omega
  have hbefore := happ.before
  rw [State.before, if_neg hne] at hbefore
  cases hbefore
  exact ⟨s1, publicKey, happ⟩

end

/-- The chain after blocks, each with the options it is checked with. -/
def run (crypto : Crypto) (chain : Blockchain) (blocks : List (Block × ValidateOptions)) : Outcome Blockchain :=
  blocks.foldlM (fun chain block => chain.tryApplyBlock crypto block.1 block.2) chain

/-- An invariant that every accepted block keeps holds after a run. -/
theorem run_inv {crypto : Crypto} {I : Blockchain → Prop}
    (keeps : ∀ {chain chain' block options}, I chain → Accepts crypto options block chain chain' → I chain')
    {chain chain' : Blockchain} {blocks : List (Block × ValidateOptions)} (h : I chain)
    (hrun : chain.run crypto blocks = .ok chain') : I chain' :=
  foldlM_inv (fun hI hstep => keeps hI (tryApplyBlock_ok_iff.mp hstep)) h hrun

end Blockchain

end Tdlib.E2e
