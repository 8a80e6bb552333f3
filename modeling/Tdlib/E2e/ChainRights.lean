/-
What holds along every chain: the group state and the shared key stay valid and
fit each other, and nobody gets a right that the signer of a block does not have.

A block may change the group several times, each time with the permissions that
the change before it left to the signer. `GroupState.Within` is the invariant
over its changes.
-/
import Tdlib.E2e.ChainModes

namespace Tdlib.E2e

open Outcome

/-! ## The group state and the shared key -/

namespace State

variable {o : Outline} {post : List Change} {crypto : Crypto} {block : Block}

theorem Outline.sharedKey_add {k : GroupSharedKey} (ho : o.sharedKey = some k) (change : Change) :
    ∃ k', (o.add change).sharedKey = some k' ∧ (k' = k ∨ k' = .emptySharedKey ∨ change = .setSharedKey k') := by
  cases change with
  | noop | setValue => exact ⟨k, ho, .inl rfl⟩
  | setGroupState g => exact ⟨_, rfl, .inr (.inl rfl)⟩
  | setSharedKey k' => exact ⟨k', rfl, .inr (.inr rfl)⟩

/-- A shared key that is there stays, or it is cleared or set by a change. -/
theorem Outline.sharedKey_foldl {k k' : GroupSharedKey}
    (ho : o.sharedKey = some k) (h : (post.foldl Outline.add o).sharedKey = some k') :
    k' = k ∨ k' = .emptySharedKey ∨ .setSharedKey k' ∈ post := by
  induction post generalizing o k with
  | nil =>
    rw [List.foldl_nil, ho] at h
    cases h
    exact .inl rfl
  | cons change post ih =>
    obtain ⟨k1, hadd, hk1⟩ := Outline.sharedKey_add ho change
    rcases ih hadd h with rfl | hempty | hmem
    · rcases hk1 with hsame | hempty | rfl
      · exact .inl hsame
      · exact .inr (.inl hempty)
      · exact .inr (.inr (.head _))
    · exact .inr (.inl hempty)
    · exact .inr (.inr (.tail _ hmem))

theorem Outline.hasGroupStateChange_foldl (ho : o.hasGroupStateChange = true) :
    (post.foldl Outline.add o).hasGroupStateChange = true := by
  induction post generalizing o with
  | nil => exact ho
  | cons change post ih =>
    apply ih
    cases change with
    | setGroupState g => rfl
    | noop | setValue | setSharedKey => exact ho

/-- The state after a block is valid, and its shared key is not older than the
last change of the group. -/
structure Sound (s : State) (block : Block) : Prop where
  valid : s.groupState.Valid
  fits : s.sharedKey.Fits s.groupState
  renewed : ∀ pre g post, block.changes = pre ++ .setGroupState g :: post → s.sharedKey ≠ .emptySharedKey →
    .setSharedKey s.sharedKey ∈ post

theorem createFromBlock_sound {snapshot : Option Bytes} {s : State}
    (h : createFromBlock crypto block snapshot = .ok s) : s.Sound block := by
  rw [createFromBlock, bind_ok_iff] at h
  obtain ⟨kv, -, h⟩ := h
  generalize ({ groupState := if block.height = 0 then some firstGroupState else none } : Outline) = o at h
  dsimp only at h
  split at h
  next => cases h
  next g hgroup =>
    split at h
    next => cases h
    next k hkey =>
      simp only [bind_ok_iff, validateState_ok_iff, pure_def, Outcome.ok.injEq] at h
      obtain ⟨_, hproven, rfl⟩ := h
      refine ⟨hproven.valid, validateSharedKey_fits hproven.valid hproven.sharedKeyValid, ?_⟩
      intro pre g' post hsplit hne
      -- with a change of the group the proof has no shared key, so the changes have it
      have hchange : (block.changes.foldl Outline.add o).hasGroupStateChange = true := by
        rw [hsplit, List.foldl_append, List.foldl_cons]
        exact Outline.hasGroupStateChange_foldl rfl
      have hproof := hproven.sharedKey
      simp only [hchange, Bool.true_or, if_true] at hproof
      rw [hproof, Option.none_or, hsplit, List.foldl_append, List.foldl_cons] at hkey
      rcases Outline.sharedKey_foldl rfl hkey with h | h | h
      · exact absurd h hne
      · exact absurd h hne
      · exact h

theorem apply_sound {options : ValidateOptions} {s s' : State}
    (h : s.apply crypto block options = .ok s') : s'.Sound block := by
  have hsound := createFromBlock_sound (createFromBlock_of_apply h)
  exact ⟨hsound.valid, hsound.fits, hsound.renewed⟩

end State

namespace Blockchain

/-- A chain starts empty, or from a block. -/
def Starts (crypto : Crypto) (chain : Blockchain) : Prop :=
  createEmpty crypto = .ok chain ∨ ∃ block snapshot, createFromBlock crypto block snapshot = .ok chain

section

variable {crypto : Crypto}

theorem Starts.sound {chain : Blockchain} (h : Starts crypto chain) : chain.state.Sound chain.lastBlock := by
  rcases h with h | ⟨block, snapshot, h⟩
  · obtain ⟨_, ⟨node, -, rfl⟩, rfl⟩ := h
    refine ⟨⟨by simp, ?_, List.nodup_nil, List.nodup_nil⟩, .inl rfl, fun _ _ _ _ hne => absurd rfl hne⟩
    exact .zero _
  · simp only [createFromBlock, bind_ok_iff, ensure_ok_iff, exists_const, pure_def,
      Outcome.ok.injEq] at h
    obtain ⟨-, hash, -, state, hstate, rfl⟩ := h
    exact State.createFromBlock_sound hstate

theorem run_sound {start chain : Blockchain} {blocks : List (Block × ValidateOptions)} (hstart : Starts crypto start)
    (hrun : start.run crypto blocks = .ok chain) : chain.state.Sound chain.lastBlock := by
  refine run_inv (I := fun chain => chain.state.Sound chain.lastBlock) ?_ hstart.sound hrun
  intro chain chain' block options _ hstep
  rw [hstep.lastBlock]
  exact State.apply_sound hstep.state

/-- **The state of a chain.** Along every chain the participants have distinct
user ids and public keys, and flags that exist. The shared key is empty, or it
is for all participants. After a block that changes the group, a shared key is
one that the block sets after that change. -/
theorem state_sound {start chain : Blockchain} {blocks : List (Block × ValidateOptions)} (hstart : Starts crypto start)
    (hrun : start.run crypto blocks = .ok chain) : (chain.state.groupState.participants.map (·.userId)).Nodup ∧
      (chain.state.groupState.participants.map (·.publicKey)).Nodup ∧
      (∀ p ∈ chain.state.groupState.participants, FlagsIn p.flags GroupParticipantFlags.allPermissions) ∧
      FlagsIn chain.state.groupState.externalPermissions GroupParticipantFlags.allPermissions ∧
      (chain.state.sharedKey = .emptySharedKey ∨
        (chain.state.sharedKey.destUserId.Perm (chain.state.groupState.participants.map (·.userId)) ∧
          chain.state.sharedKey.destHeader.length = chain.state.sharedKey.destUserId.length)) ∧
      ∀ pre g post, chain.lastBlock.changes = pre ++ .setGroupState g :: post →
        chain.state.sharedKey ≠ .emptySharedKey → .setSharedKey chain.state.sharedKey ∈ post := by
  have hsound := run_sound hstart hrun
  exact ⟨hsound.valid.userIds, hsound.valid.publicKeys, hsound.valid.flags, hsound.valid.external, hsound.fits,
    hsound.renewed⟩

end

theorem sampleStart : Starts sampleCrypto sampleEmpty := .inl createEmpty_sample

theorem run_sampleFirst :
    sampleEmpty.run sampleCrypto [(sampleFirst, { validateStateHash := true })] = .ok sampleChain :=
  run_singleton.mpr (tryApplyBlock_ok_iff.mp tryApplyBlock_sampleFirst)

/-- The first block sets a shared key, so that the chain has one. -/
theorem state_sound_sample : sampleChain.state.sharedKey ≠ .emptySharedKey ∧
      (sampleChain.state.sharedKey = .emptySharedKey ∨
        (sampleChain.state.sharedKey.destUserId.Perm (sampleChain.state.groupState.participants.map (·.userId)) ∧
          sampleChain.state.sharedKey.destHeader.length = sampleChain.state.sharedKey.destUserId.length)) := by
  obtain ⟨-, -, -, -, hfits, -⟩ := state_sound sampleStart run_sampleFirst
  exact ⟨by decide +kernel, hfits⟩

end Blockchain

/-! ## Rights -/

namespace GroupState

/-- All flags that anybody has. -/
def allFlags (g : GroupState) : BitVec 32 :=
  g.participants.foldl (fun flags p => flags ||| p.flags) g.externalPermissions

theorem getLsbD_allFlags {g : GroupState} {i : Nat} : g.allFlags.getLsbD i = true ↔
      g.externalPermissions.getLsbD i = true ∨ ∃ p ∈ g.participants, p.flags.getLsbD i = true := by
  rw [allFlags]
  generalize g.participants = ps, g.externalPermissions = flags
  induction ps generalizing flags with
  | nil => simp
  | cons p ps ih => simp [ih, or_assoc]

theorem rights_flagsIn_allFlags (g : GroupState) (publicKey : PublicKey) : FlagsIn (g.rights publicKey) g.allFlags := by
  intro i hi
  rw [getLsbD_allFlags]
  rcases getParticipant_cases g publicKey with ⟨p, hp, -, -, hrights⟩ | ⟨-, -, hrights⟩
  · rw [hrights] at hi
    exact .inr ⟨p, hp, hi⟩
  · rw [hrights] at hi
    exact .inl hi

/-- What the changes of a block can make of the group `old`: no flag comes from
elsewhere than the participant itself or the signer, and the signer has no more
rights than at the start. -/
structure Within (old : GroupState) (publicKey : PublicKey) (g : GroupState) : Prop where
  external : FlagsIn g.externalPermissions old.externalPermissions
  origin : ∀ p ∈ g.participants, ∀ i, p.flags.getLsbD i = true →
    (∃ q ∈ old.participants, q.key = p.key ∧ q.flags.getLsbD i = true) ∨ (old.rights publicKey).getLsbD i = true
  rights : FlagsIn (g.rights publicKey) (old.rights publicKey)

section

variable {old g g' : GroupState} {publicKey : PublicKey}

theorem Within.refl (g : GroupState) (publicKey : PublicKey) : g.Within publicKey g where
  external := .refl _
  origin := fun p hp _ hi => .inl ⟨p, hp, rfl, hi⟩
  rights := .refl _

/-- The signer stays a participant, so that its rights are flags of its own. -/
theorem Within.step {limit : BitVec 32} (hold : old.Valid) (h : old.Within publicKey g)
    (hbecome : g.MayBecome g' (g.getPermissions publicKey limit))
    (hmay : (g'.getPermissions publicKey limit).mayChangeSharedKey = true) : old.Within publicKey g' := by
  have horigin : ∀ p ∈ g'.participants, ∀ i, p.flags.getLsbD i = true →
      (∃ q ∈ old.participants, q.key = p.key ∧ q.flags.getLsbD i = true) ∨
        (old.rights publicKey).getLsbD i = true := by
    intro p hp i hi
    rcases hbecome.flag_origin hp hi with ⟨q, hq, hkey, hqi⟩ | hgranted
    · rw [← hkey]
      exact h.origin q hq i hqi
    · exact .inr (h.rights i (getPermissions_flags_rights g publicKey limit i hgranted))
  refine ⟨hbecome.external.trans h.external, horigin, ?_⟩
  intro i hi
  obtain ⟨p, hp, hkey, hrights⟩ := exists_participant_of_mayChangeSharedKey hmay
  rw [hrights] at hi
  rcases horigin p hp i hi with ⟨q, hq, hqkey, hqi⟩ | hsigner
  · have hqpublic : q.publicKey = publicKey := (congrArg Prod.snd hqkey).trans hkey
    rw [← hqpublic, hold.rights_eq hq]
    exact hqi
  · exact hsigner

theorem Within.allFlags (h : old.Within publicKey g) : FlagsIn g.allFlags old.allFlags := by
  intro i hi
  rcases getLsbD_allFlags.mp hi with hext | ⟨p, hp, hpi⟩
  · exact getLsbD_allFlags.mpr (.inl (h.external i hext))
  · rcases h.origin p hp i hpi with ⟨q, hq, -, hqi⟩ | hsigner
    · exact getLsbD_allFlags.mpr (.inr ⟨q, hq, hqi⟩)
    · exact rights_flagsIn_allFlags old publicKey i hsigner

end

end GroupState

namespace State

variable {crypto : Crypto} {publicKey : PublicKey} {options : ValidateOptions}

theorem ChangeStep.within {old : GroupState} (hold : old.Valid) {s s' : State} {change : Change}
    (h : old.Within publicKey s.groupState) (hstep : ChangeStep crypto publicKey options s s' change) :
    old.Within publicKey s'.groupState := by
  cases change with
  | setGroupState g =>
    obtain ⟨-, hbecome, hmay, rfl⟩ := hstep
    exact h.step hold hbecome hmay
  | noop | setValue | setSharedKey =>
    rw [ChangeStep.groupState hstep]
    exact h

theorem Applied.within {block : Block} {s s1 s' : State} (hvalid : s.groupState.Valid)
    (h : Applied crypto options block s s s1 s' publicKey) : s.groupState.Within publicKey s'.groupState := by
  have hrun : s.groupState.Within publicKey s1.groupState :=
    Outcome.foldlM_inv (I := fun t => s.groupState.Within publicKey t.groupState)
      (fun hI hstep => ChangeStep.within hvalid hI (applyChange_ok_iff.mp hstep)) (.refl _ _) h.changes
  have hfinish : s'.groupState = s1.groupState := by
    rw [h.finish, State.finish]
    split
    · rfl
    · rfl
  rw [hfinish]
  exact hrun

end State

namespace Blockchain

section

variable {crypto : Crypto}

/-- **No escalation.** After the first block of a chain no further blocks, with
whatever options and signers, add a flag to those of all participants and the
outside together, or to those of the outside. A single block gives a participant
no flag that neither the participant nor the signer had before it. -/
theorem no_escalation {start chain : Blockchain} {blocks : List (Block × ValidateOptions)}
    (hstart : Starts crypto start) (hrun : start.run crypto blocks = .ok chain) (hheight : 0 ≤ chain.getHeight) :
    (∀ further chain', chain.run crypto further = .ok chain' →
      FlagsIn chain'.state.groupState.allFlags chain.state.groupState.allFlags ∧
        FlagsIn chain'.state.groupState.externalPermissions chain.state.groupState.externalPermissions) ∧
    ∀ block options chain', chain.tryApplyBlock crypto block options = .ok chain' →
      ∃ publicKey, State.signer chain.state.groupState block = some publicKey ∧
        ∀ p ∈ chain'.state.groupState.participants, ∀ i, p.flags.getLsbD i = true →
          (∃ q ∈ chain.state.groupState.participants, q.key = p.key ∧ q.flags.getLsbD i = true) ∨
            (chain.state.groupState.rights publicKey).getLsbD i = true := by
  have hvalid : chain.state.groupState.Valid := (run_sound hstart hrun).valid
  constructor
  · intro further chain' hfurther
    -- the height and validity are what a block needs of the chain before it
    have hinv := run_inv (I := fun c => 0 ≤ c.getHeight ∧ c.state.groupState.Valid ∧
      FlagsIn c.state.groupState.allFlags chain.state.groupState.allFlags ∧
      FlagsIn c.state.groupState.externalPermissions chain.state.groupState.externalPermissions)
      ?_ ⟨hheight, hvalid, .refl _, .refl _⟩ hfurther
    · exact hinv.2.2
    intro c c' block options hI hstep
    obtain ⟨hc, hcvalid, hall, hext⟩ := hI
    obtain ⟨s₁, publicKey, happ⟩ := hstep.applied hc
    have hwithin := happ.within hcvalid
    refine ⟨?_, happ.proven.valid, hwithin.allFlags.trans hall, hwithin.external.trans hext⟩
    rw [hstep.getHeight]
    omega
  · intro block options chain' haccept
    obtain ⟨s₁, publicKey, happ⟩ := (tryApplyBlock_ok_iff.mp haccept).applied hheight
    exact ⟨publicKey, happ.signer, (happ.within hvalid).origin⟩

end

/-- The first participant invites a third one, who may invite others. -/
def sampleInvite : Block := sampleSign 5
  { prevBlockHash := sampleChain.lastBlockHash
    changes := [.setGroupState { sampleGroup with
      participants := { userId := 3, flags := 5, publicKey := 7 } :: sampleGroup.participants }]
    height := 1
    stateProof := { kvHash := sampleValues.getHash }
    signaturePublicKey := some 5 }

def sampleInvited : Blockchain :=
  (sampleChain.tryApplyBlock sampleCrypto sampleInvite ClientBlockchain.options).get (by decide +kernel)

theorem sampleChain_height : 0 ≤ sampleChain.getHeight := by decide +kernel

theorem no_escalation_sample : ∃ publicKey, State.signer sampleChain.state.groupState sampleInvite = some publicKey ∧
      ∀ p ∈ sampleInvited.state.groupState.participants, ∀ i, p.flags.getLsbD i = true →
        (∃ q ∈ sampleChain.state.groupState.participants, q.key = p.key ∧ q.flags.getLsbD i = true) ∨
          (sampleChain.state.groupState.rights publicKey).getLsbD i = true :=
  (no_escalation sampleStart run_sampleFirst sampleChain_height).2 _ _ _ (eq_ok_get _ _)

end Blockchain

end Tdlib.E2e
