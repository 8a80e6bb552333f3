/-
The rules of the group: which group states and shared keys are valid, and what
a signer may turn a group state into.

`GroupState.MayBecome` says what `set_group_state` checks. It grants nobody a
flag that is not granted before or among the permissions of the signer.
-/
import Mathlib.Data.List.Perm.Subperm
import Tdlib.E2e.Blockchain
import Tdlib.Lib.Flags

namespace Tdlib.E2e

open BitVec hiding and_assoc
open List hiding pure_def
open Outcome GroupState

open GroupParticipantFlags (allPermissions)

/-! ## Valid group states and shared keys -/

/-- What `validate_group_state` checks. -/
structure GroupState.Valid (g : GroupState) : Prop where
  flags : ∀ p ∈ g.participants, FlagsIn p.flags allPermissions
  external : FlagsIn g.externalPermissions allPermissions
  userIds : (g.participants.map (·.userId)).Nodup
  publicKeys : (g.participants.map (·.publicKey)).Nodup

theorem dedup_length_eq_iff {α : Type} [DecidableEq α] {l : List α} : l.dedup.length = l.length ↔ l.Nodup := by
  constructor
  · intro h
    rw [← (dedup_sublist l).eq_of_length h]
    exact nodup_dedup l
  · intro h
    rw [h.dedup]

variable {g : GroupState} {p : GroupParticipant} {permissions : Permissions} {old new : GroupState}

theorem validateGroupState_ok_iff {u : Unit} : State.validateGroupState g = .ok u ↔ g.Valid := by
  have hids : (g.participants.map (·.userId)).dedup.length = g.participants.length ↔
      (g.participants.map (·.userId)).Nodup := by
    rw [← dedup_length_eq_iff, length_map]
  have hkeys : (g.participants.map (·.publicKey)).dedup.length = g.participants.length ↔
      (g.participants.map (·.publicKey)).Nodup := by
    rw [← dedup_length_eq_iff, length_map]
  simp only [State.validateGroupState, bind_ok_iff, ensure_ok_iff, exists_const, hids, hkeys,
    ← flagsIn_iff]
  constructor
  · rintro ⟨hflags, hexternal, hids, hkeys⟩
    exact ⟨hflags, hexternal, hids, hkeys⟩
  · intro h
    exact ⟨h.flags, h.external, h.userIds, h.publicKeys⟩

/-- The shared key is for the participants of the group, all of them and only
them, if it is for anybody. -/
def GroupSharedKey.Fits (k : GroupSharedKey) (g : GroupState) : Prop :=
  k = .emptySharedKey ∨
    (k.destUserId.Perm (g.participants.map (·.userId)) ∧ k.destHeader.length = k.destUserId.length)

theorem validateSharedKey_fits {k : GroupSharedKey} {u : Unit} (hg : g.Valid)
    (h : State.validateSharedKey k g = .ok u) : k.Fits g := by
  rw [State.validateSharedKey] at h
  split at h
  next hempty => exact .inl hempty
  next hne =>
    simp only [bind_ok_iff, ensure_ok_iff, exists_const] at h
    obtain ⟨hheaders, hlength, hnodup, hall⟩ := h
    have hsub : g.participants.map (·.userId) ⊆ k.destUserId := by
      intro userId hmem
      obtain ⟨p, hp, rfl⟩ := mem_map.mp hmem
      exact hall p hp
    -- distinct user ids that are all among the destinations, and as many of them
    have hperm : (g.participants.map (·.userId)).Perm k.destUserId :=
      (subperm_of_subset hg.userIds hsub).perm_of_length_le (by rw [length_map, hlength])
    exact .inr ⟨hperm.symm, hheaders.symm⟩

/-! ## Flags of participants -/

theorem flagsOf_some {key : BitVec 64 × PublicKey} {ps : List GroupParticipant} {f : BitVec 32}
    (h : flagsOf key ps = some f) : ∃ p ∈ ps, p.key = key ∧ p.flags = f := by
  induction ps with
  | nil => cases h
  | cons p ps ih =>
    rw [flagsOf, Option.or_eq_some_iff] at h
    rcases h with h | ⟨-, h⟩
    · obtain ⟨q, hq, hkey⟩ := ih h
      exact ⟨q, by simp [hq], hkey⟩
    · split at h
      next hkey =>
        cases h
        exact ⟨p, by simp, hkey, rfl⟩
      next => cases h

/-- What a signer may do: the flags of the participant with the key, or what the
group grants to everybody. -/
def GroupState.rights (g : GroupState) (publicKey : PublicKey) : BitVec 32 :=
  match g.participants.find? fun p => p.publicKey = publicKey with
  | some p => p.flags
  | none => g.externalPermissions

theorem getParticipant_cases (g : GroupState) (publicKey : PublicKey) :
    (∃ p ∈ g.participants, p.publicKey = publicKey ∧ g.getParticipant publicKey = .ok p ∧
      g.rights publicKey = p.flags) ∨
    ((∀ p ∈ g.participants, p.publicKey ≠ publicKey) ∧
      g.getParticipant publicKey = .error "Participant not found" ∧ g.rights publicKey = g.externalPermissions) := by
  rw [getParticipant, rights]
  cases hfind : g.participants.find? fun p => p.publicKey = publicKey with
  | none =>
    simpa [List.find?_eq_none] using hfind
  | some p =>
    refine .inl ⟨p, mem_of_find?_eq_some hfind, ?_, rfl, rfl⟩
    simpa using List.find?_some hfind

theorem GroupState.Valid.rights_eq (hg : g.Valid) (hp : p ∈ g.participants) : g.rights p.publicKey = p.flags := by
  rcases getParticipant_cases g p.publicKey with ⟨q, hq, hkey, -, hrights⟩ | ⟨hnone, -⟩
  · rw [hrights, inj_on_of_nodup_map hg.publicKeys hq hp hkey]
  · exact absurd rfl (hnone p hp)

/-! ## Permissions -/

namespace Permissions

variable {p q : Permissions}

/-- More permissions. -/
def Le (p q : Permissions) : Prop := FlagsIn p.flags q.flags

theorem Le.test (h : p.Le q) {m : BitVec 32} {i : Nat} (hi : i < 32) (hm : m = BitVec.twoPow 32 i)
    (hp : decide (p.flags &&& m ≠ 0) = true) : decide (q.flags &&& m ≠ 0) = true := by
  subst hm
  rw [decide_eq_true_eq, and_twoPow_ne_zero hi] at hp ⊢
  exact h i hp

theorem Le.mayAddUsers (h : p.Le q) (hp : p.mayAddUsers = true) : q.mayAddUsers = true :=
  h.test (i := 0) (by decide) (by decide) hp

theorem Le.mayRemoveUsers (h : p.Le q) (hp : p.mayRemoveUsers = true) : q.mayRemoveUsers = true :=
  h.test (i := 1) (by decide) (by decide) hp

theorem Le.mayChangeSharedKey (h : p.Le q) (hp : p.mayChangeSharedKey = true) : q.mayChangeSharedKey = true := by
  rw [Permissions.mayChangeSharedKey, Bool.and_eq_true, Bool.or_eq_true] at hp ⊢
  refine ⟨h.test (i := 30) (by decide) (by decide) hp.1, ?_⟩
  exact hp.2.imp h.mayRemoveUsers h.mayAddUsers

end Permissions

section

variable {g : GroupState} {publicKey : PublicKey} {limit : BitVec 32}

theorem flagsIn_and_left {w : Nat} {a b c : BitVec w} (h : FlagsIn a b) : FlagsIn (c &&& a) (c &&& b) := by
  intro i hi
  rw [getLsbD_and, Bool.and_eq_true] at hi ⊢
  exact ⟨hi.1, h i hi.2⟩

theorem getPermissions_le_all (g : GroupState) (publicKey : PublicKey) (limit : BitVec 32) :
    (g.getPermissions publicKey limit).Le (g.getPermissions publicKey allPermissions) := by
  have hlimit : FlagsIn (limit &&& allPermissions) (allPermissions &&& allPermissions) := by
    exact .and_right _ _
  simp only [Permissions.Le, getPermissions]
  rcases getParticipant_cases g publicKey with ⟨p, -, -, hp, -⟩ | ⟨-, hp, -⟩
  · rw [hp]
    exact .or ((flagsIn_and_left hlimit).trans (.or_left _ _)) (.or_right _ _)
  · rw [hp]
    exact flagsIn_and_left hlimit

/-- The permissions that can be granted are among the rights. -/
theorem getPermissions_flags_rights (g : GroupState) (publicKey : PublicKey) (limit : BitVec 32) :
    FlagsIn ((g.getPermissions publicKey limit).flags &&& allPermissions) (g.rights publicKey) := by
  simp only [getPermissions]
  rcases getParticipant_cases g publicKey with ⟨p, -, -, hp, hrights⟩ | ⟨-, hp, hrights⟩
  · rw [hp, hrights]
    intro i hi
    simp only [getLsbD_and, getLsbD_or, Bool.and_eq_true, Bool.or_eq_true] at hi
    rcases hi.1 with h | h
    · exact h.1
    · have hlt : i < 32 := lt_of_getLsbD h
      have hdisjoint : ∀ i < 32, ¬ (GroupParticipantFlags.isParticipant.getLsbD i = true ∧
          allPermissions.getLsbD i = true) := by decide
      exact absurd ⟨h, hi.2⟩ (hdisjoint i hlt)
  · rw [hp, hrights]
    exact (FlagsIn.and_left _ _).trans (.and_left _ _)

/-- Whoever may change the shared key is a participant. -/
theorem exists_participant_of_mayChangeSharedKey (h : (g.getPermissions publicKey limit).mayChangeSharedKey = true) :
    ∃ p ∈ g.participants, p.publicKey = publicKey ∧ g.rights publicKey = p.flags := by
  rcases getParticipant_cases g publicKey with ⟨p, hp, hkey, -, hrights⟩ | ⟨-, hp, -⟩
  · exact ⟨p, hp, hkey, hrights⟩
  · rw [Permissions.mayChangeSharedKey, Bool.and_eq_true, Permissions.isParticipant, decide_eq_true_eq] at h
    have hbit := (and_twoPow_ne_zero (i := 30) (by decide)).mp h.1
    simp only [getPermissions, hp, getLsbD_and, Bool.and_eq_true] at hbit
    exact absurd hbit.2.2 (by decide)

end

/-! ## Changes of the group -/

/-- The flags a participant of the new group gets. -/
def grantedFlags (old : List GroupParticipant) (p : GroupParticipant) : BitVec 32 :=
  p.flags &&& ~~~((flagsOf p.key old).getD 0)

/-- The rules for a participant of the new group: it is added, or its flags change. -/
structure MayHave (old : List GroupParticipant) (permissions : Permissions) (p : GroupParticipant) : Prop where
  added : flagsOf p.key old = none → permissions.mayAddUsers = true
  changed : ∀ f, flagsOf p.key old = some f → p.flags ≠ f →
    permissions.mayAddUsers = true ∧ permissions.mayRemoveUsers = true

/-- What `set_group_state` checks of two group states. -/
structure GroupState.MayBecome (old new : GroupState) (permissions : Permissions) : Prop where
  external : FlagsIn new.externalPermissions old.externalPermissions
  removed : ∀ p ∈ old.participants, flagsOf p.key new.participants = none → permissions.mayRemoveUsers = true
  participants : ∀ p ∈ new.participants, MayHave old.participants permissions p
  granted : ∀ p ∈ new.participants,
    FlagsIn (grantedFlags old.participants p) (permissions.flags &&& allPermissions)

section

variable {old : List GroupParticipant} {permissions : Permissions}

theorem neededFlags_ok_iff {needed r : BitVec 32} : State.neededFlags old permissions needed p = .ok r ↔
      MayHave old permissions p ∧ r = needed ||| grantedFlags old p := by
  rw [State.neededFlags, grantedFlags]
  cases hold : flagsOf p.key old with
  | none =>
    have hflags : p.flags &&& ~~~((none : Option (BitVec 32)).getD 0) = p.flags :=
      (congrArg (p.flags &&& ·) not_zero).trans and_allOnes
    simp only [bind_ok_iff, ensure_ok_iff, exists_const, pure_def, ok.injEq, hflags]
    constructor
    · rintro ⟨hadd, rfl⟩
      exact ⟨⟨fun _ => hadd, fun f hf => by rw [hold] at hf; cases hf⟩, rfl⟩
    · rintro ⟨hmay, rfl⟩
      exact ⟨hmay.added hold, rfl⟩
  | some f =>
    by_cases hne : p.flags = f
    · have hflags : p.flags &&& ~~~((some f).getD 0) = 0 := by rw [hne]; simp
      simp only [hne, ne_eq, not_true_eq_false, if_false, pure_def, ok.injEq, hne ▸ hflags]
      constructor
      · rintro rfl
        refine ⟨⟨fun hnone => ?_, fun f' hf' hne' => ?_⟩, by simp⟩
        · rw [hold] at hnone
          cases hnone
        · rw [hold] at hf'
          cases hf'
          exact absurd hne hne'
      · rintro ⟨-, rfl⟩
        simp
    · simp only [ne_eq, hne, not_false_eq_true, if_true, bind_ok_iff, ensure_ok_iff, exists_const,
        pure_def, ok.injEq, Option.getD_some]
      constructor
      · rintro ⟨hboth, rfl⟩
        refine ⟨⟨fun hnone => ?_, fun _ _ _ => hboth⟩, rfl⟩
        rw [hold] at hnone
        cases hnone
      · rintro ⟨hmay, rfl⟩
        exact ⟨hmay.changed f hold hne, rfl⟩

/-- The flags needed for all participants of the new group. -/
def allGranted (old new : List GroupParticipant) (needed : BitVec 32) : BitVec 32 :=
  new.foldl (fun needed p => needed ||| grantedFlags old p) needed

theorem foldlM_neededFlags_ok_iff {new : List GroupParticipant} {needed r : BitVec 32} :
    new.foldlM (State.neededFlags old permissions) needed = .ok r ↔
      (∀ p ∈ new, MayHave old permissions p) ∧ r = allGranted old new needed := by
  induction new generalizing needed with
  | nil => simp [allGranted, eq_comm]
  | cons p new ih =>
    simp only [foldlM_cons, bind_ok_iff, neededFlags_ok_iff, ih, forall_mem_cons, allGranted,
      foldl_cons]
    constructor
    · rintro ⟨_, ⟨hp, rfl⟩, hnew, rfl⟩
      exact ⟨⟨hp, hnew⟩, rfl⟩
    · rintro ⟨⟨hp, hnew⟩, rfl⟩
      exact ⟨_, ⟨hp, rfl⟩, hnew, rfl⟩

theorem allGranted_flagsIn_iff {new : List GroupParticipant} {needed c : BitVec 32} :
    FlagsIn (allGranted old new needed) c ↔ FlagsIn needed c ∧ ∀ p ∈ new, FlagsIn (grantedFlags old p) c := by
  induction new generalizing needed with
  | nil => simp [allGranted]
  | cons p new ih =>
    rw [allGranted, foldl_cons, ← allGranted, ih, forall_mem_cons, ← and_assoc]
    refine and_congr_left fun _ => ⟨fun h => ?_, fun h => h.1.or h.2⟩
    exact ⟨(FlagsIn.or_left _ _).trans h, (FlagsIn.or_right _ _).trans h⟩

end

/-- **The rules of `set_group_state`.** -/
theorem setGroupState_ok_iff {s s' : State} : s.setGroupState g permissions = .ok s' ↔
      g.Valid ∧ s.groupState.MayBecome g permissions ∧ s' = { s with groupState := g } := by
  simp only [State.setGroupState, bind_ok_iff, ensure_ok_iff, exists_const, pure_def,
    ok.injEq, validateGroupState_ok_iff, foldlM_neededFlags_ok_iff, ← flagsIn_iff, ← flagsIn_iff_not_and]
  constructor
  · rintro ⟨hvalid, hext, hremoved, needed, ⟨hmay, rfl⟩, hgranted, rfl⟩
    exact ⟨hvalid, ⟨hext, hremoved, hmay, (allGranted_flagsIn_iff.mp hgranted).2⟩, rfl⟩
  · rintro ⟨hvalid, hbecome, rfl⟩
    exact ⟨hvalid, hbecome.external, hbecome.removed, _, ⟨hbecome.participants, rfl⟩,
      allGranted_flagsIn_iff.mpr ⟨.zero _, hbecome.granted⟩, rfl⟩

theorem GroupState.MayBecome.mono {p q : Permissions} (h : old.MayBecome new p) (hpq : p.Le q) :
    old.MayBecome new q where
  external := h.external
  removed := fun x hx hnone => hpq.mayRemoveUsers (h.removed x hx hnone)
  participants := fun x hx => by
    refine ⟨fun hnone => hpq.mayAddUsers ((h.participants x hx).added hnone), fun f hf hne => ?_⟩
    obtain ⟨hadd, hremove⟩ := (h.participants x hx).changed f hf hne
    exact ⟨hpq.mayAddUsers hadd, hpq.mayRemoveUsers hremove⟩
  granted := fun x hx i hi => by
    have hbit := h.granted x hx i hi
    rw [getLsbD_and, Bool.and_eq_true] at hbit ⊢
    exact ⟨hpq i hbit.1, hbit.2⟩

/-- **Nothing is granted from nowhere.** A flag of a participant of the new group
was its own before, or is a permission of the signer. -/
theorem GroupState.MayBecome.flag_origin (h : old.MayBecome new permissions) (hp : p ∈ new.participants) {i : Nat}
    (hi : p.flags.getLsbD i = true) : (∃ q ∈ old.participants, q.key = p.key ∧ q.flags.getLsbD i = true) ∨
      (permissions.flags &&& allPermissions).getLsbD i = true := by
  have hlt : i < 32 := lt_of_getLsbD hi
  by_cases hgranted : (grantedFlags old.participants p).getLsbD i = true
  · exact .inr (h.granted p hp i hgranted)
  · rw [grantedFlags, getLsbD_and, getLsbD_not, hi] at hgranted
    cases hold : flagsOf p.key old.participants with
    | none =>
      simp [hold, hlt] at hgranted
    | some f =>
      obtain ⟨q, hq, hkey, hflags⟩ := flagsOf_some hold
      rw [hold] at hgranted
      refine .inl ⟨q, hq, hkey, ?_⟩
      simpa [hlt, hflags] using hgranted

end Tdlib.E2e
