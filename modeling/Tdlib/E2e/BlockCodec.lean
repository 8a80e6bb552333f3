/-
Blocks read back from their TL form.

The one condition is on the flags of participants: as variables of type `#`
they are refused where they are negative.
-/
import Tdlib.E2e.Block
import Tdlib.E2e.TrieRep
import Tdlib.Lib.Flags

namespace Tdlib.E2e

open Outcome TlParser TrieNode List

/-- The flags of all participants can be read. -/
def GroupState.Readable (g : GroupState) : Prop := ∀ p ∈ g.participants, 0 ≤ p.flags.toInt

def Change.Readable : Change → Prop
  | .setGroupState g => g.Readable
  | _ => True

structure Block.Readable (block : Block) : Prop where
  changes : ∀ change ∈ block.changes, change.Readable
  groupState : ∀ g ∈ block.stateProof.groupState, g.Readable

variable {bytes : Bytes} {change : Change} {block : Block}

theorem length_pos_of_storeBoxed {id : Nat} {body : Outcome Bytes}
    (h : storeBoxed id body = .ok bytes) : 0 < bytes.length := by
  rw [storeBoxed, bind_ok_iff] at h
  obtain ⟨body, -, h⟩ := h
  cases h
  simp

/-- The two flags with names of their own are among the flags. -/
theorem GroupParticipant.tlFlags_eq (p : GroupParticipant) : p.tlFlags = p.flags := by
  have hadd : FlagsIn (if p.addUsers then 1 else 0) p.flags := by
    split
    next h =>
      rw [addUsers, decide_eq_true_eq] at h
      exact .of_and_ne_zero (i := 0) (by decide) h
    next => exact .zero _
  have hremove : FlagsIn (if p.removeUsers then 2 else 0) p.flags := by
    split
    next h =>
      rw [removeUsers, decide_eq_true_eq] at h
      exact .of_and_ne_zero (i := 1) (by decide) h
    next => exact .zero _
  rw [tlFlags, hadd.or_eq, hremove.or_eq]

theorem readsBack_groupParticipant {p : GroupParticipant} (hp : 0 ≤ p.flags.toInt) :
    ReadsBack p.store fetchGroupParticipant p := by
  intro bytes hbytes rest len
  cases hbytes
  simp [fetchGroupParticipant, append_assoc, fetchBits_storeBits (w := 8) (n := 64) rfl, fetchUInt256_store,
    GroupParticipant.tlFlags_eq, fetchFlags_storeBits hp, fetchBits_storeBits (w := 4) (n := 32) rfl]

theorem readsBack_groupState {g : GroupState} (hg : g.Readable) : ReadsBack g.store fetchGroupState g := by
  intro bytes hbytes rest len
  rw [GroupState.store, bind_ok_iff] at hbytes
  obtain ⟨participants, hparticipants, hbytes⟩ := hbytes
  cases hbytes
  have hvector := readsBack_vector (fun p _ bytes h => length_pos_of_storeBoxed h)
    (fun p hp => readsBack_boxed (by decide) (readsBack_groupParticipant (hg p hp))) participants hparticipants
  simp [fetchGroupState, hvector, fetchBits_storeBits (w := 4) (n := 32) rfl]

theorem readsBack_userId (userId : BitVec 64) : ReadsBack (pure (storeBits 8 userId)) (fetchBits 8 64) userId := by
  intro bytes hbytes rest len
  cases hbytes
  exact fetchBits_storeBits (w := 8) (n := 64) rfl userId rest len

theorem readsBack_sharedKey (k : GroupSharedKey) : ReadsBack k.store fetchSharedKey k := by
  intro bytes hbytes rest len
  rw [GroupSharedKey.store, bind_ok_iff] at hbytes
  obtain ⟨key, hkey, hbytes⟩ := hbytes
  rw [bind_ok_iff] at hbytes
  obtain ⟨users, husers, hbytes⟩ := hbytes
  rw [bind_ok_iff] at hbytes
  obtain ⟨headers, hheaders, hbytes⟩ := hbytes
  cases hbytes
  have hread := readsBack_string k.encryptedSharedKey key hkey
  have hpos : ∀ userId ∈ k.destUserId, ∀ bytes, pure (storeBits 8 userId) = Outcome.ok bytes → 0 < bytes.length := by
    intro userId _ bytes h
    cases h
    rw [storeBits, length_leBytes]
    decide
  have hreadUsers := readsBack_vector hpos (fun userId _ => readsBack_userId userId) users husers
  have hreadHeaders := readsBack_vector
    (fun _ _ _ h => Nat.lt_of_lt_of_le (by decide) (storeString_aligned h).2)
    (fun header _ => readsBack_string header) headers hheaders
  simp [fetchSharedKey, fetchUInt256_store, hread, hreadUsers, hreadHeaders]

theorem readsBack_change (hchange : change.Readable) : ReadsBack change.store fetchChange change := by
  intro bytes hbytes rest len
  cases change with
  | noop nonce =>
    cases hbytes
    simp only [fetchChange, append_assoc]
    rw [fetchInt_append (by decide)]
    rw [if_pos rfl, fetchUInt256_store]
  | setValue key value =>
    rw [Change.store, storeBoxed, bind_ok_iff] at hbytes
    obtain ⟨body, hbody, hbytes⟩ := hbytes
    cases hbytes
    rw [bind_ok_iff] at hbody
    obtain ⟨keyBytes, hkey, hbody⟩ := hbody
    rw [bind_ok_iff] at hbody
    obtain ⟨valueBytes, hvalue, hbody⟩ := hbody
    cases hbody
    simp only [fetchChange, append_assoc]
    rw [fetchInt_append (by decide)]
    dsimp only
    rw [if_neg (by decide), if_pos rfl, readsBack_string key keyBytes hkey]
    rw [readsBack_string value valueBytes hvalue]
  | setGroupState g =>
    rw [Change.store, storeBoxed, bind_ok_iff] at hbytes
    obtain ⟨body, hbody, hbytes⟩ := hbytes
    cases hbytes
    simp only [fetchChange, append_assoc]
    rw [fetchInt_append (by decide)]
    dsimp only
    rw [if_neg (by decide), if_neg (by decide), if_pos rfl,
      readsBack_boxed (by decide) (readsBack_groupState hchange) body hbody]
  | setSharedKey k =>
    rw [Change.store, storeBoxed, bind_ok_iff] at hbytes
    obtain ⟨body, hbody, hbytes⟩ := hbytes
    cases hbytes
    simp only [fetchChange, append_assoc]
    rw [fetchInt_append (by decide)]
    dsimp only
    rw [if_neg (by decide), if_neg (by decide), if_neg (by decide), if_pos rfl,
      readsBack_boxed (by decide) (readsBack_sharedKey k) body hbody]

theorem length_pos_of_change (h : change.store = .ok bytes) : 0 < bytes.length := by
  cases change <;> exact length_pos_of_storeBoxed h

theorem readsBack_optional {α : Type} {store : α → Outcome Bytes} {fetch : TlParser → α × TlParser} {x : Option α}
    (h : ∀ a ∈ x, ReadsBack (store a) fetch a) :
    ReadsBack (storeOptional store x) (fetchOptional x.isSome fetch) x := by
  intro bytes hbytes rest len
  cases x with
  | none =>
    cases hbytes
    rfl
  | some a =>
    rw [fetchOptional, Option.isSome_some, if_pos rfl, h a rfl bytes hbytes]

theorem readsBack_stateProof {proof : StateProof} (h : ∀ g ∈ proof.groupState, g.Readable) :
    ReadsBack proof.store fetchStateProof proof := by
  intro bytes hbytes rest len
  rw [StateProof.store, bind_ok_iff] at hbytes
  obtain ⟨groupBytes, hgroup, hbytes⟩ := hbytes
  rw [bind_ok_iff] at hbytes
  obtain ⟨keyBytes, hkey, hbytes⟩ := hbytes
  cases hbytes
  have hflags : 0 ≤ proof.tlFlags.toInt ∧ decide (proof.tlFlags &&& 1 ≠ 0) = proof.groupState.isSome ∧
      decide (proof.tlFlags &&& 2 ≠ 0) = proof.sharedKey.isSome := by
    rw [StateProof.tlFlags]
    cases proof.groupState.isSome <;> cases proof.sharedKey.isSome <;> decide
  have hreadGroup := readsBack_optional (fun g hg => readsBack_boxed (by decide) (readsBack_groupState (h g hg)))
    groupBytes hgroup
  have hreadKey := readsBack_optional (fun k _ => readsBack_boxed (by decide) (readsBack_sharedKey k)) keyBytes hkey
  simp_all [fetchStateProof, append_assoc, fetchFlags_storeBits hflags.1, fetchUInt256_store]

theorem readsBack_publicKey (key : PublicKey) : ReadsBack (pure (UInt256.store key)) fetchUInt256 key := by
  intro bytes hbytes rest len
  cases hbytes
  exact fetchUInt256_store key rest len none

theorem Block.readsBack (h : block.Readable) : ReadsBack block.store fetch block := by
  intro bytes hbytes rest len
  rw [store, bind_ok_iff] at hbytes
  obtain ⟨changes, hchanges, hbytes⟩ := hbytes
  rw [bind_ok_iff] at hbytes
  obtain ⟨proof, hproof, hbytes⟩ := hbytes
  rw [bind_ok_iff] at hbytes
  obtain ⟨key, hkey, hbytes⟩ := hbytes
  cases hbytes
  have hflags : 0 ≤ block.tlFlags.toInt ∧ decide (block.tlFlags &&& 1 ≠ 0) = block.signaturePublicKey.isSome := by
    rw [tlFlags]
    cases block.signaturePublicKey.isSome <;> decide
  have hreadChanges := readsBack_vector (fun _ _ _ h => length_pos_of_change h)
    (fun change hchange => readsBack_change (h.changes change hchange)) changes hchanges
  have hreadProof := readsBack_boxed (by decide) (readsBack_stateProof h.groupState) proof hproof
  have hreadKey := readsBack_optional (fun key _ => readsBack_publicKey key) key hkey
  simp_all [fetch, append_assoc, fetchBits_storeBits (w := 64) (n := 512) rfl, fetchFlags_storeBits hflags.1,
    fetchUInt256_store, fetchBits_storeBits (w := 4) (n := 32) rfl]

/-- **Round trip.** A block whose flags can be read reads back from its TL form. -/
theorem Block.fromTlSerialized_toTlSerialized (h : block.Readable)
    (hbytes : block.toTlSerialized = .ok bytes) : fromTlSerialized bytes = .ok block := by
  rw [toTlSerialized, storeBoxed, bind_ok_iff] at hbytes
  obtain ⟨body, hbody, hbytes⟩ := hbytes
  cases hbytes
  have hread := Block.readsBack h body hbody [] (leBytes 4 TlId.block ++ body).length
  rw [append_nil] at hread
  rw [fromTlSerialized, new, fetchInt_append (by decide)]
  dsimp only
  rw [if_neg (not_not_intro rfl), hread]
  rfl

end Tdlib.E2e
