/-
The hash of a call does not depend on the order of the broadcasts.

Two chains at a block that accepted the same nonces have the same hash. When
all commits come before all reveals, in any order and around the block itself,
every broadcast is accepted and the hash is that of the nonces.
-/
import Tdlib.E2e.CallBroadcasts

namespace Tdlib.E2e

open List hiding pure_def
open Outcome OrderedMap GroupBroadcast

/-! ## The order of the nonces -/

instance : Std.Total bytesLe := ⟨fun a b => List.le_total a b⟩

instance : IsTrans Bytes bytesLe := ⟨fun _ _ _ h h' => List.le_trans h h'⟩

instance : Std.Antisymm bytesLe := ⟨fun _ _ h h' => List.le_antisymm h h'⟩

namespace CallVerificationChain

theorem emojiOf_perm {crypto : CallCrypto} {lastBlockHash : UInt256} {nonces nonces' : List Bytes}
    (h : nonces.Perm nonces') : emojiOf crypto lastBlockHash nonces = emojiOf crypto lastBlockHash nonces' := by
  have hperm : (nonces.insertionSort bytesLe).Perm (nonces'.insertionSort bytesLe) :=
    (perm_insertionSort ..).trans (h.trans (perm_insertionSort ..).symm)
  have hsort := hperm.eq_of_pairwise' (pairwise_insertionSort ..) (pairwise_insertionSort ..)
  rw [emojiOf, emojiOf, hsort]

/-! ## The keys of a group -/

section

variable {participants : List GroupParticipant}

theorem exists_of_mem_keysOf {entry : BitVec 64 × PublicKey} (h : entry ∈ keysOf participants) :
    ∃ p ∈ participants, (p.userId, p.publicKey) = entry := by
  induction participants using List.reverseRecOn with
  | nil => cases h
  | append_singleton participants q ih =>
    rw [keysOf_append] at h
    rcases mem_of_mem_emplace h with rfl | h
    · exact ⟨q, mem_append_right _ (mem_singleton_self q), rfl⟩
    · obtain ⟨p, hp, hentry⟩ := ih h
      exact ⟨p, mem_append_left _ hp, hentry⟩

theorem sorted_keysOf (participants : List GroupParticipant) : OrderedMap.Sorted userOrder (keysOf participants) := by
  induction participants using List.reverseRecOn with
  | nil => exact List.Pairwise.nil
  | append_singleton participants q ih =>
    rw [keysOf_append]
    by_cases hold : ∃ entry ∈ keysOf participants, userOrder entry = userOrder (q.userId, q.publicKey)
    · rw [ih.emplace_of_mem hold]
      exact ih
    · exact ih.emplace fun entry hentry hkey => hold ⟨entry, hentry, hkey⟩

theorem nodup_keysOf (participants : List GroupParticipant) : ((keysOf participants).map Prod.fst).Nodup := by
  have hsorted := sorted_keysOf participants
  refine pairwise_map.mpr (hsorted.imp fun {a b} hlt heq => ?_)
  simp [userOrder, heq] at hlt

/-- Different users: the map has all of them. -/
theorem keysOf_perm (h : (keysOf participants).length = participants.length) :
    (keysOf participants).Perm (participants.map fun p => (p.userId, p.publicKey)) := by
  have hsub : keysOf participants ⊆ participants.map fun p => (p.userId, p.publicKey) := by
    intro entry hentry
    exact mem_map.mpr (exists_of_mem_keysOf hentry)
  have hperm := subperm_of_subset (List.Nodup.of_map _ (nodup_keysOf participants)) hsub
  exact hperm.perm_of_length_le (by rw [length_map, h])

theorem findUser_of_mem {α : Type} {entries : List (BitVec 64 × α)} {userId : BitVec 64} {value : α}
    (hids : (entries.map Prod.fst).Nodup) (h : (userId, value) ∈ entries) : findUser userId entries = some value := by
  obtain ⟨value', hfind⟩ := exists_findUser (mem_map.mpr ⟨_, h, rfl⟩)
  have hsame := ofUser_eq hids (mem_of_findUser hfind)
  rw [ofUser_eq hids h, List.cons.injEq] at hsame
  rw [hfind, hsame.1]

end

section

variable {crypto : CallCrypto} {chain1 chain2 : CallVerificationChain}

theorem Stage.revealed_subset (h1 : Stage crypto chain1) (h2 : Stage crypto chain2) (hstate : chain2.state = .ended)
    (husers : chain1.users = chain2.users)
    (hnonces : ∀ userId ∈ chain1.users, chain1.revealsOf userId = chain2.revealsOf userId) :
    chain1.revealed ⊆ chain2.revealed := by
  intro entry hentry
  obtain ⟨userId, nonce⟩ := entry
  have huser : userId ∈ chain1.users := h1.revealed.known (mem_map.mpr ⟨_, hentry, rfl⟩)
  obtain ⟨nonce', hentry'⟩ := h2.exists_reveal hstate (husers ▸ huser)
  have hsame : [nonce] = [nonce'] := by
    rw [← h1.revealed.ofUser_log hentry, ← h2.revealed.ofUser_log hentry']
    exact hnonces userId huser
  simp_all

theorem Stage.emojiHash_eq (h1 : Stage crypto chain1) (h2 : Stage crypto chain2) (hstate1 : chain1.state = .ended)
    (hstate2 : chain2.state = .ended) (hhash : chain1.lastBlockHash = chain2.lastBlockHash)
    (husers : chain1.users = chain2.users)
    (hnonces : ∀ userId ∈ chain1.users, chain1.revealsOf userId = chain2.revealsOf userId) :
    chain1.emojiHash = chain2.emojiHash := by
  have hperm : chain1.revealed.Perm chain2.revealed := by
    refine (perm_ext_iff_of_nodup (List.Nodup.of_map _ h1.revealed.ids)
      (List.Nodup.of_map _ h2.revealed.ids)).mpr fun entry => ⟨fun h => ?_, fun h => ?_⟩
    · exact h1.revealed_subset h2 hstate2 husers hnonces h
    · refine h2.revealed_subset h1 hstate1 husers.symm (fun userId hid => ?_) h
      exact (hnonces userId (husers ▸ hid)).symm
  have hphase1 := h1.phase
  have hphase2 := h2.phase
  simp_all [PhaseOk, emojiOf_perm (hperm.map Prod.snd)]

end

/-! ## All commits, then all reveals -/

section

variable {crypto : CallCrypto} {chain chain' : CallVerificationChain}

/-- The broadcast is for the block, from a participant and signed. -/
structure Valid (crypto : CallCrypto) (chain : CallVerificationChain) (broadcast : GroupBroadcast)
    (userId : BitVec 64) (toSign : Bytes) (signature : Signature) : Prop where
  height : broadcast.chainHeight.toInt = chain.height
  hash : broadcast.chainHash = chain.lastBlockHash
  signed : ∃ publicKey, findUser userId chain.participantKeys = some publicKey ∧
    crypto.verify publicKey toSign signature = none

section

variable {broadcast : GroupBroadcast} {userId : BitVec 64} {toSign : Bytes} {signature : Signature}
    (h : Valid crypto chain broadcast userId toSign signature)

include h

theorem Valid.sameBlock (hsame : SameBlock chain chain') : Valid crypto chain' broadcast userId toSign signature := by
  obtain ⟨hheight, hhash, hsigned⟩ := h
  exact ⟨hheight.trans hsame.height.symm, hhash.trans hsame.lastBlockHash.symm, hsame.participantKeys ▸ hsigned⟩

theorem Valid.participantKey : ∃ publicKey, chain.participantKey userId = .ok publicKey ∧
      chain.checkBroadcast crypto.toCrypto publicKey toSign signature = .ok () := by
  obtain ⟨publicKey, hfind, hverify⟩ := h.signed
  refine ⟨publicKey, ?_, ?_⟩
  · rw [CallVerificationChain.participantKey, hfind]
  · rw [checkBroadcast, verifySignature, hverify]
    split <;> rfl

end

abbrev ValidCommit (crypto : CallCrypto) (chain : CallVerificationChain) (commit : NonceCommit) : Prop :=
  Valid crypto chain (.commit commit) commit.userId { commit with signature := 0 }.store commit.signature

abbrev ValidReveal (crypto : CallCrypto) (chain : CallVerificationChain) (reveal : NonceReveal) : Prop :=
  Valid crypto chain (.reveal reveal) reveal.userId { reveal with signature := 0 }.store reveal.signature

theorem processBroadcast_commit {commit : NonceCommit} (hvalid : ValidCommit crypto chain commit)
    (hstate : chain.state = .commit) (hnew : findUser commit.userId chain.committed = none) :
    ∃ chain', chain.processBroadcast crypto (.commit commit) = .ok chain' := by
  obtain ⟨publicKey, hkey, hcheck⟩ := hvalid.participantKey
  have hheight : commit.chainHeight.toInt = chain.height := hvalid.height
  simp_all [processBroadcast, processCommit, ensure_true hvalid.hash, ok_bind]

theorem processBroadcast_reveal {reveal : NonceReveal} (hvalid : ValidReveal crypto chain reveal)
    (hstate : chain.state = .reveal) (hnew : findUser reveal.userId chain.revealed = none)
    (hopens : findUser reveal.userId chain.committed = some (crypto.sha256 reveal.nonce.store).store)
    (hemoji : chain.emojiHash = none) : ∃ chain', chain.processBroadcast crypto (.reveal reveal) = .ok chain' := by
  obtain ⟨publicKey, hkey, hcheck⟩ := hvalid.participantKey
  have hheight : reveal.chainHeight.toInt = chain.height := hvalid.height
  simp_all [processBroadcast, processReveal, ensure_true hvalid.hash, ok_bind]

/-- Broadcasts that come one after the other. -/
def processAll (crypto : CallCrypto) (chain : CallVerificationChain) (broadcasts : List GroupBroadcast) :
    Outcome CallVerificationChain :=
  broadcasts.foldlM (processBroadcast crypto) chain

def commitEntry (commit : NonceCommit) : BitVec 64 × Bytes := (commit.userId, commit.nonceHash.store)

def revealEntry (reveal : NonceReveal) : BitVec 64 × Bytes := (reveal.userId, reveal.nonce.store)

theorem assign_append {entry : BitVec 64 × Bytes} {rest entries : List (BitVec 64 × Bytes)}
    (h : ((entry :: rest ++ entries).map Prod.fst).Nodup) : findUser entry.1 entries = none ∧
      (rest ++ assign userOrder entry entries).Perm (entry :: rest ++ entries) := by
  rw [cons_append, map_cons, nodup_cons, map_append, mem_append, not_or] at h
  refine ⟨findUser_eq_none.mpr h.1.2, ?_⟩
  have hperm : (assign userOrder entry entries).Perm (entry :: entries) := assign_userOrder h.1.2
  exact (hperm.append_left rest).trans perm_middle

theorem length_eq_iff {entries rest : List (BitVec 64 × Bytes)} {n : Nat} (h : (rest ++ entries).length = n) :
    entries.length = n ↔ rest = [] := by
  rw [length_append] at h
  rw [← length_eq_zero_iff]
  omega

theorem processAll_commits (commits : List NonceCommit) (hne : commits ≠ []) (hstate : chain.state = .commit)
    (hvalid : ∀ commit ∈ commits, ValidCommit crypto chain commit)
    (hids : ((commits.map commitEntry ++ chain.committed).map Prod.fst).Nodup)
    (hlength : (commits.map commitEntry ++ chain.committed).length = chain.participantKeys.length) :
    ∃ chain', processAll crypto chain (commits.map .commit) = .ok chain' ∧ chain'.state = .reveal ∧
      SameBlock chain chain' ∧ chain'.committed.Perm (commits.map commitEntry ++ chain.committed) ∧
      chain'.revealed = chain.revealed ∧ chain'.emojiHash = chain.emojiHash := by
  induction commits generalizing chain with
  | nil => exact absurd rfl hne
  | cons commit commits ih =>
    obtain ⟨hnew, hperm⟩ := assign_append hids
    obtain ⟨next, hnext⟩ := processBroadcast_commit (hvalid commit (mem_cons_self ..)) hstate hnew
    have hstep := processBroadcast_ok hnext
    have hsame := hstep.sameBlock
    cases hstep with
    | commit hstep =>
      have hlength' : (commits.map commitEntry ++ assign userOrder (commitEntry commit)
          chain.committed).length = chain.participantKeys.length := hperm.length_eq.trans hlength
      have hlast : (assign userOrder (commit.userId, commit.nonceHash.store) chain.committed).length =
          chain.participantKeys.length ↔ commits = [] := (length_eq_iff hlength').trans map_eq_nil_iff
      have hnextIs := hstep.next
      rw [map_cons, processAll, foldlM_cons, hnext, ok_bind]
      by_cases hnil : commits = []
      · subst hnil
        rw [if_pos (hlast.mpr rfl)] at hnextIs
        subst hnextIs
        exact ⟨_, rfl, rfl, hsame, hperm, rfl, rfl⟩
      · rw [if_neg fun h => hnil (hlast.mp h)] at hnextIs
        have hvalid' : ∀ commit' ∈ commits, ValidCommit crypto next commit' := fun commit' hmem =>
          (hvalid commit' (mem_cons_of_mem commit hmem)).sameBlock hsame
        subst hnextIs
        obtain ⟨chain', hok, hstate', hsame', hperm', hrest⟩ :=
          ih hnil (by exact hstate) hvalid' ((hperm.map Prod.fst).nodup_iff.mpr hids) hlength'
        exact ⟨chain', hok, hstate', hsame.trans hsame', hperm'.trans hperm, hrest⟩

theorem processAll_reveals (reveals : List NonceReveal) (hne : reveals ≠ []) (hstate : chain.state = .reveal)
    (hemoji : chain.emojiHash = none) (hvalid : ∀ reveal ∈ reveals, ValidReveal crypto chain reveal)
    (hopens : ∀ reveal ∈ reveals,
      findUser reveal.userId chain.committed = some (crypto.sha256 reveal.nonce.store).store)
    (hids : ((reveals.map revealEntry ++ chain.revealed).map Prod.fst).Nodup)
    (hlength : (reveals.map revealEntry ++ chain.revealed).length = chain.participantKeys.length) :
    ∃ chain', processAll crypto chain (reveals.map .reveal) = .ok chain' ∧ chain'.state = .ended ∧
      chain'.emojiHash = some (emojiOf crypto chain.lastBlockHash
        ((reveals.map revealEntry ++ chain.revealed).map Prod.snd)) := by
  induction reveals generalizing chain with
  | nil => exact absurd rfl hne
  | cons reveal reveals ih =>
    obtain ⟨hnew, hperm⟩ := assign_append hids
    obtain ⟨next, hnext⟩ := processBroadcast_reveal (hvalid reveal (mem_cons_self ..)) hstate hnew
      (hopens reveal (mem_cons_self ..)) hemoji
    have hstep := processBroadcast_ok hnext
    have hsame := hstep.sameBlock
    cases hstep with
    | reveal hstep =>
      have hlength' : (reveals.map revealEntry ++ assign userOrder (revealEntry reveal)
          chain.revealed).length = chain.participantKeys.length := hperm.length_eq.trans hlength
      have hlast : (assign userOrder (reveal.userId, reveal.nonce.store) chain.revealed).length =
          chain.participantKeys.length ↔ reveals = [] := (length_eq_iff hlength').trans map_eq_nil_iff
      have hnextIs := hstep.next
      rw [map_cons, processAll, foldlM_cons, hnext, ok_bind, map_cons,
        ← emojiOf_perm (hperm.map Prod.snd)]
      by_cases hnil : reveals = []
      · subst hnil
        rw [if_pos (hlast.mpr rfl), if_pos (hlast.mpr rfl)] at hnextIs
        subst hnextIs
        exact ⟨_, rfl, rfl, rfl⟩
      · rw [if_neg fun h => hnil (hlast.mp h), if_neg fun h => hnil (hlast.mp h)] at hnextIs
        subst hnextIs
        exact ih hnil hstate hemoji
          (fun reveal' hmem => (hvalid reveal' (mem_cons_of_mem reveal hmem)).sameBlock hsame)
          (fun reveal' hmem => hopens reveal' (mem_cons_of_mem reveal hmem))
          ((hperm.map Prod.fst).nodup_iff.mpr hids) hlength'

/-- What the participants broadcast for a block: each of them commits once and
reveals the nonce, and signs both. -/
structure Round (crypto : CallCrypto) (blockchain : Blockchain) (commits : List NonceCommit)
    (reveals : List NonceReveal) : Prop where
  participants : blockchain.state.groupState.participants ≠ []
  committers : (commits.map (·.userId)).Perm (blockchain.state.groupState.participants.map (·.userId))
  revealers : (reveals.map (·.userId)).Perm (blockchain.state.groupState.participants.map (·.userId))
  commitOk : ∀ commit ∈ commits, commit.chainHeight = blockchain.lastBlock.height ∧
    commit.chainHash = blockchain.lastBlockHash ∧
    ∀ p ∈ blockchain.state.groupState.participants, p.userId = commit.userId →
      crypto.verify p.publicKey { commit with signature := 0 }.store commit.signature = none
  revealOk : ∀ reveal ∈ reveals, reveal.chainHeight = blockchain.lastBlock.height ∧
    reveal.chainHash = blockchain.lastBlockHash ∧
    ∀ p ∈ blockchain.state.groupState.participants, p.userId = reveal.userId →
      crypto.verify p.publicKey { reveal with signature := 0 }.store reveal.signature = none
  opens : ∀ commit ∈ commits, ∀ reveal ∈ reveals, commit.userId = reveal.userId →
    commit.nonceHash = crypto.sha256 reveal.nonce.store

variable {blockchain : Blockchain} {broadcast : GroupBroadcast} {broadcasts : List GroupBroadcast}
variable {early late : List GroupBroadcast}

theorem Round.perm {commits commits' : List NonceCommit} {reveals reveals' : List NonceReveal}
    (h : Round crypto blockchain commits reveals) (hcommits : commits.Perm commits')
    (hreveals : reveals.Perm reveals') :
    Round crypto blockchain commits' reveals' where
  participants := h.participants
  committers := (hcommits.symm.map _).trans h.committers
  revealers := (hreveals.symm.map _).trans h.revealers
  commitOk commit hmem := h.commitOk commit (hcommits.mem_iff.mpr hmem)
  revealOk reveal hmem := h.revealOk reveal (hreveals.mem_iff.mpr hmem)
  opens commit hcommit reveal hreveal := h.opens commit (hcommits.mem_iff.mpr hcommit) reveal
    (hreveals.mem_iff.mpr hreveal)

/-- The broadcasts of a round, commits first. -/
def roundOf (commits : List NonceCommit) (reveals : List NonceReveal) : List GroupBroadcast :=
  commits.map .commit ++ reveals.map .reveal

section

variable {blockchain : Blockchain} {commits : List NonceCommit} {reveals : List NonceReveal}

variable (hkeys : (keysOf blockchain.state.groupState.participants).length =
  blockchain.state.groupState.participants.length)

include hkeys

theorem Follows.findUser (h : Follows chain blockchain) {userId : BitVec 64}
    (hmem : userId ∈ blockchain.state.groupState.participants.map (·.userId)) :
    ∃ p ∈ blockchain.state.groupState.participants, p.userId = userId ∧
      findUser userId chain.participantKeys = some p.publicKey := by
  obtain ⟨p, hp, rfl⟩ := mem_map.mp hmem
  refine ⟨p, hp, rfl, ?_⟩
  rw [h.participantKeys]
  exact findUser_of_mem (nodup_keysOf _) ((keysOf_perm hkeys).mem_iff.mpr (mem_map.mpr ⟨p, hp, rfl⟩))

section

variable (h : Round crypto blockchain commits reveals) (hfollows : Follows chain blockchain)

include h hfollows

theorem Round.validCommit {commit : NonceCommit} (hmem : commit ∈ commits) : ValidCommit crypto chain commit := by
  obtain ⟨hheight, hhash, hsigned⟩ := h.commitOk commit hmem
  obtain ⟨p, hp, hid, hfind⟩ := hfollows.findUser hkeys (h.committers.mem_iff.mp (mem_map.mpr ⟨commit, hmem, rfl⟩))
  exact ⟨(congrArg BitVec.toInt hheight).trans hfollows.height.symm, hhash.trans hfollows.lastBlockHash.symm,
    p.publicKey, hfind, hsigned p hp hid⟩

theorem Round.validReveal {reveal : NonceReveal} (hmem : reveal ∈ reveals) : ValidReveal crypto chain reveal := by
  obtain ⟨hheight, hhash, hsigned⟩ := h.revealOk reveal hmem
  obtain ⟨p, hp, hid, hfind⟩ := hfollows.findUser hkeys (h.revealers.mem_iff.mp (mem_map.mpr ⟨reveal, hmem, rfl⟩))
  exact ⟨(congrArg BitVec.toInt hheight).trans hfollows.height.symm, hhash.trans hfollows.lastBlockHash.symm,
    p.publicKey, hfind, hsigned p hp hid⟩

end

theorem entries_of_users {entries : List (BitVec 64 × Bytes)}
    (h : (entries.map Prod.fst).Perm (blockchain.state.groupState.participants.map (·.userId))) :
    (entries.map Prod.fst).Nodup ∧ entries.length = (keysOf blockchain.state.groupState.participants).length := by
  have hids := ((keysOf_perm hkeys).map Prod.fst).nodup_iff.mp (nodup_keysOf _)
  rw [map_map] at hids
  have hlength := h.length_eq
  rw [length_map, length_map] at hlength
  exact ⟨h.nodup_iff.mpr hids, by rw [hkeys, hlength]⟩

theorem processAll_round (h : Round crypto blockchain commits reveals) :
    ∃ chain', processAll crypto (chain.reset blockchain) (roundOf commits reveals) = .ok chain' ∧
      chain'.state = .ended ∧
      chain'.emojiHash = some (emojiOf crypto blockchain.lastBlockHash (reveals.map (·.nonce.store))) := by
  have hfollows : Follows (chain.reset blockchain) blockchain := ⟨rfl, rfl, rfl⟩
  have hcommitters : ((commits.map commitEntry).map Prod.fst).Perm
      (blockchain.state.groupState.participants.map (·.userId)) := by
    rw [map_map]
    exact h.committers
  have hrevealers : ((reveals.map revealEntry).map Prod.fst).Perm
      (blockchain.state.groupState.participants.map (·.userId)) := by
    rw [map_map]
    exact h.revealers
  obtain ⟨hcommitIds, hcommitLength⟩ := entries_of_users hkeys hcommitters
  obtain ⟨hrevealIds, hrevealLength⟩ := entries_of_users hkeys hrevealers
  have hpos : 0 < blockchain.state.groupState.participants.length := length_pos_iff.mpr h.participants
  rw [← hkeys] at hpos
  have hcommits : commits ≠ [] := by
    rintro rfl
    exact absurd hcommitLength.symm (Nat.ne_of_gt hpos)
  have hreveals : reveals ≠ [] := by
    rintro rfl
    exact absurd hrevealLength.symm (Nat.ne_of_gt hpos)
  have hempty : commits.map commitEntry ++ (chain.reset blockchain).committed = commits.map commitEntry :=
    append_nil _
  obtain ⟨next, hok, hstate, hsame, hcommitted, hrevealed, hemoji⟩ :=
    processAll_commits commits hcommits (rfl : (chain.reset blockchain).state = .commit)
      (fun commit hmem => h.validCommit hkeys hfollows hmem) (hempty.symm ▸ hcommitIds) (hempty.symm ▸ hcommitLength)
  rw [hempty] at hcommitted
  have hrest : reveals.map revealEntry ++ next.revealed = reveals.map revealEntry := by
    rw [hrevealed]
    exact append_nil _
  have hopens : ∀ reveal ∈ reveals,
      findUser reveal.userId next.committed = some (crypto.sha256 reveal.nonce.store).store := by
    intro reveal hreveal
    have hid := h.committers.mem_iff.mpr (h.revealers.mem_iff.mp (mem_map.mpr ⟨reveal, hreveal, rfl⟩))
    obtain ⟨commit, hcommit, hsameId⟩ := mem_map.mp hid
    refine findUser_of_mem ((hcommitted.map Prod.fst).nodup_iff.mpr hcommitIds) (hcommitted.mem_iff.mpr ?_)
    rw [← h.opens commit hcommit reveal hreveal hsameId, ← hsameId]
    exact mem_map.mpr ⟨commit, hcommit, rfl⟩
  obtain ⟨chain', hok', hended, hhash⟩ := processAll_reveals reveals hreveals hstate hemoji
    (fun reveal hmem => h.validReveal hkeys (hfollows.sameBlock hsame) hmem) hopens (hrest.symm ▸ hrevealIds)
    (by rw [hrest, hrevealLength, hsame.participantKeys, hfollows.participantKeys])
  refine ⟨chain', ?_, hended, ?_⟩
  · simp_all [processAll, roundOf, foldlM_append]
  · rw [hhash, hrest, hsame.lastBlockHash, map_map]
    rfl

end

/-! ## Delivery around the block -/

/-- Messages that are received one after the other. -/
def deliver (crypto : CallCrypto) (chain : CallVerificationChain) (messages : List Bytes) :
    Outcome CallVerificationChain :=
  messages.foldlM (tryApplyBlock crypto) chain

/-- Some messages, the block, and the other messages. -/
def deliverAround (crypto : CallCrypto) (chain : CallVerificationChain) (blockchain : Blockchain)
    (early late : List Bytes) : Outcome CallVerificationChain := do
  let chain ← chain.deliver crypto early
  let chain ← chain.onNewMainBlock crypto blockchain
  chain.deliver crypto late

theorem tryApplyBlock_store (h : broadcast.chainHeight.toInt = chain.height) :
    chain.tryApplyBlock crypto broadcast.store = chain.processBroadcast crypto broadcast := by
  simp_all [tryApplyBlock, ofMessage_store, ok_bind]

theorem deliver_store (h : ∀ broadcast ∈ broadcasts, broadcast.chainHeight.toInt = chain.height)
    (hok : processAll crypto chain broadcasts = .ok chain') :
    chain.deliver crypto (broadcasts.map store) = .ok chain' := by
  induction broadcasts generalizing chain with
  | nil => exact hok
  | cons broadcast broadcasts ih =>
    rw [processAll, foldlM_cons, bind_ok_iff] at hok
    obtain ⟨next, hnext, hok⟩ := hok
    have hsame := (processBroadcast_ok hnext).sameBlock
    rw [map_cons, deliver, foldlM_cons, tryApplyBlock_store (h _ (mem_cons_self ..)), hnext,
      ok_bind]
    refine ih (fun b hb => ?_) hok
    rw [hsame.height]
    exact h b (mem_cons_of_mem _ hb)

/-- The chain with the broadcasts that came before the block. -/
def waitFor (chain : CallVerificationChain) (height : Int) (broadcasts : List GroupBroadcast) : CallVerificationChain :=
  { chain with delayedBroadcasts := Function.update chain.delayedBroadcasts height broadcasts }

theorem deliver_delayed {height : Int} (hdelay : chain.delayAllowed = true)
    (hheight : chain.height < height) (h : ∀ broadcast ∈ broadcasts, broadcast.chainHeight.toInt = height) :
    chain.deliver crypto (broadcasts.map store) =
      .ok (chain.waitFor height (chain.delayedBroadcasts height ++ broadcasts)) := by
  induction broadcasts generalizing chain with
  | nil =>
    rw [append_nil, waitFor, Function.update_eq_self]
    rfl
  | cons broadcast broadcasts ih =>
    have hfirst : chain.tryApplyBlock crypto broadcast.store =
        .ok (chain.waitFor height (chain.delayedBroadcasts height ++ [broadcast])) := by
      rw [tryApplyBlock, ofMessage_store, ok_bind]
      rw [h broadcast (mem_cons_self ..), if_neg (by omega), if_pos hheight, ensure_true hdelay]
      rfl
    have hrest : (chain.waitFor height (chain.delayedBroadcasts height ++ [broadcast])).deliver crypto
        (broadcasts.map store) = _ :=
      ih hdelay hheight fun b hb => h b (mem_cons_of_mem _ hb)
    simpa [deliver, map_cons, foldlM_cons, hfirst, ok_bind, waitFor] using hrest

theorem foldlM_processDelayed_eq (hok : processAll crypto chain broadcasts = .ok chain') :
    broadcasts.foldlM (processDelayed crypto) chain = .ok chain' := by
  induction broadcasts generalizing chain with
  | nil => exact hok
  | cons broadcast broadcasts ih =>
    rw [processAll, foldlM_cons, bind_ok_iff] at hok
    obtain ⟨next, hnext, hok⟩ := hok
    rw [foldlM_cons, processDelayed, hnext, ok_bind]
    exact ih hok

/-- A chain that waits for the block and can delay broadcasts. -/
structure Waits (chain : CallVerificationChain) (blockchain : Blockchain) : Prop where
  delay : chain.delayAllowed = true
  admits : Admits chain blockchain
  none : chain.delayedBroadcasts blockchain.getHeight = []

theorem processAll_append : processAll crypto chain (early ++ late) =
      processAll crypto chain early >>= fun next => processAll crypto next late :=
  foldlM_append

theorem processBroadcast_delayed (h : chain.processBroadcast crypto broadcast = .ok chain')
    (delayed : Int → List GroupBroadcast) :
    { chain with delayedBroadcasts := delayed }.processBroadcast crypto broadcast =
      .ok { chain' with delayedBroadcasts := delayed } := by
  cases broadcast with
  | commit commit =>
    simp only [processBroadcast, processCommit, bind_ok_iff, check_ok_iff, ensure_ok_iff,
      exists_const, pure_def, Outcome.ok.injEq] at h ⊢
    obtain ⟨hhash, hheight, hstate, publicKey, hkey, u, hcheck, hnew, rfl⟩ := h
    exact ⟨hhash, hheight, hstate, publicKey, hkey, u, hcheck, hnew, rfl⟩
  | reveal reveal =>
    have hopens := (processBroadcast_ok h)
    cases hopens with
    | reveal hopens =>
      simp only [processBroadcast, processReveal, hopens.opens, bind_ok_iff, check_ok_iff,
        ensure_ok_iff, exists_const, pure_def, Outcome.ok.injEq] at h ⊢
      obtain ⟨hhash, hheight, hstate, publicKey, hkey, u, hcheck, hnew, hsha, hemoji, rfl⟩ := h
      exact ⟨hhash, hheight, hstate, publicKey, hkey, u, hcheck, hnew, hsha, hemoji, rfl⟩

section

variable {broadcasts : List GroupBroadcast} (h : processAll crypto chain broadcasts = .ok chain')

include h

theorem processAll_delayed (delayed : Int → List GroupBroadcast) :
    processAll crypto { chain with delayedBroadcasts := delayed } broadcasts =
      .ok { chain' with delayedBroadcasts := delayed } := by
  induction broadcasts generalizing chain with
  | nil =>
    cases h
    rfl
  | cons broadcast broadcasts ih =>
    rw [processAll, foldlM_cons, bind_ok_iff] at h
    obtain ⟨next, hnext, h⟩ := h
    rw [processAll, foldlM_cons, processBroadcast_delayed hnext, ok_bind]
    exact ih h

theorem processAll_sameBlock : SameBlock chain chain' := by
  induction broadcasts generalizing chain with
  | nil =>
    cases h
    exact .refl _
  | cons broadcast broadcasts ih =>
    rw [processAll, foldlM_cons, bind_ok_iff] at h
    obtain ⟨next, hnext, h⟩ := h
    exact (processBroadcast_ok hnext).sameBlock.trans (ih h)

end

theorem deliverAround_store (hwaits : Waits chain blockchain)
    (h : ∀ broadcast ∈ early ++ late, broadcast.chainHeight.toInt = blockchain.getHeight)
    (hok : processAll crypto ((chain.waitFor blockchain.getHeight early).reset blockchain) (early ++ late) =
      .ok chain') :
    ∃ delayed, chain.deliverAround crypto blockchain (early.map store) (late.map store) =
      .ok { chain' with delayedBroadcasts := delayed } := by
  rw [processAll_append, bind_ok_iff] at hok
  obtain ⟨next, hearly, hlate⟩ := hok
  have hsame := processAll_sameBlock hearly
  have hheight : next.height = blockchain.getHeight := hsame.height
  have hwaiting : chain.deliver crypto (early.map store) =
      .ok (chain.waitFor blockchain.getHeight early) := by
    rw [deliver_delayed hwaits.delay hwaits.admits.1 fun b hb => h b (mem_append_left _ hb), hwaits.none]
    rfl
  have hblock : (chain.waitFor blockchain.getHeight early).onNewMainBlock crypto blockchain = .ok
      { next with delayedBroadcasts := Function.update next.delayedBroadcasts next.height [] } := by
    have hdelayed : ((chain.waitFor blockchain.getHeight early).reset blockchain).delayedBroadcasts
        ((chain.waitFor blockchain.getHeight early).reset blockchain).height = early :=
      Function.update_self ..
    exact onNewMainBlock_eq hwaits.admits (by rw [hdelayed, foldlM_processDelayed_eq hearly])
  refine ⟨Function.update next.delayedBroadcasts next.height [], ?_⟩
  rw [deliverAround, hwaiting, ok_bind, hblock, ok_bind]
  refine deliver_store (fun b hb => ?_) (processAll_delayed hlate _)
  exact (h b (mem_append_right _ hb)).trans hheight.symm

section

variable {blockchain : Blockchain} {commits : List NonceCommit} {reveals : List NonceReveal}
    (h : Round crypto blockchain commits reveals)

include h

theorem Round.chainHeight
    (hmem : broadcast ∈ roundOf commits reveals) : broadcast.chainHeight.toInt = blockchain.getHeight := by
  rcases mem_append.mp hmem with hmem | hmem
  · obtain ⟨commit, hcommit, rfl⟩ := mem_map.mp hmem
    exact congrArg BitVec.toInt (h.commitOk commit hcommit).1
  · obtain ⟨reveal, hreveal, rfl⟩ := mem_map.mp hmem
    exact congrArg BitVec.toInt (h.revealOk reveal hreveal).1

theorem Round.deliverAround (hcut : early ++ late = roundOf commits reveals) (hwaits : Waits chain blockchain) :
    ∃ chain', chain.deliverAround crypto blockchain (early.map store)
        (late.map store) = .ok chain' ∧ chain'.state = .ended ∧
      chain'.emojiHash = some (emojiOf crypto blockchain.lastBlockHash (reveals.map (·.nonce.store))) := by
  obtain ⟨next, hok, hended, hemoji⟩ := processAll_round hwaits.admits.2 h
  rw [← hcut] at hok
  obtain ⟨delayed, hdeliver⟩ := deliverAround_store hwaits (fun b hb => h.chainHeight (hcut ▸ hb)) hok
  exact ⟨_, hdeliver, hended, hemoji⟩

end

end

/-- The hash depends only on the block and the nonces. Chains that are at the end
for a block and have accepted the same nonce from each participant have the same
hash. And if all commits of a round come in any order, then all reveals in any
order, the block at any place among them, the chain is at the end, with a hash
that does not depend on these orders. -/
theorem same_hash (crypto : CallCrypto) :
    (∀ chain1 chain2 blockchain₁ blockchain₂, Reaches crypto chain1 (some blockchain₁) →
      Reaches crypto chain2 (some blockchain₂) → blockchain₁.getHeight = blockchain₂.getHeight →
      blockchain₁.lastBlockHash = blockchain₂.lastBlockHash →
      blockchain₁.state.groupState.participants = blockchain₂.state.groupState.participants →
      chain1.state = .ended → chain2.state = .ended →
      (∀ p ∈ blockchain₁.state.groupState.participants, chain1.revealsOf p.userId = chain2.revealsOf p.userId) →
      chain1.emojiHash = chain2.emojiHash) ∧
    (∀ blockchain commits₁ commits₂ reveals₁ reveals₂, Round crypto blockchain commits₁ reveals₁ →
      commits₁.Perm commits₂ → reveals₁.Perm reveals₂ →
      ∀ early₁ late₁ early₂ late₂, early₁ ++ late₁ = roundOf commits₁ reveals₁ →
      early₂ ++ late₂ = roundOf commits₂ reveals₂ →
      ∀ chain1 chain2, Waits chain1 blockchain → Waits chain2 blockchain →
      ∃ chain1' chain2', chain1.deliverAround crypto blockchain (early₁.map store) (late₁.map store) = .ok chain1' ∧
        chain2.deliverAround crypto blockchain (early₂.map store) (late₂.map store) = .ok chain2' ∧
        chain1'.state = .ended ∧ chain2'.state = .ended ∧ chain1'.emojiHash.isSome = true ∧
        chain1'.emojiHash = chain2'.emojiHash) := by
  refine ⟨?_, ?_⟩
  · intro chain1 chain2 blockchain₁ blockchain₂ h₁ h₂ _ hhash hparticipants hstate₁ hstate₂ hnonces
    obtain ⟨hstage₁, hfollows₁⟩ := h₁.kept.stage blockchain₁ rfl
    obtain ⟨hstage₂, hfollows₂⟩ := h₂.kept.stage blockchain₂ rfl
    have husers : chain1.users = chain2.users := by
      rw [users, users, hfollows₁.participantKeys, hfollows₂.participantKeys, hparticipants]
    refine hstage₁.emojiHash_eq hstage₂ hstate₁ hstate₂ ?_ husers fun userId hid => ?_
    · rw [hfollows₁.lastBlockHash, hfollows₂.lastBlockHash, hhash]
    · rw [users, hfollows₁.participantKeys] at hid
      obtain ⟨entry, hentry, rfl⟩ := mem_map.mp hid
      obtain ⟨p, hp, rfl⟩ := exists_of_mem_keysOf hentry
      exact hnonces p hp
  · intro blockchain commits₁ commits₂ reveals₁ reveals₂ hround hcommits hreveals early₁ late₁ early₂ late₂ hcut₁ hcut₂
      chain1 chain2 hwaits₁ hwaits₂
    obtain ⟨chain1', hok₁, hended₁, hemoji₁⟩ := hround.deliverAround hcut₁ hwaits₁
    obtain ⟨chain2', hok₂, hended₂, hemoji₂⟩ := (hround.perm hcommits hreveals).deliverAround hcut₂ hwaits₂
    refine ⟨chain1', chain2', hok₁, hok₂, hended₁, hended₂, by rw [hemoji₁]; rfl, ?_⟩
    rw [hemoji₁, hemoji₂, emojiOf_perm (hreveals.map _)]

/-! The first block of the small chain, with two orders: in one the block comes last
but one, in the other one first. -/

open CallEncryption (sampleCallCrypto)
open CallVerification (sampleCommit sampleReveal)

def sampleCommits : List NonceCommit := [sampleCommit 1 5 40, sampleCommit 2 6 41]

def sampleReveals : List NonceReveal := [sampleReveal 1 5 40, sampleReveal 2 6 41]

theorem round_sample : Round sampleCallCrypto sampleChain sampleCommits sampleReveals := by
  refine ⟨?_, ?_, ?_, ?_, ?_, ?_⟩ <;> decide +kernel

theorem waits_sample : Waits { delayAllowed := true } sampleChain :=
  ⟨rfl, by rw [Admits]; decide +kernel, rfl⟩

theorem same_hash_sample : ∃ chain1 chain2, deliverAround sampleCallCrypto { delayAllowed := true } sampleChain
      [(sampleCommit 1 5 40).store, (sampleCommit 2 6 41).store, (sampleReveal 1 5 40).store]
      [(sampleReveal 2 6 41).store] = .ok chain1 ∧
    deliverAround sampleCallCrypto { delayAllowed := true } sampleChain []
      [(sampleCommit 2 6 41).store, (sampleCommit 1 5 40).store, (sampleReveal 2 6 41).store,
        (sampleReveal 1 5 40).store] = .ok chain2 ∧
    chain1.state = .ended ∧ chain2.state = .ended ∧ chain1.emojiHash.isSome = true ∧
      chain1.emojiHash = chain2.emojiHash :=
  (same_hash sampleCallCrypto).2 sampleChain sampleCommits [sampleCommit 2 6 41, sampleCommit 1 5 40] sampleReveals
    [sampleReveal 2 6 41, sampleReveal 1 5 40] round_sample (List.Perm.swap ..) (List.Perm.swap ..)
    [.commit (sampleCommit 1 5 40), .commit (sampleCommit 2 6 41), .reveal (sampleReveal 1 5 40)]
    [.reveal (sampleReveal 2 6 41)] []
    [.commit (sampleCommit 2 6 41), .commit (sampleCommit 1 5 40), .reveal (sampleReveal 2 6 41),
      .reveal (sampleReveal 1 5 40)] rfl rfl _ _ waits_sample waits_sample

end CallVerificationChain

end Tdlib.E2e
