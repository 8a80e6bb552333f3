/-
What the broadcasts of a call do.

For a block every participant commits once and reveals once, in this order, and
what is revealed is what was committed to. The chain keeps for every user what
it accepted (`Ledger`), and its state says how far all of them are (`Stage`).
-/
import Mathlib.Data.List.Induction
import Tdlib.E2e.CallPackets
import Tdlib.E2e.CallVerification

namespace Tdlib.E2e

open List hiding pure_def
open Outcome OrderedMap GroupBroadcast

/-! ## Broadcasts read back -/

theorem fetchBroadcast_store {α : Type} (make : Signature → BitVec 64 → BitVec 32 → UInt256 → UInt256 → α)
    (signature : Signature) (userId : BitVec 64) (chainHeight : BitVec 32) (chainHash nonce : UInt256) (len : Nat) :
    fetchBroadcast make ⟨storeBits 64 signature ++ (storeBits 8 userId ++ (storeBits 4 chainHeight ++
      (chainHash.store ++ nonce.store))), len, none⟩ =
      (make signature userId chainHeight chainHash nonce, ⟨[], len, none⟩) := by
  have hnonce := TrieNode.fetchUInt256_store nonce [] len none
  rw [append_nil] at hnonce
  simp [fetchBroadcast, fetchBits_storeBits (w := 64) (n := 512) rfl, fetchBits_storeBits (w := 8) (n := 64) rfl,
    fetchBits_storeBits (w := 4) (n := 32) rfl, TrieNode.fetchUInt256_store, hnonce]

theorem GroupBroadcast.ofMessage_commit (commit : NonceCommit) : ofMessage commit.store = .ok (.commit commit) := by
  rw [ofMessage, fetch, NonceCommit.store, storeBroadcast, TlParser.new,
    TlParser.fetchInt_append (show TlId.nonceCommit < 256 ^ 4 by decide)]
  dsimp only
  rw [if_pos rfl, fetchBroadcast_store]
  rfl

theorem GroupBroadcast.ofMessage_reveal (reveal : NonceReveal) : ofMessage reveal.store = .ok (.reveal reveal) := by
  rw [ofMessage, fetch, NonceReveal.store, storeBroadcast, TlParser.new,
    TlParser.fetchInt_append (show TlId.nonceReveal < 256 ^ 4 by decide)]
  dsimp only
  rw [if_neg (by decide), if_pos rfl, fetchBroadcast_store]
  rfl

/-- `serialize_boxed`. -/
def GroupBroadcast.store : GroupBroadcast → Bytes
  | .commit c => c.store
  | .reveal r => r.store

theorem GroupBroadcast.ofMessage_store (broadcast : GroupBroadcast) : ofMessage broadcast.store = .ok broadcast := by
  cases broadcast with
  | commit commit => exact ofMessage_commit commit
  | reveal reveal => exact ofMessage_reveal reveal

theorem GroupBroadcast.ofMessage_ne_fatal (message : Bytes) : ofMessage message ≠ .fatal := by
  rw [ofMessage]
  generalize fetch (TlParser.new message) = result
  obtain ⟨broadcast, parser⟩ := result
  cases hstatus : parser.fetchEnd.getStatus with
  | fatal => exact absurd hstatus (TlParser.getStatus_ne_fatal _)
  | ok | error => simp [hstatus]

/-! ## Maps from users -/

section

variable {α : Type} {entries : List (BitVec 64 × α)} {userId : BitVec 64} {value : α}

theorem findUser_eq_none : findUser userId entries = none ↔ userId ∉ entries.map Prod.fst := by
  rw [findUser, Option.map_eq_none_iff, List.find?_eq_none]
  simp only [decide_eq_true_eq, mem_map, not_exists, not_and]

theorem mem_of_findUser (h : findUser userId entries = some value) : (userId, value) ∈ entries := by
  rw [findUser, Option.map_eq_some_iff] at h
  obtain ⟨⟨userId', value'⟩, hfind, rfl⟩ := h
  have hid := List.find?_some hfind
  rw [decide_eq_true_eq] at hid
  exact hid ▸ mem_of_find?_eq_some hfind

theorem exists_findUser (h : userId ∈ entries.map Prod.fst) : ∃ value, findUser userId entries = some value := by
  cases hfind : findUser userId entries with
  | none => exact absurd h (findUser_eq_none.mp hfind)
  | some value => exact ⟨value, rfl⟩

theorem userOrder_ne (h : userId ∉ entries.map Prod.fst) :
    ∀ entry ∈ entries, userOrder entry ≠ userOrder (userId, value) := by
  intro entry hentry heq
  have hid : entry.1 = userId := BitVec.eq_of_toInt_eq heq
  exact h (mem_map.mpr ⟨entry, hentry, hid⟩)

theorem assign_userOrder (h : userId ∉ entries.map Prod.fst) :
    (assign userOrder (userId, value) entries).Perm ((userId, value) :: entries) := by
  rw [assign_eq_emplace (userOrder_ne h)]
  exact emplace_perm (userOrder_ne h)

/-- The entries of a user in a list. -/
def ofUser (userId : BitVec 64) (entries : List (BitVec 64 × α)) : List α :=
  entries.filterMap fun entry => if entry.1 = userId then some entry.2 else none

/-- Where users have one entry each, that is all there is of a user. -/
theorem ofUser_eq (hids : (entries.map Prod.fst).Nodup) (h : (userId, value) ∈ entries) :
    ofUser userId entries = [value] := by
  induction entries with
  | nil => cases h
  | cons entry entries ih =>
    rw [map_cons, nodup_cons] at hids
    rw [ofUser, filterMap_cons]
    rcases mem_cons.mp h with rfl | h
    · have hrest : entries.filterMap (fun entry => if entry.1 = userId then some entry.2 else none) = [] := by
        rw [filterMap_eq_nil_iff]
        intro entry hentry
        exact if_neg fun hid => hids.1 (mem_map.mpr ⟨entry, hentry, hid⟩)
      rw [if_pos rfl, hrest]
    · have hne : entry.1 ≠ userId := by
        intro hid
        exact hids.1 (hid ▸ mem_map.mpr ⟨_, h, rfl⟩)
      rw [if_neg hne]
      exact ih hids.2 h

end

/-- A map from some of the users, filled from the broadcasts that were applied. -/
structure Ledger (users : List (BitVec 64)) (log entries : List (BitVec 64 × Bytes)) : Prop where
  log : entries.Perm log
  ids : (entries.map Prod.fst).Nodup
  known : entries.map Prod.fst ⊆ users

namespace Ledger

variable {users : List (BitVec 64)} {log entries : List (BitVec 64 × Bytes)} {userId : BitVec 64} {value : Bytes}

theorem nil : Ledger users [] [] := ⟨.refl _, nodup_nil, nil_subset _⟩

theorem assign (h : Ledger users log entries) (hknown : userId ∈ users) (hnew : findUser userId entries = none) :
    Ledger users (log ++ [(userId, value)]) (OrderedMap.assign userOrder (userId, value) entries) := by
  have hnot := findUser_eq_none.mp hnew
  have hperm : (OrderedMap.assign userOrder (userId, value) entries).Perm _ := assign_userOrder hnot
  have hids := hperm.map Prod.fst
  refine ⟨?_, hids.nodup_iff.mpr (nodup_cons.mpr ⟨hnot, h.ids⟩), fun id hid => ?_⟩
  · exact hperm.trans ((h.log.cons _).trans (perm_append_singleton ..).symm)
  · rcases mem_cons.mp (hids.mem_iff.mp hid) with rfl | hid
    · exact hknown
    · exact h.known hid

theorem complete (h : Ledger users log entries) (hlength : entries.length = users.length) (hmem : userId ∈ users) :
    userId ∈ entries.map Prod.fst := by
  have hperm := (subperm_of_subset h.ids h.known).perm_of_length_le (by rw [length_map, hlength])
  exact hperm.mem_iff.mpr hmem

theorem ofUser_log (h : Ledger users log entries) (hmem : (userId, value) ∈ entries) : ofUser userId log = [value] := by
  have hperm : (ofUser userId entries).Perm (ofUser userId log) := h.log.filterMap _
  simp_all [ofUser_eq h.ids hmem]

end Ledger

namespace CallVerificationChain

/-! ## One broadcast -/

section

variable {crypto : CallCrypto} {chain chain' : CallVerificationChain}

/-- The users of the block. -/
def users (chain : CallVerificationChain) : List (BitVec 64) := chain.participantKeys.map Prod.fst

theorem participantKey_cases (chain : CallVerificationChain) (userId : BitVec 64) :
    (∃ publicKey, chain.participantKey userId = .ok publicKey ∧
      findUser userId chain.participantKeys = some publicKey) ∨
      ∃ e, chain.participantKey userId = .error e := by
  rw [participantKey]
  cases findUser userId chain.participantKeys with
  | none => exact .inr ⟨_, rfl⟩
  | some publicKey => exact .inl ⟨publicKey, rfl, rfl⟩

variable {broadcast : GroupBroadcast} {userId : BitVec 64} {reveal : NonceReveal} {commit : NonceCommit}
variable {blockchain : Blockchain} {message : Bytes}
variable {publicKey : PublicKey} {p : GroupParticipant}

theorem participantKey_ok (h : chain.participantKey userId = .ok publicKey) : userId ∈ chain.users := by
  rcases chain.participantKey_cases userId with ⟨publicKey', hok, hfind⟩ | ⟨e, he⟩
  · exact mem_map.mpr ⟨_, mem_of_findUser hfind, rfl⟩
  · rw [he] at h
    cases h

/-- What an accepted commit is, and what it changes. -/
structure Commits (chain : CallVerificationChain) (commit : NonceCommit) (chain' : CallVerificationChain) : Prop where
  height : commit.chainHeight.toInt = chain.height
  hash : commit.chainHash = chain.lastBlockHash
  state : chain.state = .commit
  user : commit.userId ∈ chain.users
  fresh : findUser commit.userId chain.committed = none
  next : chain' =
    { chain with
      committed := assign userOrder (commit.userId, commit.nonceHash.store) chain.committed
      state :=
        if (assign userOrder (commit.userId, commit.nonceHash.store) chain.committed).length =
          chain.participantKeys.length then .reveal else chain.state
      applied := chain.applied ++ [.commit commit] }

theorem processCommit_ok (hash : commit.chainHash = chain.lastBlockHash)
    (h : chain.processCommit crypto.toCrypto commit = .ok chain') : Commits chain commit chain' := by
  simp only [processCommit, bind_ok_iff, check_ok_iff, ensure_ok_iff, exists_const,
    pure_def, ok.injEq] at h
  obtain ⟨hheight, hstate, publicKey, hkey, _, -, hfresh, rfl⟩ := h
  exact ⟨hheight, hash, hstate, participantKey_ok hkey, hfresh, rfl⟩

/-- What an accepted reveal is, and what it changes. -/
structure Reveals (crypto : CallCrypto) (chain : CallVerificationChain) (reveal : NonceReveal)
    (chain' : CallVerificationChain) : Prop where
  height : reveal.chainHeight.toInt = chain.height
  hash : reveal.chainHash = chain.lastBlockHash
  state : chain.state = .reveal
  user : reveal.userId ∈ chain.users
  fresh : findUser reveal.userId chain.revealed = none
  opens : findUser reveal.userId chain.committed = some (crypto.sha256 reveal.nonce.store).store
  next : chain' =
    { chain with
      revealed := assign userOrder (reveal.userId, reveal.nonce.store) chain.revealed
      emojiHash :=
        if (assign userOrder (reveal.userId, reveal.nonce.store) chain.revealed).length =
          chain.participantKeys.length
        then some (emojiOf crypto chain.lastBlockHash
          ((assign userOrder (reveal.userId, reveal.nonce.store) chain.revealed).map Prod.snd))
        else chain.emojiHash
      state :=
        if (assign userOrder (reveal.userId, reveal.nonce.store) chain.revealed).length =
          chain.participantKeys.length then .ended else chain.state
      applied := chain.applied ++ [.reveal reveal] }

theorem processReveal_ok (hash : reveal.chainHash = chain.lastBlockHash)
    (h : chain.processReveal crypto reveal = .ok chain') : Reveals crypto chain reveal chain' := by
  simp only [processReveal, bind_ok_iff, check_ok_iff, ensure_ok_iff, exists_const] at h
  obtain ⟨hheight, hstate, publicKey, hkey, _, -, hfresh, h⟩ := h
  cases hcommitted : findUser reveal.userId chain.committed with
  | none =>
    rw [hcommitted] at h
    cases h
  | some expected =>
    simp only [hcommitted, bind_ok_iff, check_ok_iff, ensure_ok_iff, exists_const,
      pure_def, ok.injEq] at h
    obtain ⟨hopens, -, rfl⟩ := h
    exact ⟨hheight, hash, hstate, participantKey_ok hkey, hfresh, by rw [hcommitted, hopens], rfl⟩

/-- What an accepted broadcast does. -/
inductive Processes (crypto : CallCrypto) (chain : CallVerificationChain) :
    GroupBroadcast → CallVerificationChain → Prop
  | commit {commit : NonceCommit} {chain' : CallVerificationChain} :
      Commits chain commit chain' → Processes crypto chain (.commit commit) chain'
  | reveal {reveal : NonceReveal} {chain' : CallVerificationChain} :
      Reveals crypto chain reveal chain' → Processes crypto chain (.reveal reveal) chain'

theorem processBroadcast_ok (h : chain.processBroadcast crypto broadcast = .ok chain') :
    Processes crypto chain broadcast chain' := by
  cases broadcast with
  | commit commit =>
    simp only [processBroadcast, bind_ok_iff, ensure_ok_iff, exists_const] at h
    exact .commit (processCommit_ok h.1 h.2)
  | reveal reveal =>
    simp only [processBroadcast, bind_ok_iff, ensure_ok_iff, exists_const] at h
    exact .reveal (processReveal_ok h.1 h.2)

/-- The block, its participants and the settings stay as they are. -/
structure SameBlock (chain chain' : CallVerificationChain) : Prop where
  height : chain'.height = chain.height
  lastBlockHash : chain'.lastBlockHash = chain.lastBlockHash
  participantKeys : chain'.participantKeys = chain.participantKeys
  delayAllowed : chain'.delayAllowed = chain.delayAllowed
  maySkip : chain'.maySkipSignaturesValidation = chain.maySkipSignaturesValidation
  delayed : chain'.delayedBroadcasts = chain.delayedBroadcasts

theorem SameBlock.refl (chain : CallVerificationChain) : SameBlock chain chain := ⟨rfl, rfl, rfl, rfl, rfl, rfl⟩

theorem SameBlock.trans {chain'' : CallVerificationChain} (h : SameBlock chain chain') (h' : SameBlock chain' chain'') :
    SameBlock chain chain'' :=
  ⟨h'.1.trans h.1, h'.2.trans h.2, h'.3.trans h.3, h'.4.trans h.4, h'.5.trans h.5, h'.6.trans h.6⟩

theorem Processes.sameBlock (h : Processes crypto chain broadcast chain') : SameBlock chain chain' := by
  cases h with
  | commit h =>
    rw [h.next]
    exact ⟨rfl, rfl, rfl, rfl, rfl, rfl⟩
  | reveal h =>
    rw [h.next]
    exact ⟨rfl, rfl, rfl, rfl, rfl, rfl⟩

theorem Processes.state_ne_commit (h : Processes crypto chain broadcast chain')
    (hstate : chain.state ≠ .commit) : chain'.state ≠ .commit := by
  cases h with
  | commit h => exact absurd h.state hstate
  | reveal h =>
    rw [h.next]
    split
    · simp
    · exact hstate

/-! ## The stages of a block -/

/-- How far the participants are, and that the chain knows it. -/
def PhaseOk (crypto : CallCrypto) (chain : CallVerificationChain) : Prop :=
  match chain.state with
  | .commit => chain.revealed = [] ∧ chain.emojiHash = none
  | .reveal => chain.committed.length = chain.users.length ∧ chain.emojiHash = none
  | .ended => chain.committed.length = chain.users.length ∧ chain.revealed.length = chain.users.length ∧
      chain.emojiHash = some (emojiOf crypto chain.lastBlockHash (chain.revealed.map Prod.snd))

/-- What holds from the first block on. -/
structure Stage (crypto : CallCrypto) (chain : CallVerificationChain) : Prop where
  applied : ∀ broadcast ∈ chain.applied,
    broadcast.chainHeight.toInt = chain.height ∧ broadcast.chainHash = chain.lastBlockHash
  committed : Ledger chain.users (chain.applied.filterMap commit?) chain.committed
  revealed : Ledger chain.users (chain.applied.filterMap reveal?) chain.revealed
  opens : ∀ userId nonce, (userId, nonce) ∈ chain.revealed → (userId, (crypto.sha256 nonce).store) ∈ chain.committed
  phase : PhaseOk crypto chain

theorem length_users (chain : CallVerificationChain) : chain.users.length = chain.participantKeys.length :=
  length_map _

theorem Stage.commits (h : Stage crypto chain) (hstep : Commits chain commit chain') : Stage crypto chain' := by
  have hphase := h.phase
  rw [PhaseOk, hstep.state] at hphase
  obtain ⟨hrevealed, hemoji⟩ := hphase
  have hcommitted : Ledger chain.users _ (assign userOrder (commit.userId, commit.nonceHash.store) _) :=
    h.committed.assign hstep.user hstep.fresh
  rw [hstep.next]
  refine ⟨?_, ?_, ?_, ?_, ?_⟩
  · exact forall_mem_append.mpr ⟨h.applied, forall_mem_singleton.mpr ⟨hstep.height, hstep.hash⟩⟩
  · rw [filterMap_append]
    exact hcommitted
  · rw [filterMap_append]
    change Ledger chain.users (chain.applied.filterMap reveal? ++ []) chain.revealed
    rw [append_nil]
    exact h.revealed
  · intro userId nonce hmem
    rw [hrevealed] at hmem
    cases hmem
  · by_cases hall : (assign userOrder (commit.userId, commit.nonceHash.store) chain.committed).length =
        chain.participantKeys.length
    · simp only [if_pos hall]
      exact ⟨hall.trans chain.length_users.symm, hemoji⟩
    · simp only [if_neg hall, hstep.state]
      exact ⟨hrevealed, hemoji⟩

theorem Stage.reveals (h : Stage crypto chain) (hstep : Reveals crypto chain reveal chain') : Stage crypto chain' := by
  have hphase := h.phase
  rw [PhaseOk, hstep.state] at hphase
  obtain ⟨hcomplete, hemoji⟩ := hphase
  have hrevealed : Ledger chain.users _ (assign userOrder (reveal.userId, reveal.nonce.store) _) :=
    h.revealed.assign hstep.user hstep.fresh
  rw [hstep.next]
  refine ⟨?_, ?_, ?_, ?_, ?_⟩
  · exact forall_mem_append.mpr ⟨h.applied, forall_mem_singleton.mpr ⟨hstep.height, hstep.hash⟩⟩
  · rw [filterMap_append]
    change Ledger chain.users (chain.applied.filterMap commit? ++ []) chain.committed
    rw [append_nil]
    exact h.committed
  · rw [filterMap_append]
    exact hrevealed
  · intro userId nonce hmem
    have hmem := (assign_userOrder (findUser_eq_none.mp hstep.fresh)).mem_iff.mp hmem
    rcases mem_cons.mp hmem with heq | hmem
    · cases heq
      exact mem_of_findUser hstep.opens
    · exact h.opens userId nonce hmem
  · rw [PhaseOk]
    by_cases hall : (assign userOrder (reveal.userId, reveal.nonce.store) chain.revealed).length =
        chain.participantKeys.length
    · simp only [if_pos hall]
      exact ⟨hcomplete, hall.trans chain.length_users.symm, trivial⟩
    · simp only [if_neg hall, hstep.state]
      exact ⟨hcomplete, hemoji⟩

theorem Stage.processes (h : Stage crypto chain)
    (hstep : Processes crypto chain broadcast chain') : Stage crypto chain' := by
  cases hstep with
  | commit hstep => exact h.commits hstep
  | reveal hstep => exact h.reveals hstep

theorem Stage.reset (blockchain : Blockchain) : Stage crypto (chain.reset blockchain) :=
  ⟨(fun _ hmem => nomatch hmem), .nil, .nil, (fun _ _ hmem => nomatch hmem), rfl, rfl⟩

theorem Stage.exists_commit (h : Stage crypto chain) (hstate : chain.state ≠ .commit)
    (hmem : userId ∈ chain.users) : ∃ nonceHash, (userId, nonceHash) ∈ chain.committed := by
  have hlength : chain.committed.length = chain.users.length := by
    have hphase := h.phase
    rw [PhaseOk] at hphase
    cases hs : chain.state with
    | commit => exact absurd hs hstate
    | reveal => exact (hs ▸ hphase).1
    | ended => exact (hs ▸ hphase).1
  obtain ⟨entry, hentry, hid⟩ := mem_map.mp (h.committed.complete hlength hmem)
  exact ⟨entry.2, hid ▸ hentry⟩

theorem Stage.exists_reveal (h : Stage crypto chain) (hstate : chain.state = .ended)
    (hmem : userId ∈ chain.users) : ∃ nonce, (userId, nonce) ∈ chain.revealed := by
  have hphase := h.phase
  rw [PhaseOk, hstate] at hphase
  obtain ⟨entry, hentry, hid⟩ := mem_map.mp (h.revealed.complete hphase.2.1 hmem)
  exact ⟨entry.2, hid ▸ hentry⟩

theorem Stage.emojiHash_isSome_iff (h : Stage crypto chain) : chain.emojiHash.isSome = true ↔ chain.state = .ended := by
  have hphase := h.phase
  rw [PhaseOk] at hphase
  cases hs : chain.state with
  | commit =>
    rw [hs] at hphase
    simp [hphase.2]
  | reveal =>
    rw [hs] at hphase
    simp [hphase.2]
  | ended =>
    rw [hs] at hphase
    simp [hphase.2.2]

/-! ## The assertions -/

theorem checkBroadcast_ne_fatal {crypto : Crypto} {toSign : Bytes} {signature : Signature} :
    chain.checkBroadcast crypto publicKey toSign signature ≠ .fatal := by
  rw [checkBroadcast, verifySignature]
  split
  · simp
  · split <;> simp

theorem participantKey_ne_fatal (chain : CallVerificationChain) (userId : BitVec 64) :
    chain.participantKey userId ≠ .fatal := by
  rw [participantKey]
  split <;> simp

/-- What the assertions need: while reveals are accepted, every user has
committed and there is no hash yet. -/
def Asserts (chain : CallVerificationChain) : Prop :=
  chain.state = .reveal →
    chain.emojiHash = none ∧ ∀ userId ∈ chain.users, ∃ nonceHash, findUser userId chain.committed = some nonceHash

theorem Stage.asserts (h : Stage crypto chain) : Asserts chain := by
  intro hstate
  have hphase := h.phase
  rw [PhaseOk, hstate] at hphase
  refine ⟨hphase.2, fun userId hmem => ?_⟩
  exact exists_findUser (h.committed.complete hphase.1 hmem)

theorem processCommit_ne_fatal (hheight : commit.chainHeight.toInt = chain.height) :
    chain.processCommit crypto.toCrypto commit ≠ .fatal := by
  rw [processCommit, check_true hheight, ok_bind]
  refine bind_ne_fatal (ensure_ne_fatal _ _) fun _ _ => ?_
  refine bind_ne_fatal (participantKey_ne_fatal _ _) fun publicKey _ => ?_
  refine bind_ne_fatal checkBroadcast_ne_fatal fun _ _ => ?_
  refine bind_ne_fatal (ensure_ne_fatal _ _) fun _ _ => ?_
  simp

theorem processReveal_ne_fatal (hasserts : Asserts chain)
    (hheight : reveal.chainHeight.toInt = chain.height) : chain.processReveal crypto reveal ≠ .fatal := by
  rw [processReveal, check_true hheight, ok_bind]
  refine bind_ne_fatal (ensure_ne_fatal _ _) fun _ hstate => ?_
  obtain ⟨hemoji, hcommitted⟩ := hasserts (ensure_ok_iff.mp hstate)
  refine bind_ne_fatal (participantKey_ne_fatal _ _) fun publicKey hkey => ?_
  refine bind_ne_fatal checkBroadcast_ne_fatal fun _ _ => ?_
  refine bind_ne_fatal (ensure_ne_fatal _ _) fun _ _ => ?_
  obtain ⟨nonceHash, hfind⟩ := hcommitted _ (participantKey_ok hkey)
  simp only [hfind]
  refine bind_ne_fatal (ensure_ne_fatal _ _) fun _ _ => ?_
  rw [check_true hemoji, ok_bind]
  simp

theorem processBroadcast_ne_fatal (hasserts : Asserts chain)
    (hheight : broadcast.chainHeight.toInt = chain.height) : chain.processBroadcast crypto broadcast ≠ .fatal := by
  cases broadcast with
  | commit commit =>
    exact bind_ne_fatal (ensure_ne_fatal _ _) fun _ _ => processCommit_ne_fatal hheight
  | reveal reveal =>
    exact bind_ne_fatal (ensure_ne_fatal _ _) fun _ _ => processReveal_ne_fatal hasserts hheight

/-! ## Runs of the chain -/

/-- Broadcasts that wait for a block are of its height. -/
def Delays (delayed : Int → List GroupBroadcast) : Prop :=
  ∀ height, ∀ broadcast ∈ delayed height, broadcast.chainHeight.toInt = height

theorem Delays.update {delayed : Int → List GroupBroadcast} {height : Int} {broadcasts : List GroupBroadcast}
    (h : Delays delayed) (hnew : ∀ broadcast ∈ broadcasts, broadcast.chainHeight.toInt = height) :
    Delays (Function.update delayed height broadcasts) := by
  intro height' broadcast hmem
  by_cases heq : height' = height
  · simp_all
  · rw [Function.update_of_ne heq] at hmem
    exact h height' broadcast hmem

/-- The broadcasts that waited never abort, whatever they are. -/
theorem foldlM_processDelayed (broadcasts : List GroupBroadcast) (h : Stage crypto chain)
    (hheights : ∀ broadcast ∈ broadcasts, broadcast.chainHeight.toInt = chain.height) :
    ∃ chain', broadcasts.foldlM (processDelayed crypto) chain = .ok chain' ∧ Stage crypto chain' ∧
      SameBlock chain chain' := by
  induction broadcasts generalizing chain with
  | nil => exact ⟨chain, rfl, h, .refl chain⟩
  | cons broadcast broadcasts ih =>
    have hheight := hheights broadcast (mem_cons_self ..)
    have hrest := fun b hb => hheights b (mem_cons_of_mem broadcast hb)
    rw [foldlM_cons]
    cases hprocess : chain.processBroadcast crypto broadcast with
    | fatal => exact absurd hprocess (processBroadcast_ne_fatal h.asserts hheight)
    | error e =>
      -- It is logged and the next one is tried.
      rw [processDelayed, hprocess]
      exact ih h hrest
    | ok next =>
      have hstep := processBroadcast_ok hprocess
      have hsame := hstep.sameBlock
      rw [processDelayed, hprocess]
      obtain ⟨chain', hfold, hstage, hsame'⟩ := ih (h.processes hstep) (hsame.height ▸ hrest)
      exact ⟨chain', hfold, hstage, hsame.trans hsame'⟩

/-- The chain is at this block. -/
structure Follows (chain : CallVerificationChain) (blockchain : Blockchain) : Prop where
  height : chain.height = blockchain.getHeight
  lastBlockHash : chain.lastBlockHash = blockchain.lastBlockHash
  participantKeys : chain.participantKeys = keysOf blockchain.state.groupState.participants

theorem Follows.sameBlock (h : Follows chain blockchain) (hsame : SameBlock chain chain') : Follows chain' blockchain :=
  ⟨hsame.height.trans h.height, hsame.lastBlockHash.trans h.lastBlockHash,
    hsame.participantKeys.trans h.participantKeys⟩

/-- What a run keeps, at a block. Before the first block nothing is accepted. -/
structure Kept (crypto : CallCrypto) (chain : CallVerificationChain) (block : Option Blockchain) : Prop where
  delays : Delays chain.delayedBroadcasts
  fresh : block = none → chain.state = .ended ∧ chain.emojiHash = none
  stage : ∀ blockchain, block = some blockchain → Stage crypto chain ∧ Follows chain blockchain

section

variable {block : Option Blockchain}

theorem Kept.settings (h : Kept crypto chain block) {delayed : Int → List GroupBroadcast} (hdelays : Delays delayed)
    (delayAllowed maySkipSignaturesValidation : Bool) :
    Kept crypto { chain with delayAllowed, maySkipSignaturesValidation, delayedBroadcasts := delayed } block := by
  refine ⟨hdelays, h.fresh, fun blockchain hblock => ?_⟩
  obtain ⟨hstage, hfollows⟩ := h.stage blockchain hblock
  exact ⟨{ hstage with }, { hfollows with }⟩

theorem Kept.asserts (h : Kept crypto chain block) : Asserts chain := by
  cases hblock : block with
  | none =>
    intro hstate
    rw [(h.fresh hblock).1] at hstate
    cases hstate
  | some blockchain => exact (h.stage blockchain hblock).1.asserts

theorem Processes.not_ended (h : Processes crypto chain broadcast chain') : chain.state ≠ .ended := by
  cases h with
  | commit h => simp [h.state]
  | reveal h => simp [h.state]

theorem Kept.processes (h : Kept crypto chain block)
    (hstep : Processes crypto chain broadcast chain') : Kept crypto chain' block := by
  have hsame := hstep.sameBlock
  refine ⟨hsame.delayed ▸ h.delays, fun hblock => ?_, fun blockchain hblock => ?_⟩
  · exact absurd (h.fresh hblock).1 hstep.not_ended
  · obtain ⟨hstage, hfollows⟩ := h.stage blockchain hblock
    exact ⟨hstage.processes hstep, hfollows.sameBlock hsame⟩

/-- A new block has to be higher and its participants different users. -/
def Admits (chain : CallVerificationChain) (blockchain : Blockchain) : Prop :=
  chain.height < blockchain.getHeight ∧
    (keysOf blockchain.state.groupState.participants).length = blockchain.state.groupState.participants.length

theorem onNewMainBlock_eq (hadmits : Admits chain blockchain)
    (hfold : ((chain.reset blockchain).delayedBroadcasts (chain.reset blockchain).height).foldlM (processDelayed crypto)
    (chain.reset blockchain) = .ok chain') :
    chain.onNewMainBlock crypto blockchain = .ok
      { chain' with delayedBroadcasts := Function.update chain'.delayedBroadcasts chain'.height [] } := by
  have hkeys : (chain.reset blockchain).participantKeys.length = blockchain.state.groupState.participants.length :=
    hadmits.2
  simp [onNewMainBlock, check_true hadmits.1, ok_bind, check_true hkeys, hfold]

theorem onNewMainBlock_cases (h : Kept crypto chain block) (blockchain : Blockchain) :
    (chain.onNewMainBlock crypto blockchain = .fatal ∧ ¬Admits chain blockchain) ∨
      Admits chain blockchain ∧
        ∃ chain', chain.onNewMainBlock crypto blockchain = .ok chain' ∧ Kept crypto chain' (some blockchain) := by
  by_cases hheight : chain.height < blockchain.getHeight
  · by_cases hkeys : (chain.reset blockchain).participantKeys.length =
        blockchain.state.groupState.participants.length
    · obtain ⟨chain', hfold, hstage, hsame⟩ := foldlM_processDelayed
        ((chain.reset blockchain).delayedBroadcasts (chain.reset blockchain).height)
        (Stage.reset blockchain) (h.delays _)
      have hkept : Kept crypto chain' (some blockchain) := by
        refine ⟨hsame.delayed ▸ h.delays, (fun hblock => nomatch hblock), fun blockchain' hblock => ?_⟩
        cases hblock
        exact ⟨hstage, Follows.sameBlock ⟨rfl, rfl, rfl⟩ hsame⟩
      have hdelays : Delays (Function.update chain'.delayedBroadcasts chain'.height []) :=
        hkept.delays.update fun _ hmem => nomatch hmem
      have hadmits : Admits chain blockchain := ⟨hheight, hkeys⟩
      exact .inr ⟨hadmits, _, onNewMainBlock_eq hadmits hfold, hkept.settings hdelays _ _⟩
    · refine .inl ⟨?_, fun hadmits => hkeys hadmits.2⟩
      rw [onNewMainBlock, check_true hheight, ok_bind]
      dsimp only
      rw [check, if_neg hkeys, fatal_bind]
  · refine .inl ⟨?_, fun hadmits => hheight hadmits.1⟩
    rw [onNewMainBlock, check, if_neg hheight, fatal_bind]

/-- What a message does. -/
inductive Receives (crypto : CallCrypto) (chain : CallVerificationChain) : CallVerificationChain → Prop
  | old : Receives crypto chain chain
  | delayed (broadcast : GroupBroadcast) : Receives crypto chain
      { chain with
        delayedBroadcasts := Function.update chain.delayedBroadcasts broadcast.chainHeight.toInt
          (chain.delayedBroadcasts broadcast.chainHeight.toInt ++ [broadcast]) }
  | processed {broadcast : GroupBroadcast} {chain' : CallVerificationChain} :
      Processes crypto chain broadcast chain' → Receives crypto chain chain'

theorem tryApplyBlock_ok (h : chain.tryApplyBlock crypto message = .ok chain') : Receives crypto chain chain' := by
  rw [tryApplyBlock, bind_ok_iff] at h
  obtain ⟨broadcast, -, h⟩ := h
  dsimp only at h
  split at h
  · cases h
    exact .old
  · split at h
    · rw [bind_ok_iff] at h
      obtain ⟨_, -, h⟩ := h
      cases h
      exact .delayed broadcast
    · exact .processed (processBroadcast_ok h)

theorem tryApplyBlock_ne_fatal (h : Kept crypto chain block) (message : Bytes) :
    chain.tryApplyBlock crypto message ≠ .fatal := by
  refine bind_ne_fatal (ofMessage_ne_fatal message) fun broadcast _ => ?_
  dsimp only
  split
  · simp
  · split
    · exact bind_ne_fatal (ensure_ne_fatal _ _) fun _ _ => by simp
    · exact processBroadcast_ne_fatal h.asserts (by omega)

theorem Kept.receives (h : Kept crypto chain block) (hstep : Receives crypto chain chain') :
    Kept crypto chain' block := by
  cases hstep with
  | old => exact h
  | processed hstep => exact h.processes hstep
  | delayed broadcast =>
    refine h.settings (h.delays.update fun b hmem => ?_) _ _
    rcases mem_append.mp hmem with hmem | hmem
    · exact h.delays _ b hmem
    · rw [mem_singleton.mp hmem]

/-- A run of the chain, and the block it is at. -/
inductive Reaches (crypto : CallCrypto) : CallVerificationChain → Option Blockchain → Prop
  | start : Reaches crypto {} none
  | allowDelay {chain : CallVerificationChain} {block : Option Blockchain} : Reaches crypto chain block →
      Reaches crypto { chain with delayAllowed := true } block
  | allowSkip {chain : CallVerificationChain} {block : Option Blockchain} : Reaches crypto chain block →
      Reaches crypto { chain with maySkipSignaturesValidation := true } block
  | block {chain chain' : CallVerificationChain} {block : Option Blockchain} {blockchain : Blockchain} :
      Reaches crypto chain block → chain.onNewMainBlock crypto blockchain = .ok chain' →
      Reaches crypto chain' (some blockchain)
  | broadcast {chain chain' : CallVerificationChain} {block : Option Blockchain} {message : Bytes} :
      Reaches crypto chain block → chain.tryApplyBlock crypto message = .ok chain' → Reaches crypto chain' block

theorem Reaches.kept (h : Reaches crypto chain block) : Kept crypto chain block := by
  induction h with
  | start => exact ⟨(fun _ _ hmem => nomatch hmem), (fun _ => ⟨rfl, rfl⟩), (fun _ hblock => nomatch hblock)⟩
  | allowDelay _ ih | allowSkip _ ih => exact ih.settings ih.delays _ _
  | block _ hstep ih =>
    rcases onNewMainBlock_cases ih _ with ⟨hfatal, -⟩ | ⟨-, next, hok, hkept⟩
    · rw [hstep] at hfatal
      cases hfatal
    · rw [hstep] at hok
      cases hok
      exact hkept
  | broadcast _ hstep ih => exact ih.receives (tryApplyBlock_ok hstep)

end

/-! ## The users of a block -/

theorem keysOf_append (participants : List GroupParticipant) (p : GroupParticipant) :
    keysOf (participants ++ [p]) = emplace userOrder (p.userId, p.publicKey) (keysOf participants) := by
  rw [keysOf, foldl_append]
  rfl

theorem mem_keysOf {participants : List GroupParticipant} (h : p ∈ participants) :
    p.userId ∈ (keysOf participants).map Prod.fst := by
  induction participants using List.reverseRecOn with
  | nil => cases h
  | append_singleton participants q ih =>
    rw [keysOf_append]
    have hkey : ∃ entry ∈ emplace userOrder (q.userId, q.publicKey) (keysOf participants),
        userOrder entry = p.userId.toInt := by
      rw [exists_emplace]
      rcases mem_append.mp h with h | h
      · obtain ⟨entry, hentry, hid⟩ := mem_map.mp (ih h)
        exact .inr ⟨entry, hentry, congrArg BitVec.toInt hid⟩
      · rw [mem_singleton.mp h]
        exact .inl rfl
    obtain ⟨entry, hentry, hid⟩ := hkey
    exact mem_map.mpr ⟨entry, hentry, BitVec.eq_of_toInt_eq hid⟩

theorem Follows.mem_users (h : Follows chain blockchain)
    (hmem : p ∈ blockchain.state.groupState.participants) : p.userId ∈ chain.users := by
  rw [users, h.participantKeys]
  exact mem_keysOf hmem

/-- The commits of a user that were accepted for the block. -/
def commitsOf (chain : CallVerificationChain) (userId : BitVec 64) : List Bytes :=
  ofUser userId (chain.applied.filterMap commit?)

/-- The nonces of a user that were accepted for the block. -/
def revealsOf (chain : CallVerificationChain) (userId : BitVec 64) : List Bytes :=
  ofUser userId (chain.applied.filterMap reveal?)

theorem Stage.commitsOf_eq (h : Stage crypto chain) (hstate : chain.state ≠ .commit)
    (hmem : userId ∈ chain.users) : ∃ nonceHash, chain.commitsOf userId = [nonceHash] := by
  obtain ⟨nonceHash, hentry⟩ := h.exists_commit hstate hmem
  exact ⟨nonceHash, h.committed.ofUser_log hentry⟩

theorem Stage.revealsOf_eq (h : Stage crypto chain) (hstate : chain.state = .ended) (hmem : userId ∈ chain.users) :
    ∃ nonce, chain.revealsOf userId = [nonce] ∧ chain.commitsOf userId = [(crypto.sha256 nonce).store] := by
  obtain ⟨nonce, hentry⟩ := h.exists_reveal hstate hmem
  exact ⟨nonce, h.revealed.ofUser_log hentry, h.committed.ofUser_log (h.opens userId nonce hentry)⟩

end

end CallVerificationChain

/-! ## Runs of a participant -/

namespace CallVerification

open CallVerificationChain

section

variable {crypto : CallCrypto} {v v' : CallVerification} {blockchain : Blockchain}

/-- A run of a participant, and the block it is at. -/
inductive Reachable (crypto : CallCrypto) : CallVerification → Blockchain → Prop
  | create {v : CallVerification} {blockchain : Blockchain} {userId : BitVec 64} {privateKey : PrivateKey}
      {nonce : UInt256} : create crypto userId privateKey blockchain nonce = .ok v → Reachable crypto v blockchain
  | block {v v' : CallVerification} {blockchain blockchain' : Blockchain} {nonce : UInt256} :
      Reachable crypto v blockchain → v.onNewMainBlock crypto blockchain' nonce = .ok v' →
      Reachable crypto v' blockchain'
  | receive {v v' : CallVerification} {blockchain : Blockchain} {message : Bytes} :
      Reachable crypto v blockchain → v.receiveInboundMessage crypto message = .ok v' → Reachable crypto v' blockchain
  | pull {v : CallVerification} {blockchain : Blockchain} :
      Reachable crypto v blockchain → Reachable crypto v.pullOutboundMessages.1 blockchain

/-- What a participant keeps: it has sent its reveal only past the commits. -/
structure Own (crypto : CallCrypto) (v : CallVerification) (blockchain : Blockchain) : Prop where
  reaches : Reaches crypto v.chain (some blockchain)
  height : v.height = blockchain.lastBlock.height
  lastBlockHash : v.lastBlockHash = blockchain.lastBlockHash
  sent : v.sentReveal = true → v.chain.state ≠ .commit
  pending : ∀ message ∈ v.pendingOutboundMessages, (∃ commit : NonceCommit, message = commit.store) ∨
    v.sentReveal = true ∧ ∃ signature, message = { v.ownReveal with signature }.store

theorem Own.onNewMainBlock {nonce : UInt256} {block : Option Blockchain} (hreaches : Reaches crypto v.chain block)
    (h : v.onNewMainBlock crypto blockchain nonce = .ok v') : Own crypto v' blockchain := by
  simp only [CallVerification.onNewMainBlock, bind_ok_iff, pure_def, ok.injEq] at h
  obtain ⟨signature, -, chain, hchain, rfl⟩ := h
  refine ⟨hreaches.block hchain, rfl, rfl, (fun h => nomatch h), fun message hmem => .inl ?_⟩
  exact ⟨_, mem_singleton.mp hmem⟩

theorem state_ne_commit_of_receives {chain chain' : CallVerificationChain} (h : Receives crypto chain chain')
    (hstate : chain.state ≠ .commit) : chain'.state ≠ .commit := by
  cases h with
  | old | delayed => exact hstate
  | processed h => exact h.state_ne_commit hstate

theorem Own.sendReveal (h : Own crypto v blockchain) (hsend : v.sendReveal crypto = .ok v') :
    Own crypto v' blockchain := by
  rw [CallVerification.sendReveal] at hsend
  split at hsend
  · next hreveal =>
    simp only [bind_ok_iff, check_ok_iff, exists_const, pure_def, ok.injEq] at hsend
    obtain ⟨signature, -, -, rfl⟩ := hsend
    refine ⟨h.reaches, h.height, h.lastBlockHash, fun _ => ?_, fun message hmem => .inr ⟨rfl, signature, ?_⟩⟩
    · simp [hreveal.1]
    · exact mem_singleton.mp hmem
  · cases hsend
    exact h

theorem Own.receive {message : Bytes} (h : Own crypto v blockchain)
    (hreceive : v.receiveInboundMessage crypto message = .ok v') : Own crypto v' blockchain := by
  rw [receiveInboundMessage, bind_ok_iff] at hreceive
  obtain ⟨chain, hchain, hsend⟩ := hreceive
  have hstep := tryApplyBlock_ok hchain
  have hown : Own crypto { v with chain } blockchain :=
    ⟨h.reaches.broadcast hchain, h.height, h.lastBlockHash,
      fun hsent => state_ne_commit_of_receives hstep (h.sent hsent),
      h.pending⟩
  exact hown.sendReveal hsend

theorem Reachable.own (h : Reachable crypto v blockchain) : Own crypto v blockchain := by
  induction h with
  | create h => exact Own.onNewMainBlock Reaches.start.allowDelay h
  | block _ h ih => exact Own.onNewMainBlock ih.reaches h
  | receive _ h ih => exact ih.receive h
  | pull _ ih => exact ⟨ih.reaches, ih.height, ih.lastBlockHash, ih.sent, (fun _ hmem => nomatch hmem)⟩

/-- A reveal among the messages is the participant's own one, past the commits. -/
theorem Own.reveal {message : Bytes} {reveal : NonceReveal} (h : Own crypto v blockchain)
    (hmem : message ∈ v.pendingOutboundMessages) (hread : ofMessage message = .ok (.reveal reveal)) :
    v.chain.state ≠ .commit ∧ reveal.chainHeight = blockchain.lastBlock.height ∧
      reveal.chainHash = blockchain.lastBlockHash := by
  rcases h.pending message hmem with ⟨commit, rfl⟩ | ⟨hsent, signature, rfl⟩
  · rw [ofMessage_commit] at hread
    cases hread
  · rw [ofMessage_reveal] at hread
    cases hread
    exact ⟨h.sent hsent, h.height, h.lastBlockHash⟩

end

/-- Commit and reveal. In every run from the first block on, the reveal that a
participant sends is for the block it is at and comes when it has accepted one
commit of every participant of the block; the hash is there exactly at the end,
when there is also one nonce of every participant, the one it committed to. In
every run, also before the first block, the assertions hold: a message never
aborts and a block aborts only if it is not admitted. -/
theorem commit_reveal (crypto : CallCrypto) :
    (∀ v blockchain, Reachable crypto v blockchain → Reaches crypto v.chain (some blockchain) ∧
      ∀ message ∈ v.pullOutboundMessages.2, ∀ reveal, ofMessage message = .ok (.reveal reveal) →
        reveal.chainHeight = blockchain.lastBlock.height ∧ reveal.chainHash = blockchain.lastBlockHash ∧
        ∀ p ∈ blockchain.state.groupState.participants, ∃ nonceHash, v.chain.commitsOf p.userId = [nonceHash]) ∧
    (∀ chain blockchain, Reaches crypto chain (some blockchain) →
      (∀ broadcast ∈ chain.applied, broadcast.chainHeight = blockchain.lastBlock.height ∧
        broadcast.chainHash = blockchain.lastBlockHash) ∧
      (chain.emojiHash.isSome = true ↔ chain.state = .ended) ∧
      (chain.state = .ended → ∀ p ∈ blockchain.state.groupState.participants, ∃ nonce,
        chain.revealsOf p.userId = [nonce] ∧ chain.commitsOf p.userId = [(crypto.sha256 nonce).store])) ∧
    (∀ chain block, Reaches crypto chain block →
      (∀ message, chain.tryApplyBlock crypto message ≠ .fatal) ∧
      ∀ blockchain, Admits chain blockchain → chain.onNewMainBlock crypto blockchain ≠ .fatal) := by
  refine ⟨fun v blockchain h => ?_, fun chain blockchain h => ?_, fun chain block h => ?_⟩
  · have hown := h.own
    obtain ⟨hstage, hfollows⟩ := hown.reaches.kept.stage blockchain rfl
    refine ⟨hown.reaches, fun message hmem reveal hread => ?_⟩
    obtain ⟨hstate, hheight, hhash⟩ := hown.reveal hmem hread
    exact ⟨hheight, hhash, fun p hp => hstage.commitsOf_eq hstate (hfollows.mem_users hp)⟩
  · obtain ⟨hstage, hfollows⟩ := h.kept.stage blockchain rfl
    refine ⟨fun broadcast hmem => ?_, hstage.emojiHash_isSome_iff, fun hstate p hp => ?_⟩
    · obtain ⟨hheight, hhash⟩ := hstage.applied broadcast hmem
      exact ⟨BitVec.eq_of_toInt_eq (hheight.trans hfollows.height), hhash.trans hfollows.lastBlockHash⟩
    · exact hstage.revealsOf_eq hstate (hfollows.mem_users hp)
  · refine ⟨tryApplyBlock_ne_fatal h.kept, fun blockchain hadmits hfatal => ?_⟩
    rcases onNewMainBlock_cases h.kept blockchain with ⟨-, hnot⟩ | ⟨-, chain', hok, -⟩
    · exact hnot hadmits
    · rw [hfatal] at hok
      cases hok

/-! The first block of the small chain: the participant with user id 1 gets its own
commit back and the commit of the other one. -/

open CallEncryption (sampleCallCrypto)

def sampleCommit (userId : BitVec 64) (privateKey : PrivateKey) (nonce : UInt256) : NonceCommit :=
  let commit : NonceCommit :=
    { userId, chainHeight := 0, chainHash := sampleChain.lastBlockHash, nonceHash := sampleHash nonce.store }
  { commit with signature := privateKey.setWidth 512 + (sampleHash commit.store).setWidth 512 }

def sampleJoined : CallVerification := (create sampleCallCrypto 1 5 sampleChain 40).get (by decide +kernel)

def sampleHeard : CallVerification :=
  (sampleJoined.pullOutboundMessages.1.receiveInboundMessage sampleCallCrypto (sampleCommit 1 5 40).store).get
    (by decide +kernel)

def sampleRevealing : CallVerification :=
  (sampleHeard.receiveInboundMessage sampleCallCrypto (sampleCommit 2 6 41).store).get (by decide +kernel)

theorem reachable_sampleRevealing : Reachable sampleCallCrypto sampleRevealing sampleChain := by
  have hjoined : Reachable sampleCallCrypto sampleJoined sampleChain := .create (eq_ok_get _ _)
  have hheard : Reachable sampleCallCrypto sampleHeard sampleChain := .receive hjoined.pull (eq_ok_get _ _)
  exact .receive hheard (eq_ok_get _ _)

/-- The reveal that it sends then. -/
def sampleReveal (userId : BitVec 64) (privateKey : PrivateKey) (nonce : UInt256) : NonceReveal :=
  let reveal : NonceReveal := { userId, chainHeight := 0, chainHash := sampleChain.lastBlockHash, nonce }
  { reveal with signature := privateKey.setWidth 512 + (sampleHash reveal.store).setWidth 512 }

theorem commit_reveal_sample : (sampleReveal 1 5 40).store ∈ sampleRevealing.pullOutboundMessages.2 ∧
      ∃ nonceHash, sampleRevealing.chain.commitsOf 2 = [nonceHash] := by
  have hsent : (sampleReveal 1 5 40).store ∈ sampleRevealing.pullOutboundMessages.2 := by decide +kernel
  have hreveal := ((commit_reveal sampleCallCrypto).1 _ _ reachable_sampleRevealing).2 _ hsent _
    (ofMessage_reveal _)
  exact ⟨hsent, hreveal.2.2 ⟨2, 4, 6, 1⟩ (by decide +kernel)⟩

/-- A chain that has no block yet and delays the commit for the first one. -/
def sampleEarly : CallVerificationChain :=
  (({ delayAllowed := true } : CallVerificationChain).tryApplyBlock sampleCallCrypto
    (sampleCommit 2 6 41).store).get (by decide +kernel)

/-- Before the first block the chain is at the end and has no hash. -/
theorem ended_without_hash :
    Reaches sampleCallCrypto sampleEarly none ∧ sampleEarly.state = .ended ∧ sampleEarly.emojiHash = none := by
  refine ⟨Reaches.start.allowDelay.broadcast (eq_ok_get _ _), ?_, ?_⟩ <;> decide +kernel

end CallVerification

end Tdlib.E2e
