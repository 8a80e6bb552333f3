/-
The epochs of a call.

Every epoch but that of the last block waits in the queue to be forgotten, and
nothing that waits there is of the last block. So the last epoch stays, and
before a packet is encrypted enough of the others can be forgotten.
-/
import Tdlib.E2e.Call
import Tdlib.E2e.CallPackets
import Tdlib.E2e.ChainClient

namespace Tdlib.E2e

open ClientBlockchain
open List hiding pure_def
open Outcome OrderedMap

namespace CallEncryption

/-! ## Forgetting -/

theorem findEpoch_none_iff {s : CallEncryption} {epoch : Int} :
    s.findEpoch epoch = none ↔ ∀ info ∈ s.epochs, info.epoch ≠ epoch := by
  rw [findEpoch, List.find?_eq_none]
  simp

@[simp] theorem forgetEpoch_epochs (s : CallEncryption) (epoch : Int) :
    (s.forgetEpoch epoch).epochs = erase EpochInfo.epoch epoch s.epochs := by
  rw [forgetEpoch]
  cases hfind : s.findEpoch epoch with
  | some info => rfl
  | none => exact (erase_eq_self (findEpoch_none_iff.mp hfind)).symm

/-- The loop forgets the first epochs of the queue, until there are few enough or
none is left to forget. -/
theorem syncLoop_spec (now : Rat) (s : CallEncryption) (queue : List (Rat × Int)) :
    ∃ popped rest, queue = popped ++ rest ∧ (syncLoop now s queue).epochsToForget = rest ∧
      (syncLoop now s queue).epochs = s.epochs.filter (fun info => info.epoch ∉ popped.map Prod.snd) ∧
      (rest = [] ∨ (syncLoop now s queue).epochs.length ≤ maxActiveEpochs) := by
  induction queue generalizing s with
  | nil => exact ⟨[], [], rfl, rfl, by simp [syncLoop], .inl rfl⟩
  | cons item queue ih =>
    obtain ⟨at_, epoch⟩ := item
    rw [syncLoop]
    split
    · obtain ⟨popped, rest, hqueue, hrest, hepochs, hbound⟩ := ih (s.forgetEpoch epoch)
      refine ⟨(at_, epoch) :: popped, rest, by rw [hqueue]; rfl, hrest, ?_, hbound⟩
      rw [hepochs, forgetEpoch_epochs, erase, filter_filter]
      refine filter_congr fun info _ => ?_
      rw [Bool.eq_iff_iff]
      simp [and_comm]
    · next hstop =>
      refine ⟨[], (at_, epoch) :: queue, rfl, rfl, by simp, .inr ?_⟩
      exact Nat.le_of_not_lt fun h => hstop (.inr h)

theorem sync_spec (s : CallEncryption) (now : Rat) :
    ∃ popped rest, s.epochsToForget = popped ++ rest ∧ (s.sync now).epochsToForget = rest ∧
      (s.sync now).epochs = s.epochs.filter (fun info => info.epoch ∉ popped.map Prod.snd) ∧
      (rest = [] ∨ (s.sync now).epochs.length ≤ maxActiveEpochs) :=
  syncLoop_spec now s s.epochsToForget

/-! ## The queue -/

/-- Every epoch is the last one or is waiting to be forgotten. -/
structure Queued (s : CallEncryption) (last : Int) : Prop where
  sorted : OrderedMap.Sorted EpochInfo.epoch s.epochs
  le_last : ∀ info ∈ s.epochs, info.epoch ≤ last
  waiting : ∀ info ∈ s.epochs, info.epoch = last ∨ info.epoch ∈ s.epochsToForget.map Prod.snd
  before : ∀ item ∈ s.epochsToForget, item.2 < last

section

variable {s s' : CallEncryption} {now : Rat} {last : Int}

theorem Queued.sync (h : Queued s last) (now : Rat) : Queued (s.sync now) last := by
  obtain ⟨popped, rest, hqueue, hrest, hepochs, -⟩ := s.sync_spec now
  have hmem : ∀ info ∈ (s.sync now).epochs, info ∈ s.epochs ∧ info.epoch ∉ popped.map Prod.snd := by
    intro info hinfo
    simp_all
  refine ⟨?_, fun info hinfo => h.le_last info (hmem info hinfo).1, fun info hinfo => ?_, fun item hitem => ?_⟩
  · simp [hepochs, h.sorted.of_sublist]
  · obtain ⟨hin, hkept⟩ := hmem info hinfo
    refine (h.waiting info hin).imp_right fun hwait => ?_
    simp_all
  · rw [hrest] at hitem
    exact h.before item (hqueue ▸ mem_append_right _ hitem)

theorem Queued.mem_sync (h : Queued s last) {info : EpochInfo} (hinfo : info ∈ s.epochs) (hlast : info.epoch = last) :
    info ∈ (s.sync now).epochs := by
  obtain ⟨popped, rest, hqueue, -, hepochs, -⟩ := s.sync_spec now
  rw [hepochs, mem_filter, decide_eq_true_eq]
  refine ⟨hinfo, fun hpopped => ?_⟩
  obtain ⟨item, hitem, heq⟩ := mem_map.mp hpopped
  have hlt := h.before item (hqueue ▸ mem_append_left _ hitem)
  omega

/-- After the loop there are few enough epochs: with nothing left to forget, there
is only the last one. -/
theorem Queued.length_sync (h : Queued s last) : (s.sync now).epochs.length ≤ maxActiveEpochs := by
  obtain ⟨-, rest, -, hrest, -, hbound⟩ := s.sync_spec now
  rcases hbound with rfl | hbound
  · have hsync := h.sync now
    have hall : ∀ info ∈ (s.sync now).epochs, info.epoch = last := by
      intro info hinfo
      refine (hsync.waiting info hinfo).resolve_right ?_
      simp [hrest]
    cases hepochs : (s.sync now).epochs with
    | nil => exact Nat.zero_le _
    | cons first epochs =>
      cases epochs with
      | nil => exact (by decide : 1 ≤ maxActiveEpochs)
      | cons second epochs =>
        have hsorted := hsync.sorted
        rw [hepochs] at hall hsorted
        have hlt := (pairwise_cons.mp hsorted).1 second (mem_cons_self ..)
        simp [hall] at hlt
  · exact hbound

/-- Before a new epoch starts, the last one is put in the queue. -/
theorem Queued.forgetSharedKey (h : Queued s (last - 1)) (now cached : Rat) :
    Queued (s.forgetSharedKey now cached (last - 1)) last := by
  have hsync := h.sync now
  refine ⟨hsync.sorted, fun info hinfo => ?_, fun info hinfo => .inr ?_, fun item hitem => ?_⟩
  · have hle := hsync.le_last info hinfo
    omega
  · change info.epoch ∈ ((s.sync now).epochsToForget ++ [(cached + forgetEpochDelay, last - 1)]).map Prod.snd
    rw [map_append, mem_append]
    exact (hsync.waiting info hinfo).symm.imp_right fun hlast => by simp [hlast]
  · rcases mem_append.mp hitem with hitem | hitem
    · have hlt := hsync.before item hitem
      omega
    · simp [mem_singleton.mp hitem]

/-- What `add_shared_key` does when it succeeds. -/
structure Adds (s : CallEncryption) (info : EpochInfo) (s' : CallEncryption) : Prop where
  fresh : ∀ other ∈ s.epochs, other.epoch ≠ info.epoch
  epochs : s'.epochs = emplace EpochInfo.epoch info s.epochs
  epochByHash : s'.epochByHash = Function.update s.epochByHash info.epochHash (some info.epoch)
  epochsToForget : s'.epochsToForget = s.epochsToForget

theorem addSharedKey_ok {crypto : CallCrypto} {epochHash : UInt256} {key : Bytes} {groupState : GroupState}
    (h : s.addSharedKey crypto now last epochHash key groupState = (s', .ok ())) :
    ∃ info, info.epoch = last ∧ info.epochHash = epochHash ∧ Adds (s.sync now) info s' := by
  rw [addSharedKey, commit_ok_iff] at h
  simp only [bind_ok_iff, ensure_ok_iff, check_ok_iff, exists_const, pure_def,
    ok.injEq, Prod.mk.injEq, and_true] at h
  obtain ⟨self, -, -, hnone, rfl⟩ := h
  exact ⟨⟨last, epochHash, self.userId, key, groupState⟩, rfl, rfl, findEpoch_none_iff.mp hnone, rfl, rfl, rfl⟩

theorem Adds.mem_iff {info other : EpochInfo} (h : Adds s info s') :
    other ∈ s'.epochs ↔ other = info ∨ other ∈ s.epochs := by
  rw [h.epochs]
  exact mem_emplace h.fresh

theorem Queued.adds {info : EpochInfo} (h : Queued s last) (hadds : Adds s info s') (hlast : info.epoch = last) :
    Queued s' last := by
  refine ⟨?_, fun other hother => ?_, fun other hother => ?_, ?_⟩
  · rw [hadds.epochs]
    exact h.sorted.emplace hadds.fresh
  · rcases hadds.mem_iff.mp hother with rfl | hother
    · exact hlast.le
    · exact h.le_last other hother
  · rw [hadds.epochsToForget]
    rcases hadds.mem_iff.mp hother with rfl | hother
    · exact .inl hlast
    · exact h.waiting other hother
  · rw [hadds.epochsToForget]
    exact h.before

end

/-! ## The index of the hashes -/

/-- The blocks of the epochs, and the index of their hashes. -/
structure Indexed (crypto : CallCrypto) (s : CallEncryption) (history : List Block) : Prop where
  block : ∀ info ∈ s.epochs, ∃ block ∈ history,
    block.height.toInt = info.epoch ∧ block.calcHash crypto.toCrypto = .ok info.epochHash
  index : ∀ epochHash epoch, s.epochByHash epochHash = some epoch ↔
    ∃ info ∈ s.epochs, info.epochHash = epochHash ∧ info.epoch = epoch

/-- No two of the blocks have the same hash. -/
def HashesDiffer (crypto : CallCrypto) (history : List Block) : Prop :=
  ∀ a ∈ history, ∀ b ∈ history, a.calcHash crypto.toCrypto = b.calcHash crypto.toCrypto → a = b

section

variable {crypto : CallCrypto} {s s' : CallEncryption} {now : Rat} {last : Int} {history : List Block}

theorem HashesDiffer.of_cons {block : Block} (h : HashesDiffer crypto (block :: history)) :
    HashesDiffer crypto history :=
  fun a ha b hb => h a (mem_cons_of_mem _ ha) b (mem_cons_of_mem _ hb)

section

variable (h : Indexed crypto s history) (hdiffer : HashesDiffer crypto history)

include h hdiffer

theorem Indexed.epoch_eq {a b : EpochInfo}
    (ha : a ∈ s.epochs) (hb : b ∈ s.epochs) (hhash : a.epochHash = b.epochHash) : a.epoch = b.epoch := by
  obtain ⟨x, hx, hxepoch, hxhash⟩ := h.block a ha
  obtain ⟨y, hy, hyepoch, hyhash⟩ := h.block b hb
  have hxy := hdiffer x hx y hy (by rw [hxhash, hyhash, hhash])
  rw [← hxepoch, ← hyepoch, hxy]

section

variable (hsorted : OrderedMap.Sorted EpochInfo.epoch s.epochs)

include hsorted

theorem Indexed.forgetEpoch (epoch : Int) : Indexed crypto (s.forgetEpoch epoch) history := by
  rw [CallEncryption.forgetEpoch]
  cases hfind : s.findEpoch epoch with
  | none => exact h
  | some info =>
    have hinfo : info ∈ s.epochs := mem_of_find?_eq_some hfind
    have hepoch : info.epoch = epoch := by simpa using List.find?_some hfind
    refine ⟨fun other hother => h.block other (OrderedMap.mem_erase.mp hother).1, fun epochHash epoch' => ?_⟩
    simp only [mem_erase]
    by_cases heq : epochHash = info.epochHash
    · subst heq
      refine ⟨by simp, fun hother => ?_⟩
      obtain ⟨other, ⟨hmem, hne⟩, hhash, -⟩ := hother
      exact absurd ((h.epoch_eq hdiffer hmem hinfo hhash).trans hepoch) hne
    · rw [Function.update_of_ne heq, h.index]
      refine exists_congr fun other => and_congr_left fun hother => ⟨fun hmem => ⟨hmem, fun hsame => ?_⟩, And.left⟩
      -- It would be the epoch that is forgotten, which has another hash.
      have hothers := hsorted.eq_of_key hmem hinfo (hsame.trans hepoch.symm)
      exact heq (hother.1.symm.trans (congrArg EpochInfo.epochHash hothers))

theorem Indexed.sync (now : Rat) : Indexed crypto (s.sync now) history := by
  rw [CallEncryption.sync]
  generalize s.epochsToForget = queue
  induction queue generalizing s with
  | nil => exact ⟨h.block, h.index⟩
  | cons item queue ih =>
    obtain ⟨at_, epoch⟩ := item
    rw [syncLoop]
    split
    · refine ih (h.forgetEpoch hdiffer hsorted epoch) ?_
      rw [forgetEpoch_epochs]
      exact hsorted.of_sublist filter_sublist
    · exact ⟨h.block, h.index⟩

theorem Indexed.forgetSharedKey (now cached : Rat) (epoch : Int) :
    Indexed crypto (s.forgetSharedKey now cached epoch) history := by
  have hsync := h.sync hdiffer hsorted now
  exact ⟨hsync.block, hsync.index⟩

end

end

theorem Indexed.adds {block : Block} {info : EpochInfo} (h : Indexed crypto s history)
    (hdiffer : HashesDiffer crypto (block :: history)) (hadds : Adds s info s')
    (hheight : block.height.toInt = info.epoch) (hhash : block.calcHash crypto.toCrypto = .ok info.epochHash) :
    Indexed crypto s' (block :: history) := by
  refine ⟨fun other hother => ?_, fun epochHash epoch => ?_⟩
  · rcases hadds.mem_iff.mp hother with rfl | hother
    · exact ⟨block, mem_cons_self .., hheight, hhash⟩
    · obtain ⟨x, hx, hrest⟩ := h.block other hother
      exact ⟨x, mem_cons_of_mem _ hx, hrest⟩
  · simp only [hadds.mem_iff, or_and_right, exists_or, exists_eq_left, hadds.epochByHash]
    by_cases heq : epochHash = info.epochHash
    · subst heq
      rw [Function.update_self, Option.some.injEq]
      refine ⟨fun hepoch => .inl ⟨rfl, hepoch⟩, fun hmem => ?_⟩
      rcases hmem with ⟨-, hepoch⟩ | ⟨other, hother, hotherHash, -⟩
      · exact hepoch
      · -- An older block with this hash would be the block itself.
        obtain ⟨x, hx, hxheight, hxhash⟩ := h.block other hother
        have hsame := hdiffer x (mem_cons_of_mem _ hx) block (mem_cons_self ..)
          (by rw [hxhash, hhash, hotherHash])
        exact absurd (by rw [← hxheight, hsame, hheight]) (hadds.fresh other hother)
    · rw [Function.update_of_ne heq, h.index]
      exact (or_iff_right fun hinfo => heq hinfo.1.symm).symm

end

/-- A packet with few enough epochs is not refused for having too many. -/
theorem readPacket_ne_tooMany (r : CallEncryption) (userId : BitVec 64) {pfx : Bytes} (body : Bytes)
    {epochs : List EpochInfo} {headers : List Bytes} (hpfx : pfx.length < 2 ^ 16)
    (hactive : epochs.length ≤ maxActiveEpochs)
    (hcount : headers.length = epochs.length) (hheaders : ∀ header ∈ headers, header.length = 32) :
    r.readPacket userId (pfx ++ (headerA epochs ++ (headers.flatten ++ (body ++ leBytes 4 pfx.length)))) ≠
      .error "Too many active epochs" := by
  by_cases huser : userId = r.userId
  · -- The user is checked before the epochs.
    have hrefused : ¬(userId ≠ r.userId) := fun h => h huser
    rw [readPacket]
    intro herror
    simp only [ensure, if_neg hrefused, error_bind] at herror
    split at herror
    · split at herror
      · simp at herror
      · simp at herror
    · simp at herror
  · rw [readPacket_layout body huser hpfx hactive hcount hheaders]
    simp

end CallEncryption

namespace Call

open CallEncryption

/-! ## Runs of a call -/

section

variable {crypto : CallCrypto} {call call' : Call} {history : List Block} {t : Ambient}

/-- A run of a call in which every block was applied, and the blocks, the last one
first. -/
inductive Reachable (crypto : CallCrypto) : Call → List Block → Prop
  | create {publicKeys publicKeys' : List PublicKey} {userId : BitVec 64} {privateKey : PrivateKey} {block : Bytes}
      {t : Ambient} {call : Call} : create crypto publicKeys userId privateKey block t = (publicKeys', .ok call) →
      Reachable crypto call [call.blockchain.blockchain.lastBlock]
  | applyBlock {call call' : Call} {history : List Block} {block : Bytes} {t : Ambient} :
      Reachable crypto call history → call.applyBlock crypto block t = (call', .ok ()) →
      Reachable crypto call' (call'.blockchain.blockchain.lastBlock :: history)
  | encrypt {call : Call} {history : List Block} (now : Rat) (random : Random) (channelId : BitVec 32)
      (data : Bytes) (size : Nat) : Reachable crypto call history →
      Reachable crypto (call.encrypt crypto now random channelId data size).1 history
  | decrypt {call : Call} {history : List Block} (now : Rat) (userId : BitVec 64) (data : Bytes) :
      Reachable crypto call history → Reachable crypto (call.decrypt crypto now userId data).1 history
  | receive {call : Call} {history : List Block} (message : Bytes) : Reachable crypto call history →
      Reachable crypto (call.receiveInboundMessage crypto message).1 history
  | pull {call : Call} {history : List Block} : Reachable crypto call history →
      Reachable crypto call.pullOutboundMessages.1 history

/-- What a call keeps. -/
structure Epochs (crypto : CallCrypto) (call : Call) (history : List Block) : Prop where
  queued : Queued call.callEncryption call.blockchain.blockchain.getHeight
  last : ∃ info ∈ call.callEncryption.epochs, info.epoch = call.blockchain.blockchain.getHeight ∧
    info.epochHash = call.blockchain.blockchain.lastBlockHash
  indexed : HashesDiffer crypto history → Indexed crypto call.callEncryption history

theorem updateGroupSharedKey_ok (h : call.updateGroupSharedKey crypto t = (call', .ok ())) :
    ∃ groupSharedKey callEncryption,
      (call.callEncryption.forgetSharedKey t.forgetNow t.cached (call.blockchain.blockchain.getHeight - 1)).addSharedKey
        crypto t.addNow call.blockchain.blockchain.getHeight call.blockchain.blockchain.lastBlockHash groupSharedKey
        call.blockchain.blockchain.state.groupState = (callEncryption, .ok ()) ∧
      call' = { call with groupSharedKey, callEncryption } := by
  rw [updateGroupSharedKey] at h
  split at h
  · cases h
  · cases h
  · next groupSharedKey _ =>
    generalize hadd : CallEncryption.addSharedKey crypto _ t.addNow _ _ groupSharedKey _ = result at h
    obtain ⟨callEncryption, status⟩ := result
    obtain ⟨rfl, rfl⟩ := h
    exact ⟨groupSharedKey, callEncryption, hadd, rfl⟩

theorem Epochs.updateGroupSharedKey (hqueued : Queued call.callEncryption (call.blockchain.blockchain.getHeight - 1))
    (hhash : call.blockchain.blockchain.lastBlock.calcHash crypto.toCrypto =
      .ok call.blockchain.blockchain.lastBlockHash)
    (hindexed : HashesDiffer crypto history → Indexed crypto call.callEncryption history)
    (h : call.updateGroupSharedKey crypto t = (call', .ok ())) :
    Epochs crypto call' (call'.blockchain.blockchain.lastBlock :: history) := by
  obtain ⟨groupSharedKey, callEncryption, hadd, rfl⟩ := updateGroupSharedKey_ok h
  obtain ⟨info, hepoch, hinfoHash, hadds⟩ := addSharedKey_ok hadd
  have hforget := hqueued.forgetSharedKey t.forgetNow t.cached
  refine ⟨(hforget.sync t.addNow).adds hadds hepoch, ⟨info, hadds.mem_iff.mpr (.inl rfl), hepoch, hinfoHash⟩,
    fun hdiffer => ?_⟩
  have hold := (hindexed hdiffer.of_cons).forgetSharedKey hdiffer.of_cons hqueued.sorted t.forgetNow t.cached
    (call.blockchain.blockchain.getHeight - 1)
  refine (hold.sync hdiffer.of_cons hforget.sorted t.addNow).adds hdiffer hadds hepoch.symm ?_
  rw [hinfoHash]
  exact hhash

variable {block : Bytes}

theorem Epochs.create {publicKeys publicKeys' : List PublicKey} {userId : BitVec 64} {privateKey : PrivateKey}
    (h : create crypto publicKeys userId privateKey block t = (publicKeys', .ok call)) :
    Epochs crypto call [call.blockchain.blockchain.lastBlock] := by
  rw [Call.create] at h
  split at h
  · simp at h
  · simp only [Prod.mk.injEq, bind_ok_iff, pure_def, ok.injEq] at h
    obtain ⟨-, lastBlock, -, blockchain, hblockchain, callVerification, -, _, hstatus, rfl⟩ := h
    simp only [createFromBlock, Blockchain.createFromBlock, bind_ok_iff, pure_def,
      ok.injEq] at hblockchain
    obtain ⟨first, -, chain, ⟨_, -, lastBlockHash, hhash, state, -, rfl⟩, rfl⟩ := hblockchain
    refine Epochs.updateGroupSharedKey ?_ hhash (fun _ => ?_) (Prod.ext rfl hstatus)
    · exact ⟨List.Pairwise.nil, by simp, by simp, by simp⟩
    · exact ⟨by simp, fun _ _ => ⟨by simp, by simp⟩⟩

theorem tryApplyBlock_ok {client : ClientBlockchain} {changes : List Change}
    (h : (client.tryApplyBlock crypto.toCrypto block).2 = .ok changes) :
    ∃ applied, Blockchain.Accepts crypto.toCrypto options applied client.blockchain
      (client.tryApplyBlock crypto.toCrypto block).1.blockchain := by
  by_contra hnone
  refine (tryApplyBlock_refused fun applied chain' hread happly => hnone ?_).2 changes h
  obtain ⟨hchain, -⟩ := tryApplyBlock_applied hread happly
  rw [hchain]
  exact ⟨applied, Blockchain.tryApplyBlock_ok_iff.mp happly⟩

theorem doApplyBlock_ok (h : call.doApplyBlock crypto block t = (call', .ok ())) : ∃ (applied : Block) (next : Call),
      Blockchain.Accepts crypto.toCrypto options applied call.blockchain.blockchain
        next.blockchain.blockchain ∧ next.callEncryption = call.callEncryption ∧
      next.updateGroupSharedKey crypto t = (call', .ok ()) := by
  rw [doApplyBlock] at h
  generalize happly : call.blockchain.tryApplyBlock crypto.toCrypto block = result at h
  obtain ⟨blockchain, changes⟩ := result
  dsimp only at h
  split at h
  · cases h
  · cases h
  · next callVerification hnext =>
    rw [bind_ok_iff] at hnext
    obtain ⟨changes', rfl, -⟩ := hnext
    obtain ⟨applied, haccepts⟩ := tryApplyBlock_ok (congrArg Prod.snd happly)
    rw [happly] at haccepts
    exact ⟨applied, { call with blockchain, callVerification }, haccepts, rfl, h⟩

theorem applyBlock_ok (h : call.applyBlock crypto block t = (call', .ok ())) :
    ∃ block', call.doApplyBlock crypto block' t = (call', .ok ()) := by
  rw [applyBlock] at h
  split at h
  · cases h
  · cases h
  · next block' _ =>
    refine ⟨block', ?_⟩
    generalize call.doApplyBlock crypto block' t = result at h ⊢
    obtain ⟨next, status⟩ := result
    cases status with
    | ok u =>
      have hcall : next = call' := congrArg Prod.fst h
      rw [hcall]
    | error e => cases congrArg Prod.snd h
    | fatal => cases congrArg Prod.snd h

theorem Epochs.applyBlock (hepochs : Epochs crypto call history)
    (h : call.applyBlock crypto block t = (call', .ok ())) :
    Epochs crypto call' (call'.blockchain.blockchain.lastBlock :: history) := by
  obtain ⟨block', h⟩ := applyBlock_ok h
  obtain ⟨applied, next, haccepts, hsame, h⟩ := doApplyBlock_ok h
  refine Epochs.updateGroupSharedKey ?_ ?_ (fun hdiffer => ?_) h
  · rw [hsame, haccepts.getHeight, Int.add_sub_cancel]
    exact hepochs.queued
  · rw [haccepts.lastBlock]
    exact haccepts.hash
  · rw [hsame]
    exact hepochs.indexed hdiffer

/-- Packets change only numbers, after epochs were forgotten. -/
theorem Epochs.sync (h : Epochs crypto call history) (now : Rat) (seqno : BitVec 32 → BitVec 32)
    (seen : PublicKey × BitVec 32 → List (BitVec 32)) :
    Epochs crypto { call with callEncryption := { call.callEncryption.sync now with seqno, seen } } history := by
  obtain ⟨hsorted, hle, hwaiting, hbefore⟩ := h.queued.sync now
  obtain ⟨info, hinfo, hepoch, hhash⟩ := h.last
  refine ⟨⟨hsorted, hle, hwaiting, hbefore⟩, ⟨info, h.queued.mem_sync hinfo hepoch, hepoch, hhash⟩, fun hdiffer => ?_⟩
  obtain ⟨hblock, hindex⟩ := (h.indexed hdiffer).sync hdiffer h.queued.sorted now
  exact ⟨hblock, hindex⟩

theorem whenOk_cases {α : Type} (call : Call) (method : Call × Outcome α) :
    (call.whenOk method = method) ∨ ((call.whenOk method).1 = call ∧ ∀ a, (call.whenOk method).2 ≠ .ok a) := by
  rw [whenOk]
  split
  · exact .inr ⟨rfl, (fun _ h => nomatch h)⟩
  · exact .inr ⟨rfl, (fun _ h => nomatch h)⟩
  · exact .inl rfl

section

variable (h : Epochs crypto call history)

include h

theorem Epochs.whenOk {α : Type} {method : Call × Outcome α}
    (hmethod : Epochs crypto method.1 history) : Epochs crypto (call.whenOk method).1 history := by
  rcases call.whenOk_cases method with hok | ⟨hsame, -⟩
  · rw [hok]
    exact hmethod
  · rw [hsame]
    exact h

theorem Epochs.encrypt (now : Rat) (random : Random) (channelId : BitVec 32)
    (data : Bytes) (size : Nat) : Epochs crypto (call.encrypt crypto now random channelId data size).1 history := by
  obtain ⟨seqno, hstate⟩ := call.callEncryption.encrypt_state crypto now random channelId data size
  rw [Call.encrypt]
  generalize call.callEncryption.encrypt crypto now random channelId data size = result at hstate ⊢
  dsimp only at hstate ⊢
  rw [hstate]
  exact h.whenOk (h.sync now seqno _)

theorem Epochs.decrypt (now : Rat) (userId : BitVec 64) (data : Bytes) :
    Epochs crypto (call.decrypt crypto now userId data).1 history := by
  obtain ⟨seen, hstate⟩ := call.callEncryption.decrypt_state crypto now userId data
  rw [Call.decrypt]
  generalize call.callEncryption.decrypt crypto now userId data = result at hstate ⊢
  dsimp only at hstate ⊢
  rw [hstate]
  exact h.whenOk (h.sync now _ seen)

theorem Epochs.receive (message : Bytes) : Epochs crypto (call.receiveInboundMessage crypto message).1 history := by
  refine h.whenOk ?_
  generalize hblock : (do
    let message ← fromServerToLocal message
    let callVerification ← call.callVerification.receiveInboundMessage crypto message
    pure ({ call with callVerification }, ()) : Outcome (Call × Unit)) = block
  rcases commit_cases call block with ⟨next, u, hok, hcommit⟩ | ⟨hkept, -⟩
  · rw [← hblock] at hok
    simp only [bind_ok_iff, pure_def, ok.injEq, Prod.mk.injEq] at hok
    obtain ⟨_, -, _, -, rfl, -⟩ := hok
    rw [hcommit]
    exact ⟨h.queued, h.last, h.indexed⟩
  · rw [hkept]
    exact h

end

theorem Reachable.epochs (h : Reachable crypto call history) : Epochs crypto call history := by
  induction h with
  | create h => exact Epochs.create h
  | applyBlock _ h ih => exact ih.applyBlock h
  | encrypt now random channelId data size _ ih => exact ih.encrypt now random channelId data size
  | decrypt now userId data _ ih => exact ih.decrypt now userId data
  | receive message _ ih => exact ih.receive message
  | pull _ ih => exact ih.whenOk ⟨ih.queued, ih.last, ih.indexed⟩

/-- A packet of the call: what it lists are the epochs after `sync`. -/
theorem encrypt_packet {now : Rat} {random : Random} {channelId : BitVec 32} {data packet : Bytes} {size : Nat}
    (h : call.encrypt crypto now random channelId data size = (call', .ok packet)) :
    ∃ s', Sent crypto (call.callEncryption.sync now) s' random channelId data size packet := by
  rw [Call.encrypt] at h
  generalize hencrypt : call.callEncryption.encrypt crypto now random channelId data size = result at h
  obtain ⟨callEncryption, outcome⟩ := result
  rcases call.whenOk_cases ({ call with callEncryption }, outcome) with hok | ⟨-, hfailed⟩
  · dsimp only at h
    rw [hok, Prod.mk.injEq] at h
    obtain ⟨-, rfl⟩ := h
    exact ⟨callEncryption, encrypt_ok hencrypt⟩
  · exact absurd (congrArg Prod.snd h) (hfailed packet)

/-- **The epochs of a call.** After any run, the epoch of the last block is there;
the index has exactly the hashes of the epochs, unless the hashes of two of the
blocks collide; and a packet lists at most 15 epochs, so no receiver refuses it
for having too many. -/
theorem epochs_of_run (h : Reachable crypto call history) :
    (∃ info ∈ call.callEncryption.epochs, info.epoch = call.blockchain.blockchain.getHeight ∧
      info.epochHash = call.blockchain.blockchain.lastBlockHash) ∧
    (HashesDiffer crypto history → ∀ epochHash epoch, call.callEncryption.epochByHash epochHash = some epoch ↔
      ∃ info ∈ call.callEncryption.epochs, info.epochHash = epochHash ∧ info.epoch = epoch) ∧
    ∀ now random channelId data size call' packet,
      call.encrypt crypto now random channelId data size = (call', .ok packet) →
      (∃ epochs : List EpochInfo, epochs.length ≤ maxActiveEpochs ∧
        ∃ rest, packet = data.take size ++ (headerA epochs ++ rest)) ∧
      ∀ (r : CallEncryption) (userId : BitVec 64), r.readPacket userId packet ≠ .error "Too many active epochs" := by
  have hepochs := h.epochs
  refine ⟨hepochs.last, fun hdiffer => (hepochs.indexed hdiffer).index, ?_⟩
  intro now random channelId data size call' packet hencrypt
  obtain ⟨s', hsent⟩ := encrypt_packet hencrypt
  obtain ⟨encryptedPacket, encryptedHeaders, -, hheaders, rfl⟩ := hsent.packet
  have hlength : (call.callEncryption.sync now).epochs.length ≤ maxActiveEpochs := hepochs.queued.length_sync
  refine ⟨⟨_, hlength, _, rfl⟩, fun r userId => ?_⟩
  obtain ⟨hcount, hlen⟩ := encryptedHeaders_ok hheaders
  have hsize : (data.take size).length = size := length_take_of_le hsent.short.1
  have hread := readPacket_ne_tooMany r userId encryptedPacket (by rw [hsize]; exact hsent.short.2) hlength hcount hlen
  rwa [hsize] at hread

end

/-! A call of one participant, from the first block of its group on. -/

/-- The shared key of a block, encrypted for the participant. -/
def sampleBlockKey : Outcome GroupSharedKey := do
  let (encryptedSharedKey, _) ← MessageEncryption.encryptData sampleCallCrypto sampleRandom (List.replicate 32 4)
    (List.replicate 32 3) []
  let secret ← PrivateKey.computeSharedSecret sampleCallCrypto 5 9
  let header ← MessageEncryption.encryptHeader sampleCallCrypto (List.replicate 32 3) encryptedSharedKey secret
  pure { ek := 9, encryptedSharedKey, destUserId := [1], destHeader := [header] }

/-- A block as the server sends it. -/
def sampleServerBlock (prevBlockHash : UInt256) (height : BitVec 32) : Outcome Bytes := do
  let sharedKey ← sampleBlockKey
  let block := sampleSign 5
    { prevBlockHash, height
      changes := [.setGroupState { participants := [{ userId := 1, flags := 3, publicKey := 5 }] },
        .setSharedKey sharedKey]
      stateProof := { kvHash := sampleEmpty.state.keyValueState.getHash }
      signaturePublicKey := some 5 }
  let bytes ← block.toTlSerialized
  fromLocalToServer bytes

def sampleCreate : List PublicKey × Outcome Call :=
  create sampleCallCrypto [] 1 5 ((sampleServerBlock 0 0).getD []) ⟨0, 0, 0, 77⟩

def sampleEncrypt (call : Call) : Call × Outcome Bytes := call.encrypt sampleCallCrypto 0 sampleRandom 9 [1, 2, 3] 2

theorem sampleEncrypt_eq (call : Call) (h : (sampleEncrypt call).2.isOk = true) : ∃ packet,
    call.encrypt sampleCallCrypto 0 sampleRandom 9 [1, 2, 3] 2 = ((sampleEncrypt call).1, .ok packet) :=
  ⟨_, Prod.ext rfl (eq_ok_get _ h)⟩

/-- A packet, and then the next block. -/
def sampleApply (call : Call) (now : Rat) : Call × Outcome Unit :=
  let chain := call.blockchain.blockchain
  let block := sampleServerBlock chain.lastBlockHash (chain.lastBlock.height + 1)
  (sampleEncrypt call).1.applyBlock sampleCallCrypto (block.getD []) ⟨now, now, now, 78⟩

/-- The call after some blocks, eight seconds between them. -/
def sampleCalls : Nat → Call
  | 0 => sampleCreate.2.get (by decide +kernel)
  | n + 1 => (sampleApply (sampleCalls n) (8 * n)).1

def sampleHistory : Nat → List Block
  | 0 => [(sampleCalls 0).blockchain.blockchain.lastBlock]
  | n + 1 => (sampleCalls (n + 1)).blockchain.blockchain.lastBlock :: sampleHistory n

theorem sampleApply_ok : ∀ n < 3, (sampleApply (sampleCalls n) (8 * n)).2 = .ok () := by decide +kernel

theorem sampleCreate_eq : sampleCreate = (sampleCreate.1, .ok (sampleCalls 0)) := Prod.ext rfl (eq_ok_get _ _)

theorem reachable_sampleCalls {n : Nat} (hn : n ≤ 3) :
    Reachable sampleCallCrypto (sampleCalls n) (sampleHistory n) := by
  induction n with
  | zero => exact .create sampleCreate_eq
  | succ n ih =>
    have happly : sampleApply (sampleCalls n) (8 * n) = (sampleCalls (n + 1), .ok ()) :=
      Prod.ext rfl (sampleApply_ok n hn)
    exact .applyBlock (.encrypt _ _ _ _ _ (ih (by omega))) happly

/-- After three blocks: the first epoch is forgotten, and a packet is sent. -/
theorem epochs_of_run_sample :
    (sampleCalls 3).callEncryption.epochs.map EpochInfo.epoch = [1, 2, 3] ∧
    (∃ info ∈ (sampleCalls 3).callEncryption.epochs,
      info.epoch = (sampleCalls 3).blockchain.blockchain.getHeight ∧
      info.epochHash = (sampleCalls 3).blockchain.blockchain.lastBlockHash) ∧
    (∀ epochHash epoch, (sampleCalls 3).callEncryption.epochByHash epochHash = some epoch ↔
      ∃ info ∈ (sampleCalls 3).callEncryption.epochs, info.epochHash = epochHash ∧ info.epoch = epoch) ∧
    ∃ call' packet epochs rest,
      (sampleCalls 3).encrypt sampleCallCrypto 0 sampleRandom 9 [1, 2, 3] 2 = (call', .ok packet) ∧
      epochs.length ≤ maxActiveEpochs ∧ packet = [1, 2] ++ (headerA epochs ++ rest) := by
  obtain ⟨hlast, hindex, hpacket⟩ := epochs_of_run (reachable_sampleCalls (n := 3) (by decide))
  have hdiffer : HashesDiffer sampleCallCrypto (sampleHistory 3) := by
    unfold HashesDiffer
    decide +kernel
  obtain ⟨packet, hencrypt⟩ := sampleEncrypt_eq (sampleCalls 3) (by decide +kernel)
  obtain ⟨⟨epochs, hle, rest, heq⟩, -⟩ := hpacket _ _ _ _ _ _ _ hencrypt
  exact ⟨by decide +kernel, hlast, hindex hdiffer, _, packet, epochs, rest, hencrypt, hle, heq⟩

end Call

end Tdlib.E2e
