/-
Replay protection.

For a sender and a channel the receiver keeps the numbers it saw last. The
window refuses a number forever once it has accepted it, as long as it is not
emptied (`SeenWindow`). It can be emptied near the end of the range, where the
addition in `mark_as_seen` wraps around: a number of the last 1024 is let go when it
is the smallest of the window, even if it has just come (`accepts_once_iff`).
-/
import Tdlib.Lib.SeenWindow
import Tdlib.E2e.CallPackets

namespace Tdlib.E2e.CallEncryption

open BitVec (toNat)
open SeenWindow
open List hiding pure_def
open Outcome OrderedMap
open SeenWindow (Refuses)

/-! ## One window -/

/-- The numbers from which on the addition wraps around. -/
def wrapsFrom : BitVec 32 := 0xfffffc00

/-- What holds of a window at any time. -/
structure IsWindow (window : List (BitVec 32)) : Prop where
  sorted : Sorted toNat window
  short : window.length ≤ 1024

theorem toNat_injective : Function.Injective (toNat : BitVec 32 → Nat) := fun _ _ => BitVec.eq_of_toNat_eq

theorem forgetSeen_suffix (seqno : BitVec 32) (window : List (BitVec 32)) :
    ∃ dropped, window = dropped ++ forgetSeen seqno window := by
  induction window with
  | nil => exact ⟨[], rfl⟩
  | cons first rest ih =>
    rw [forgetSeen]
    split
    · obtain ⟨dropped, hdropped⟩ := ih
      exact ⟨first :: dropped, by rw [cons_append, ← hdropped]⟩
    · exact ⟨[], rfl⟩

theorem length_forgetSeen (seqno : BitVec 32) (window : List (BitVec 32)) :
    (forgetSeen seqno window).length ≤ 1024 := by
  induction window with
  | nil => exact Nat.zero_le _
  | cons first rest ih =>
    rw [forgetSeen]
    split
    · exact ih
    · omega

variable {seqno : BitVec 32}

/-- A number below the last 1024 is not dropped by the rule of the distance. -/
theorem forgetSeen_ne_nil (hlow : seqno < wrapsFrom) {window : List (BitVec 32)}
    (hmem : seqno ∈ window) (hshort : window.length ≤ 1024) : forgetSeen seqno window ≠ [] := by
  induction window with
  | nil => cases hmem
  | cons first rest ih =>
    rw [forgetSeen]
    split
    next hdrop =>
      have hfirst : first + 1024 < seqno := hdrop.resolve_left (by omega)
      rcases mem_cons.mp hmem with rfl | hmem
      · have hnowrap : seqno.toNat < 0xfffffc00 := hlow
        have hwrong := BitVec.lt_def.mp hfirst
        rw [BitVec.toNat_add] at hwrong
        have hconst : (1024 : BitVec 32).toNat = 1024 := rfl
        omega
      · exact ih hmem (by rw [length_cons] at hshort; omega)
    next => exact cons_ne_nil _ _

section

variable {window : List (BitVec 32)} (h : IsWindow window) {seqno : BitVec 32}
    (hnew : ¬ Refuses toNat window seqno)

include h hnew

theorem IsWindow.forgetSeen : IsWindow (forgetSeen seqno (emplace toNat seqno window)) := by
  have hkeys := key_ne_of_not_refuses toNat_injective hnew
  obtain ⟨dropped, hdropped⟩ := forgetSeen_suffix seqno (emplace toNat seqno window)
  have hsuffix : (CallEncryption.forgetSeen seqno (emplace toNat seqno window)).Sublist
      (emplace toNat seqno window) := List.IsSuffix.sublist ⟨dropped, hdropped.symm⟩
  exact ⟨(h.sorted.emplace hkeys).of_sublist hsuffix, length_forgetSeen _ _⟩

/-- Where the addition does not wrap around, the window keeps refusing what it
refused, and refuses the number from now on. -/
theorem IsWindow.refuses_forgetSeen (hlow : seqno < wrapsFrom) {old : BitVec 32}
    (hold : Refuses toNat window old ∨ old = seqno) :
    Refuses toNat (CallEncryption.forgetSeen seqno (emplace toNat seqno window)) old := by
  have hkeys := key_ne_of_not_refuses toNat_injective hnew
  obtain ⟨dropped, hdropped⟩ := forgetSeen_suffix seqno (emplace toNat seqno window)
  have hrefuses : Refuses toNat (emplace toNat seqno window) old := by
    rcases hold with hold | rfl
    · exact hold.emplace toNat_injective hnew
    · exact refuses_emplace_self toNat_injective hnew
  have hsorted := h.sorted.emplace hkeys
  have hne : CallEncryption.forgetSeen seqno (emplace toNat seqno window) ≠ [] := by
    cases window with
    | nil => exact forgetSeen_ne_nil hlow (mem_cons_self ..) (show 1 ≤ 1024 by decide)
    | cons first rest =>
      -- one number may be dropped because there are too many, and it is not the new one
      have hmem : seqno ∈ emplace toNat seqno rest :=
        (mem_emplace fun b hb => hkeys b (mem_cons_of_mem _ hb)).mpr (.inl rfl)
      have hlen : (emplace toNat seqno rest).length = rest.length + 1 :=
        length_emplace fun b hb => hkeys b (mem_cons_of_mem _ hb)
      have hshort := h.short
      rw [length_cons] at hshort
      rw [emplace_cons toNat_injective hnew, CallEncryption.forgetSeen]
      split
      next => exact forgetSeen_ne_nil hlow hmem (by omega)
      next => exact cons_ne_nil _ _
  rw [hdropped] at hrefuses hsorted
  exact hrefuses.drop hsorted hne

end

theorem checkNotSeen_ok_iff {s : CallEncryption} {publicKey : PublicKey} {channelId : BitVec 32} :
    s.checkNotSeen publicKey channelId seqno = .ok () ↔
      ¬ Refuses toNat (s.seen (publicKey, channelId)) seqno := by
  rw [checkNotSeen]
  split
  next hnil =>
    rw [hnil]
    exact ⟨fun _ => not_refuses_nil, fun _ => rfl⟩
  next first rest hcons =>
    simp only [hcons, bind_ok_iff, ensure_ok_iff, exists_const, refuses_cons, not_or,
      BitVec.lt_def]
    exact and_comm

/-! ## Runs -/

/-- The calls on a `CallEncryption`. -/
inductive CallOp
  | addSharedKey (now : Rat) (epoch : Int) (epochHash : UInt256) (key : Bytes) (groupState : GroupState)
  | forgetSharedKey (now cached : Rat) (epoch : Int)
  | encrypt (now : Rat) (random : Random) (channelId : BitVec 32) (data : Bytes) (unencryptedHeaderLength : Nat)
  | decrypt (now : Rat) (userId : BitVec 64) (packet : Bytes)

/-- What identifies a packet of a call. -/
structure Number where
  publicKey : PublicKey
  channelId : BitVec 32
  seqno : BitVec 32
  deriving DecidableEq, Repr

def Opened.number (opened : Opened) : Number := ⟨opened.publicKey, opened.channelId, opened.seqno⟩

section

variable (crypto : CallCrypto)

def step (s : CallEncryption) : CallOp → CallEncryption
  | .addSharedKey now epoch epochHash key groupState => (s.addSharedKey crypto now epoch epochHash key groupState).1
  | .forgetSharedKey now cached epoch => s.forgetSharedKey now cached epoch
  | .encrypt now random channelId data length => (s.encrypt crypto now random channelId data length).1
  | .decrypt now userId packet => (s.decrypt crypto now userId packet).1

/-- The number of the packet that is to be decrypted, if it can be opened. -/
def number? (s : CallEncryption) : CallOp → Option Number
  | .decrypt now userId packet =>
    match (s.sync now).readPacket userId packet >>= (s.sync now).openPacket crypto userId with
    | .ok opened => some opened.number
    | _ => none
  | _ => none

/-- The number that a call accepts: the packet is decrypted. -/
def accepted? (s : CallEncryption) : CallOp → Option Number
  | .decrypt now userId packet =>
    if (s.decrypt crypto now userId packet).2.isOk then s.number? crypto (.decrypt now userId packet) else none
  | _ => none

/-- The numbers of all packets of a run. -/
def numbers (s : CallEncryption) : List CallOp → List Number
  | [] => []
  | op :: ops => (s.number? crypto op).toList ++ numbers (s.step crypto op) ops

/-- The numbers that a run accepts. -/
def accepted (s : CallEncryption) : List CallOp → List Number
  | [] => []
  | op :: ops => (s.accepted? crypto op).toList ++ accepted (s.step crypto op) ops

end

section

variable {crypto : CallCrypto}

theorem encrypt_seen (s : CallEncryption) (now : Rat) (random : Random) (channelId : BitVec 32) (data : Bytes)
    (length : Nat) : (s.encrypt crypto now random channelId data length).1.seen = s.seen := by
  obtain ⟨seqno, hstate⟩ := s.encrypt_state crypto now random channelId data length
  simp [hstate]

theorem addSharedKey_seen (s : CallEncryption) (now : Rat) (epoch : Int) (epochHash : UInt256) (key : Bytes)
    (groupState : GroupState) : (s.addSharedKey crypto now epoch epochHash key groupState).1.seen = s.seen := by
  rw [addSharedKey]
  dsimp only
  generalize hblock : groupState.getParticipant _ >>= _ = block
  rcases commit_cases (s.sync now) block with ⟨s', u, hok, hcommit⟩ | ⟨hkept, -⟩
  · rw [hcommit]
    rw [← hblock] at hok
    simp only [bind_ok_iff, pure_def, ok.injEq, Prod.mk.injEq] at hok
    obtain ⟨_, -, _, -, _, -, rfl, -⟩ := hok
    exact sync_seen s now
  · rw [hkept, sync_seen]

/-- What a call does to the windows: nothing, unless it accepts a number, which
the window of its sender and channel did not refuse. -/
theorem step_seen (crypto : CallCrypto) (s : CallEncryption) (op : CallOp) :
    (s.accepted? crypto op = none ∧ (s.step crypto op).seen = s.seen) ∨
    ∃ n, s.accepted? crypto op = some n ∧ s.number? crypto op = some n ∧
      ¬ Refuses toNat (s.seen (n.publicKey, n.channelId)) n.seqno ∧
      (s.step crypto op).seen = Function.update s.seen (n.publicKey, n.channelId)
        (forgetSeen n.seqno (emplace toNat n.seqno (s.seen (n.publicKey, n.channelId)))) := by
  cases op with
  | addSharedKey now epoch epochHash key groupState =>
    exact .inl ⟨rfl, addSharedKey_seen ..⟩
  | forgetSharedKey now cached epoch => exact .inl ⟨rfl, sync_seen s now⟩
  | encrypt now random channelId data length => exact .inl ⟨rfl, encrypt_seen ..⟩
  | decrypt now userId packet =>
    rw [step, accepted?, decrypt]
    generalize hblock : (s.sync now).readPacket userId packet >>= _ = block
    rcases commit_cases (s.sync now) block with ⟨s', data, hok, hcommit⟩ | ⟨hkept, hfailed⟩
    · rw [← hblock] at hok
      simp only [bind_ok_iff, pure_def, ok.injEq, Prod.mk.injEq] at hok
      obtain ⟨parts, hread, opened, hopen, _, hcheck, s1, hmark, rfl, -⟩ := hok
      have hnumber : s.number? crypto (.decrypt now userId packet) = some opened.number := by
        rw [number?, hread, ok_bind, hopen]
      rw [checkNotSeen_ok_iff, sync_seen] at hcheck
      simp only [markAsSeen, bind_ok_iff, check_ok_iff, exists_const, pure_def,
        ok.injEq, sync_seen] at hmark
      obtain ⟨-, rfl⟩ := hmark
      rw [hcommit]
      exact .inr ⟨opened.number, hnumber, hnumber, hcheck, rfl⟩
    · simp [hkept, hfailed, sync_seen]

/-- What holds after a run that accepted some numbers: they are refused from now on. -/
structure Guarded (s : CallEncryption) (numbers : List Number) : Prop where
  windows : ∀ key, IsWindow (s.seen key)
  refuses : ∀ n ∈ numbers, Refuses toNat (s.seen (n.publicKey, n.channelId)) n.seqno

variable {s : CallEncryption} {old : List Number}

theorem Guarded.step (h : Guarded s old) {op : CallOp}
    (hlow : ∀ n, s.number? crypto op = some n → n.seqno < wrapsFrom) :
    Guarded (s.step crypto op) (old ++ (s.accepted? crypto op).toList) ∧
      ∀ n, s.accepted? crypto op = some n → n ∉ old := by
  rcases step_seen crypto s op with ⟨hnone, hseen⟩ | ⟨n, hsome, hnumber, hnew, hseen⟩
  · rw [hnone, Option.toList_none, append_nil]
    exact ⟨⟨by rw [hseen]; exact h.windows, by rw [hseen]; exact h.refuses⟩, (fun _ hmem => nomatch hmem)⟩
  · have hlow := hlow n hnumber
    have hwindow := h.windows (n.publicKey, n.channelId)
    rw [hsome, Option.toList_some]
    refine ⟨⟨fun key => ?_, fun n' hn' => ?_⟩, fun n' hn' hold => ?_⟩
    · by_cases hkey : key = (n.publicKey, n.channelId)
      · subst hkey
        rw [hseen, Function.update_self]
        exact hwindow.forgetSeen hnew
      · simp [hseen, Function.update_of_ne hkey, h.windows]
    · rw [mem_append, mem_singleton] at hn'
      by_cases hkey : (n'.publicKey, n'.channelId) = (n.publicKey, n.channelId)
      · rw [hkey, hseen, Function.update_self]
        refine hwindow.refuses_forgetSeen hnew hlow ?_
        rcases hn' with hold | rfl
        · have hrefuses := h.refuses n' hold
          simp_all
        · exact .inr rfl
      · rw [hseen, Function.update_of_ne hkey]
        rcases hn' with hold | rfl
        · exact h.refuses n' hold
        · exact absurd rfl hkey
    · cases hn'
      exact hnew (h.refuses n hold)

theorem Guarded.run (h : Guarded s old) (hold : old.Nodup) {ops : List CallOp}
    (hlow : ∀ n ∈ s.numbers crypto ops, n.seqno < wrapsFrom) : (old ++ s.accepted crypto ops).Nodup := by
  induction ops generalizing s old with
  | nil => rwa [accepted, append_nil]
  | cons op ops ih =>
    have hfirst : ∀ n, s.number? crypto op = some n → n.seqno < wrapsFrom := by
      intro n hn
      exact hlow n (by rw [numbers, hn]; exact mem_cons_self ..)
    obtain ⟨hguarded, hnew⟩ := h.step hfirst
    rw [accepted, ← append_assoc]
    refine ih hguarded ?_ fun n hn => hlow n (by rw [numbers]; exact mem_append_right _ hn)
    cases haccepted : s.accepted? crypto op with
    | none => rwa [Option.toList_none, append_nil]
    | some n =>
      grind

end

/-! ## Where the addition wraps around -/

theorem forgetSeen_singleton (h : ¬ seqno < wrapsFrom) : forgetSeen seqno [seqno] = [] := by
  have hhigh : 0xfffffc00 ≤ seqno.toNat := Nat.not_lt.mp h
  have hwraps : seqno + 1024 < seqno := by
    rw [BitVec.lt_def, BitVec.toNat_add]
    have hconst : (1024 : BitVec 32).toNat = 1024 := rfl
    have := seqno.isLt
    omega
  rw [forgetSeen, if_pos (.inr hwraps), forgetSeen]

/-- The sender of the samples, at the number before `seqno`. -/
def sampleSenderBefore (seqno : BitVec 32) : CallEncryption := { sampleSender with seqno := fun _ => seqno - 1 }

theorem sampleSenderBefore_sync (seqno : BitVec 32) :
    (sampleSenderBefore seqno).sync 0 = sampleSenderBefore seqno := rfl

theorem sampleSender_epochs : sampleSender.epochs ≠ [] ∧ sampleSender.epochs.length ≤ maxActiveEpochs := by
  decide +kernel

theorem sampleReceiver_sync : sampleReceiver.sync 0 = sampleReceiver := rfl

theorem sampleReceiver_seen (key : PublicKey × BitVec 32) : sampleReceiver.seen key = [] := rfl

/-- The receiver of the samples is as before after a number of the last 1024, so
that it accepts it again and again. -/
theorem decrypt_wrapped (h : ¬ seqno < wrapsFrom) :
    ∃ packet data, sampleReceiver.decrypt sampleCallCrypto 0 1 packet = (sampleReceiver, .ok data) ∧
      sampleReceiver.number? sampleCallCrypto (.decrypt 0 1 packet) = some ⟨5, 9, seqno⟩ := by
  have hnext : seqno - 1 + 1 = seqno := BitVec.sub_add_cancel seqno 1
  have hroom : (sampleSenderBefore seqno).seqno 9 ≠ BitVec.allOnes 32 := by
    intro hmax
    have hzero : seqno - 1 + 1 = 0 := by
      change seqno - 1 = BitVec.allOnes 32 at hmax
      rw [hmax]
      rfl
    rw [hnext] at hzero
    exact h (by rw [hzero]; decide)
  obtain ⟨s', packet, hencrypt⟩ : ∃ s' bytes,
      (sampleSenderBefore seqno).encrypt sampleCallCrypto 0 sampleRandom 9 [1, 2, 3] 2 = (s', .ok bytes) :=
    encrypt_total (by decide) (by decide) sampleSender_epochs.1 sampleSender_epochs.2 (by decide +kernel) hroom
      (by decide) fun message => ⟨_, rfl⟩
  have hsent := encrypt_ok hencrypt
  rw [sampleSenderBefore_sync] at hsent
  have hfirst : FirstKnown (sampleSenderBefore seqno).epochs sampleReceiver ⟨4, 80, 1, [2], sampleGroup⟩
      ⟨4, 80, 2, [2], sampleGroup⟩ := sampleFirstKnown
  have hother : (1 : BitVec 64) ≠ sampleReceiver.userId := by decide +kernel
  have hparticipant : sampleGroup.getParticipantById 1 = .ok ⟨1, 7, 5, 1⟩ := rfl
  obtain ⟨parts, hread, -, hopen⟩ := openPacket_sent sampleCallCrypto_aesInverts sampleCallCrypto_verifies hsent hother
    sampleSender_epochs.2 hfirst rfl hparticipant rfl
  have hopen : sampleReceiver.openPacket sampleCallCrypto 1 parts = .ok ⟨5, 9, seqno, [3]⟩ := by
    rw [hopen]
    change ok (Opened.mk 5 9 (seqno - 1 + 1) [3]) = _
    rw [hnext]
  have hcheck : sampleReceiver.checkNotSeen 5 9 seqno = .ok () := rfl
  obtain ⟨r', hmark, hdecrypt⟩ := decrypt_of_openPacket (r := sampleReceiver) 0 hread hopen hcheck
  -- the only number of the window is dropped at once
  have hr' : r' = sampleReceiver := by
    rw [sampleReceiver_sync, markAsSeen, sampleReceiver_seen, check_true not_mem_nil] at hmark
    cases hmark
    have hempty : forgetSeen seqno (emplace toNat seqno []) = [] := forgetSeen_singleton h
    have hsame : Function.update sampleReceiver.seen (5, 9) [] = sampleReceiver.seen := by
      rw [← sampleReceiver_seen (5, 9), Function.update_eq_self]
    simp only [hempty, hsame]
  refine ⟨packet, _, hr' ▸ hdecrypt, ?_⟩
  rw [number?, sampleReceiver_sync, hread, ok_bind, hopen]
  rfl

/-- **Replays.** In the runs of any participant whose packets have numbers up to a
limit, every number of a sender and a channel is accepted at most once, if and
only if the limit is before the last 1024 numbers. -/
theorem accepts_once_iff (limit : BitVec 32) :
    (∀ (crypto : CallCrypto) (s : CallEncryption) (ops : List CallOp), (∀ key, s.seen key = []) →
      (∀ n ∈ s.numbers crypto ops, n.seqno ≤ limit) → (s.accepted crypto ops).Nodup) ↔ limit < wrapsFrom := by
  constructor
  · intro honce
    by_contra hhigh
    obtain ⟨packet, data, hdecrypt, hnumber⟩ := decrypt_wrapped hhigh
    have hstep : sampleReceiver.step sampleCallCrypto (.decrypt 0 1 packet) = sampleReceiver := by
      rw [step, hdecrypt]
    have haccepted : sampleReceiver.accepted? sampleCallCrypto (.decrypt 0 1 packet) = some ⟨5, 9, limit⟩ := by
      rw [accepted?, hdecrypt, hnumber]
      rfl
    have hlimit := honce sampleCallCrypto sampleReceiver [.decrypt 0 1 packet, .decrypt 0 1 packet] sampleReceiver_seen
    simp_all [numbers, accepted]
  · intro hlow crypto s ops hfresh hlimit
    have hguarded : Guarded s [] := by
      refine ⟨fun key => ?_, (fun _ hmem => nomatch hmem)⟩
      rw [hfresh key]
      exact ⟨List.Pairwise.nil, Nat.zero_le _⟩
    refine hguarded.run nodup_nil fun n hn => ?_
    exact BitVec.lt_def.mpr (Nat.lt_of_le_of_lt (BitVec.le_def.mp (hlimit n hn)) (BitVec.lt_def.mp hlow))

def sampleLastBytes : Bytes := (sampleSend (sampleSenderBefore 0xffffffff) [1, 2, 3]).2.get (by decide +kernel)

/-- The packet with the last number of a sender is accepted twice. -/
theorem replays_last :
    sampleReceiver.accepted sampleCallCrypto [.decrypt 0 1 sampleLastBytes, .decrypt 0 1 sampleLastBytes] =
      [⟨5, 9, 0xffffffff⟩, ⟨5, 9, 0xffffffff⟩] := by
  decide +kernel

end Tdlib.E2e.CallEncryption
