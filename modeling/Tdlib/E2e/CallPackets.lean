/-
The packets of a call.

A packet has its parts one after another: the prefix that stays unencrypted,
the hashes of the epochs, the secret of the packet for each of them, the
encrypted data with its signature, and the size of the prefix. The receiver
takes it apart from both ends (`readPacket_layout`), and gets back what was sent
if the first epoch it knows is one that the two share (`decrypt_shared`).
-/
import Tdlib.E2e.ChainModes
import Tdlib.E2e.CallEncryption

namespace Tdlib.E2e

open EpochInfo
open List hiding pure_def
open Outcome TlParser MessageEncryption

/-- Signatures verify. -/
def CallCrypto.SignaturesVerify (crypto : CallCrypto) : Prop :=
  ∀ privateKey data signature, crypto.sign privateKey data = .ok signature →
    crypto.verify (crypto.toPublicKey privateKey) data signature = none

namespace CallEncryption

/-! ## The layout -/

theorem readsBack_uint256 (x : UInt256) : ReadsBack (pure x.store) fetchUInt256 x := by
  intro bytes hbytes rest len
  cases hbytes
  exact TrieNode.fetchUInt256_store x rest len none

theorem readsBack_raw {n : Nat} {bytes : Bytes} (h : bytes.length = n) :
    ReadsBack (pure bytes) (fetchStringRaw n) bytes := by
  intro stored hstored rest len
  cases hstored
  exact fetchStringRaw_append h rest len

theorem fetchItems_uint256 (xs : List UInt256) (rest : Bytes) (len : Nat) :
    fetchItems fetchUInt256 xs.length ⟨(xs.map UInt256.store).flatten ++ rest, len, none⟩ =
      (xs, ⟨rest, len, none⟩) := by
  have hitems : xs.mapM (fun x => (pure x.store : Outcome Bytes)) = .ok (xs.map UInt256.store) := mapM_pure
  exact fetchItems_append (fun x _ => readsBack_uint256 x) hitems rest len

theorem fetchItems_raw {n : Nat} {xs : List Bytes} (h : ∀ x ∈ xs, x.length = n) (rest : Bytes) (len : Nat) :
    fetchItems (fetchStringRaw n) xs.length ⟨xs.flatten ++ rest, len, none⟩ = (xs, ⟨rest, len, none⟩) := by
  have hitems : xs.mapM (fun x => (pure x : Outcome Bytes)) = .ok xs := by
    rw [mapM_pure, map_id']
    rfl
  exact fetchItems_append (fun x hx => readsBack_raw (h x hx)) hitems rest len

theorem headerA_eq (epochs : List EpochInfo) :
    headerA epochs = leBytes 4 epochs.length ++ ((epochs.map epochHash).map UInt256.store).flatten := by
  rw [headerA, map_map]
  rfl

variable {channelId : BitVec 32} {random : Random} {userId : BitVec 64} {r : CallEncryption}

theorem readPacket_layout {pfx : Bytes} (body : Bytes)
    {epochs : List EpochInfo} {headers : List Bytes} (huser : userId ≠ r.userId) (hpfx : pfx.length < 2 ^ 16)
    (hactive : epochs.length ≤ maxActiveEpochs) (hcount : headers.length = epochs.length)
    (hheaders : ∀ header ∈ headers, header.length = 32) :
    r.readPacket userId (pfx ++ (headerA epochs ++ (headers.flatten ++ (body ++ leBytes 4 pfx.length)))) =
      .ok ⟨pfx, headerA epochs, epochs.map epochHash, headers, body⟩ := by
  have hactive' : epochs.length ≤ 15 := hactive
  generalize hdata : pfx ++ (headerA epochs ++ (headers.flatten ++ body)) = data
  have hpacket : pfx ++ (headerA epochs ++ (headers.flatten ++ (body ++ leBytes 4 pfx.length))) =
      data ++ leBytes 4 pfx.length := by
    simp [← hdata, append_assoc]
  have hcut : (data ++ leBytes 4 pfx.length).length - 4 = data.length := by
    simp
  have hsize : leNat (leBytes 4 pfx.length) = pfx.length := leNat_leBytes_of_lt (by omega)
  have hlong : ¬ (data.length < pfx.length ∨ 2 ^ 16 ≤ pfx.length) := by
    rw [← hdata, length_append]
    omega
  have hrest : data.drop pfx.length = headerA epochs ++ (headers.flatten ++ body) := by rw [← hdata, drop_left]
  have hfront : data.take pfx.length = pfx := by rw [← hdata, take_left]
  have hhead : fetchInt (new (headerA epochs ++ (headers.flatten ++ body))) =
      (epochs.length, ⟨((epochs.map epochHash).map UInt256.store).flatten ++ (headers.flatten ++ body),
        (headerA epochs ++ (headers.flatten ++ body)).length, none⟩) := by
    have hsplit : headerA epochs ++ (headers.flatten ++ body) = leBytes 4 epochs.length ++
        (((epochs.map epochHash).map UInt256.store).flatten ++ (headers.flatten ++ body)) := by
      rw [headerA_eq, append_assoc]
    rw [new_eq hsplit, fetchInt_append (by omega)]
  have hhashes := fetchItems_uint256 (epochs.map epochHash) (headers.flatten ++ body)
    (headerA epochs ++ (headers.flatten ++ body)).length
  rw [length_map] at hhashes
  have hitems := fetchItems_raw hheaders body (headerA epochs ++ (headers.flatten ++ body)).length
  rw [hcount] at hitems
  have hbody := fetchStringRaw_append (rfl : body.length = body.length) []
    (headerA epochs ++ (headers.flatten ++ body)).length
  rw [append_nil] at hbody
  have hheader : (headerA epochs ++ (headers.flatten ++ body)).take
      ((headerA epochs ++ (headers.flatten ++ body)).length - (headers.flatten ++ body).length) = headerA epochs := by
    rw [length_append, Nat.add_sub_cancel, take_left]
  have hmod : epochs.length % 256 = epochs.length := Nat.mod_eq_of_lt (by omega)
  rw [hpacket, readPacket]
  simp only [hcut, drop_left, take_left, hsize]
  rw [ensure_true (by rw [length_append, length_leBytes]; omega), ok_bind,
    ensure_true hlong, ok_bind, ensure_true huser, ok_bind, hrest, hhead]
  rw [ensure_true (by omega), ok_bind, ensure_true (by omega), ok_bind, hmod,
    ensure_true hactive, ok_bind, hhashes]
  rw [hheader, hitems]
  rw [hbody, hfront]
  rfl

/-! ## The encrypted data -/

theorem readPayload_store {publicKey : PublicKey} (hchannel : validateChannelId channelId = .ok ())
    (seqno : BitVec 32) (result : Bytes) :
    readPayload publicKey (storeBits 4 channelId ++ (storeBits 4 seqno ++ result)) =
      .ok ⟨publicKey, channelId, seqno, result⟩ := by
  have hresult := fetchStringRaw_append (rfl : result.length = result.length) []
    (storeBits 4 channelId ++ (storeBits 4 seqno ++ result)).length
  rw [append_nil] at hresult
  rw [readPayload, new, fetchBits_storeBits rfl]
  dsimp only
  rw [hchannel, ok_bind, fetchBits_storeBits rfl]
  rw [hresult]
  rfl

section

variable {crypto : CallCrypto}

/-- What `encrypt_packet_with_secret` makes of a packet: the number goes up by one. -/
structure Sealed (crypto : CallCrypto) (s s' : CallEncryption) (channelId : BitVec 32) (random : Random)
    (unencryptedPart packet oneTimeSecret encryptedPacket : Bytes) : Prop where
  channel : validateChannelId channelId = .ok ()
  room : s.seqno channelId ≠ BitVec.allOnes 32
  next : s' = { s with seqno := Function.update s.seqno channelId (s.seqno channelId + 1) }
  encrypted : ∃ encryptedPayload largeMsgId signature,
    encryptData crypto random
      (storeBits 4 channelId ++ (storeBits 4 (s.seqno channelId + 1) ++ packet)) oneTimeSecret
      (makeMagic TlId.callPacket ++ unencryptedPart) = .ok (encryptedPayload, largeMsgId) ∧
    crypto.sign s.privateKey (makeMagic TlId.callPacketLargeMsgId ++ largeMsgId) = .ok signature ∧
    encryptedPacket = encryptedPayload ++ storeBits 64 signature

variable {s s' : CallEncryption} {participant : GroupParticipant} {unencryptedHeaderLength : Nat}
variable {oneTimeSecret encryptedPacket : Bytes} {epochs : List EpochInfo} {epoch info : EpochInfo}

theorem encryptPacketWithSecret_ok {unencryptedPart packet : Bytes}
    (h : s.encryptPacketWithSecret crypto random channelId unencryptedPart packet oneTimeSecret =
    (s', .ok encryptedPacket)) :
    Sealed crypto s s' channelId random unencryptedPart packet oneTimeSecret encryptedPacket := by
  rw [encryptPacketWithSecret] at h
  split at h
  next => simp at h
  next => simp at h
  next hchecks =>
    simp only [bind_ok_iff, ensure_ok_iff] at hchecks
    obtain ⟨_, hchannel, hroom⟩ := hchecks
    rw [commit_ok_iff] at h
    simp only [bind_ok_iff, pure_def, ok.injEq, Prod.mk.injEq] at h
    obtain ⟨⟨encryptedPayload, largeMsgId⟩, hpayload, signature, hsignature, hs', hpacket⟩ := h
    exact ⟨hchannel, hroom, hs'.symm, encryptedPayload, largeMsgId, signature, hpayload, hsignature, hpacket.symm⟩

/-- The receiver opens what was sealed, if it has the secret and the key of the
sender. -/
theorem openPacketWithSecret_sealed (haes : crypto.AesInverts) (hverify : crypto.SignaturesVerify) {packet : Bytes}
    {sent : Packet}
    (h : Sealed crypto s s' channelId random (sent.unencryptedHeader ++ sent.unencryptedPrefix) packet oneTimeSecret
    sent.encryptedPacket) {groupState : GroupState}
    (hparticipant : groupState.getParticipantById userId = .ok participant)
    (hkey : participant.publicKey = crypto.toPublicKey s.privateKey) :
    openPacketWithSecret crypto userId sent oneTimeSecret groupState =
      .ok ⟨crypto.toPublicKey s.privateKey, channelId, s.seqno channelId + 1, packet⟩ := by
  obtain ⟨encryptedPayload, largeMsgId, signature, hpayload, hsignature, hpacket⟩ := h.encrypted
  have hlen : (storeBits 64 signature).length = 64 := length_leBytes 64 _
  have hcut : sent.encryptedPacket.length - 64 = encryptedPayload.length := by
    rw [hpacket, length_append, hlen, Nat.add_sub_cancel]
  have hdrop : sent.encryptedPacket.drop encryptedPayload.length = storeBits 64 signature := by
    rw [hpacket, drop_left]
  have htake : sent.encryptedPacket.take encryptedPayload.length = encryptedPayload := by
    rw [hpacket, take_left]
  have hread := ofNat_leNat_storeBits (w := 64) (n := 512) (by decide) signature
  rw [openPacketWithSecret, hparticipant, ok_bind]
  dsimp only
  rw [hcut, hdrop, htake, hread, hkey,
    ensure_true (by rw [hpacket, length_append, hlen]; omega), ok_bind,
    decryptData_encryptData haes hpayload, ok_bind]
  rw [hverify _ _ _ hsignature]
  exact readPayload_store h.channel _ _

/-! ## From the sender to the receiver -/

/-- What `encrypt` makes of data: the state after `sync` seals it for all of its
epochs. -/
structure Sent (crypto : CallCrypto) (s s' : CallEncryption) (random : Random) (channelId : BitVec 32) (data : Bytes)
    (unencryptedHeaderLength : Nat) (packet : Bytes) : Prop where
  short : unencryptedHeaderLength ≤ data.length ∧ unencryptedHeaderLength < 2 ^ 16
  epochs : s'.epochs = s.epochs
  packet : ∃ encryptedPacket encryptedHeaders,
    Sealed crypto s s' channelId (random.skip 32) (headerA s.epochs ++ data.take unencryptedHeaderLength)
      (data.drop unencryptedHeaderLength) (random.bytes 32) encryptedPacket ∧
    s.epochs.mapM (encryptedHeader crypto (random.bytes 32) encryptedPacket) = .ok encryptedHeaders ∧
    packet = data.take unencryptedHeaderLength ++ (headerA s.epochs ++ (encryptedHeaders.flatten ++
      (encryptedPacket ++ leBytes 4 unencryptedHeaderLength)))

theorem encrypt_ok {now : Rat} {data packet : Bytes}
    (h : s.encrypt crypto now random channelId data unencryptedHeaderLength = (s', .ok packet)) :
    Sent crypto (s.sync now) s' random channelId data unencryptedHeaderLength packet := by
  rw [encrypt] at h
  split at h
  next => simp at h
  next => simp at h
  next hchecks =>
    simp only [bind_ok_iff, ensure_ok_iff, check_ok_iff, exists_const] at hchecks
    generalize hseal : (s.sync now).encryptPacketWithSecret crypto (random.skip 32) channelId
      (headerA (s.sync now).epochs ++ data.take unencryptedHeaderLength) (data.drop unencryptedHeaderLength)
      (random.bytes 32) = result at h
    obtain ⟨s1, outcome⟩ := result
    rw [commit_ok_iff] at h
    simp only [bind_ok_iff, pure_def, ok.injEq, Prod.mk.injEq] at h
    obtain ⟨encryptedPacket, houtcome, encryptedHeaders, hheaders, rfl, rfl⟩ := h
    subst houtcome
    have hsealed := encryptPacketWithSecret_ok hseal
    have hepochs : s1.epochs = (s.sync now).epochs := by rw [hsealed.next]
    rw [hepochs] at hheaders ⊢
    exact ⟨by omega, hepochs, encryptedPacket, encryptedHeaders, hsealed, hheaders, rfl⟩

theorem encryptedHeaders_total (crypto : CallCrypto) (hsecret : oneTimeSecret.length = 32)
    (hpacket : 16 ≤ encryptedPacket.length) (epochs : List EpochInfo) :
    ∃ headers, epochs.mapM (encryptedHeader crypto oneTimeSecret encryptedPacket) = .ok headers := by
  induction epochs with
  | nil => exact ⟨[], rfl⟩
  | cons epoch epochs ih =>
    obtain ⟨headers, hheaders⟩ := ih
    obtain ⟨header, hheader⟩ :=
      encryptHeader_total crypto epoch.secret hpacket hsecret
    have hlen := (encryptHeader_ok hheader).2.1
    refine ⟨header :: headers, ?_⟩
    simp [mapM_cons, encryptedHeader, hheader, ok_bind, check_true hlen, hheaders]

/-- Data of a size that the cipher takes is encrypted, if there is an epoch and a
number left. -/
theorem encrypt_total {now : Rat} {data : Bytes} (hlength : unencryptedHeaderLength ≤ data.length)
    (hshort : unencryptedHeaderLength < 2 ^ 16) (hepochs : (s.sync now).epochs ≠ [])
    (hactive : (s.sync now).epochs.length ≤ maxActiveEpochs) (hchannel : validateChannelId channelId = .ok ())
    (hroom : s.seqno channelId ≠ BitVec.allOnes 32) (hdata : data.length < 2 ^ 31 - 64)
    (hsign : ∀ message, ∃ signature, crypto.sign s.privateKey message = .ok signature) :
    ∃ s' bytes, s.encrypt crypto now random channelId data unencryptedHeaderLength = (s', .ok bytes) := by
  have hactive' : (s.sync now).epochs.length ≤ 15 := hactive
  rw [← sync_seqno s now] at hroom
  rw [← sync_privateKey s now] at hsign
  rw [encrypt]
  generalize s.sync now = s at hepochs hactive' hroom hsign
  simp only [ensure_true (show ¬ (data.length < unencryptedHeaderLength ∨ 2 ^ 16 ≤ unencryptedHeaderLength)
    by omega), ensure_true hepochs, check_true (show s.epochs.length < 2 ^ 31 by omega),
    ok_bind, encryptPacketWithSecret, hchannel, ensure_true hroom]
  -- the encrypted packet, its signature and the headers
  have hheader : (headerA s.epochs).length = 4 + 32 * s.epochs.length := by
    rw [headerA, length_append, length_leBytes, length_flatten, map_map]
    have hsizes : s.epochs.map (List.length ∘ fun epoch => epoch.epochHash.store) = s.epochs.map fun _ => 32 :=
      map_congr_left fun epoch _ => length_leBytes 32 _
    rw [hsizes, map_const', sum_replicate_nat, Nat.mul_comm]
  have hpayloadSize : (storeBits 4 channelId ++ (storeBits 4 (s.seqno channelId + 1) ++
      data.drop unencryptedHeaderLength)).length < 2 ^ 31 - 32 := by
    simp only [length_append, storeBits, length_leBytes, length_drop]
    omega
  have hextraSize : (makeMagic TlId.callPacket ++ (headerA s.epochs ++ data.take unencryptedHeaderLength)).length <
      2 ^ 31 := by
    simp only [length_append, makeMagic, length_leBytes, length_take, hheader]
    omega
  obtain ⟨⟨encryptedPayload, largeMsgId⟩, hpayload⟩ :=
    encryptData_total crypto (random.skip 32) (random.bytes 32) hpayloadSize hextraSize
  obtain ⟨signature, hsignature⟩ := hsign (makeMagic TlId.callPacketLargeMsgId ++ largeMsgId)
  have hpacketSize : 16 ≤ (encryptedPayload ++ storeBits 64 signature).length := by
    rw [length_append, storeBits, length_leBytes]
    omega
  obtain ⟨headers, hheaders⟩ := encryptedHeaders_total crypto (random.length_bytes 32) hpacketSize s.epochs
  simp_all [ok_bind, pure_def, commit]

theorem encryptedHeader_ok {header : Bytes}
    (h : encryptedHeader crypto oneTimeSecret encryptedPacket epoch = .ok header) :
    encryptHeader crypto oneTimeSecret encryptedPacket epoch.secret = .ok header ∧
      header.length = 32 := by
  simp only [encryptedHeader, bind_ok_iff, check_ok_iff, exists_const, pure_def,
    ok.injEq] at h
  obtain ⟨header', hencrypt, hlen, rfl⟩ := h
  exact ⟨hencrypt, hlen⟩

theorem encryptedHeaders_ok {headers : List Bytes}
    (h : epochs.mapM (encryptedHeader crypto oneTimeSecret encryptedPacket) = .ok headers) :
    headers.length = epochs.length ∧ ∀ header ∈ headers, header.length = 32 := by
  induction epochs generalizing headers with
  | nil =>
    cases h
    exact ⟨rfl, (fun _ hmem => nomatch hmem)⟩
  | cons epoch epochs ih =>
    obtain ⟨header, headers', hheader, hheaders, rfl⟩ := mapM_cons_ok h
    obtain ⟨hcount, hlen⟩ := ih hheaders
    refine ⟨by rw [length_cons, length_cons, hcount], fun x hx => ?_⟩
    rcases mem_cons.mp hx with rfl | hx
    · exact (encryptedHeader_ok hheader).2
    · exact hlen x hx

/-- The epoch that the receiver takes: the first one of the sender that it knows. -/
structure FirstKnown (epochs : List EpochInfo) (r : CallEncryption) (epoch info : EpochInfo) : Prop where
  split : ∃ pre post, epochs = pre ++ epoch :: post ∧ ∀ e ∈ pre, r.epochByHash? e.epochHash = none
  known : r.epochByHash? epoch.epochHash = some info

/-- The header of the first epoch that is known decrypts to the secret of the
packet. -/
theorem FirstKnown.knownEpoch (h : FirstKnown epochs r epoch info) (packet : Packet)
    (hhashes : packet.epochHashes = epochs.map epochHash)
    (hheaders : epochs.mapM (encryptedHeader crypto oneTimeSecret packet.encryptedPacket) =
    .ok packet.encryptedHeaders) : ∃ header, r.knownEpoch packet = some (info, header) ∧
      encryptedHeader crypto oneTimeSecret packet.encryptedPacket epoch = .ok header := by
  obtain ⟨⟨pre, post, hsplit, hpre⟩, hknown⟩ := h
  rw [CallEncryption.knownEpoch, hhashes]
  generalize packet.encryptedHeaders = headers at hheaders
  clear hhashes
  subst hsplit
  -- the epochs before it are skipped one by one
  induction pre generalizing headers with
  | nil =>
    obtain ⟨header, headers', hheader, -, rfl⟩ := mapM_cons_ok hheaders
    refine ⟨header, ?_, hheader⟩
    simp_all
  | cons e pre ih =>
    obtain ⟨header, headers', -, hrest, rfl⟩ := mapM_cons_ok hheaders
    simp_all

theorem openPacket_sent (haes : crypto.AesInverts) (hverify : crypto.SignaturesVerify) {data bytes : Bytes}
    (hsent : Sent crypto s s' random channelId data unencryptedHeaderLength bytes)
    (huser : userId ≠ r.userId) (hactive : s.epochs.length ≤ maxActiveEpochs)
    (hfirst : FirstKnown s.epochs r epoch info) (hsecret : info.secret = epoch.secret)
    (hparticipant : info.groupState.getParticipantById userId = .ok participant)
    (hkey : participant.publicKey = crypto.toPublicKey s.privateKey) :
    ∃ packet, r.readPacket userId bytes = .ok packet ∧ packet.unencryptedPrefix = data.take unencryptedHeaderLength ∧
      r.openPacket crypto userId packet = .ok ⟨crypto.toPublicKey s.privateKey, channelId, s.seqno channelId + 1,
        data.drop unencryptedHeaderLength⟩ := by
  obtain ⟨encryptedPacket, encryptedHeaders, hsealed, hheaders, rfl⟩ := hsent.packet
  obtain ⟨hcount, hlen⟩ := encryptedHeaders_ok hheaders
  have hfront : (data.take unencryptedHeaderLength).length = unencryptedHeaderLength := by
    rw [length_take, Nat.min_eq_left hsent.short.1]
  have hread := readPacket_layout encryptedPacket huser
    (show (data.take unencryptedHeaderLength).length < 2 ^ 16 by rw [hfront]; exact hsent.short.2) hactive hcount hlen
  rw [hfront] at hread
  refine ⟨_, hread, rfl, ?_⟩
  obtain ⟨header, hknown, hheader⟩ := hfirst.knownEpoch ⟨data.take unencryptedHeaderLength, headerA s.epochs,
    s.epochs.map epochHash, encryptedHeaders, encryptedPacket⟩ rfl hheaders
  rw [openPacket, hknown]
  dsimp only
  rw [hsecret, decryptHeader_encryptHeader haes (encryptedHeader_ok hheader).1, ok_bind]
  exact openPacketWithSecret_sealed haes hverify hsealed hparticipant hkey

theorem markAsSeen_of_checkNotSeen {publicKey : PublicKey} {seqno : BitVec 32}
    (h : r.checkNotSeen publicKey channelId seqno = .ok ()) :
    ∃ r', r.markAsSeen publicKey channelId seqno = .ok r' := by
  have hnot : seqno ∉ r.seen (publicKey, channelId) := by
    rw [checkNotSeen] at h
    split at h
    next hnil => rw [hnil]; exact not_mem_nil
    next first rest hcons =>
      rw [bind_ok_iff] at h
      obtain ⟨_, -, h⟩ := h
      simpa [ensure_ok_iff, hcons] using h
  simp [markAsSeen, check_true hnot]

/-- A packet that is opened, with a number that is not seen, is decrypted. -/
theorem decrypt_of_openPacket (now : Rat) {bytes : Bytes} {packet : Packet}
    {opened : Opened} (hread : (r.sync now).readPacket userId bytes = .ok packet)
    (hopen : (r.sync now).openPacket crypto userId packet = .ok opened)
    (hseen : (r.sync now).checkNotSeen opened.publicKey opened.channelId opened.seqno = .ok ()) :
    ∃ r', (r.sync now).markAsSeen opened.publicKey opened.channelId opened.seqno = .ok r' ∧
      r.decrypt crypto now userId bytes = (r', .ok (packet.unencryptedPrefix ++ opened.result)) := by
  obtain ⟨r', hr'⟩ := markAsSeen_of_checkNotSeen hseen
  refine ⟨r', hr', ?_⟩
  rw [decrypt, commit_ok_iff]
  simp [hread, hopen, hseen, hr', pure_def]

/-- **Packets are decrypted.** What the sender encrypts, with any prefix left
unencrypted, the receiver gets back, if the first epoch of the sender that it
knows is one they share, there are not too many of them, and the number is
neither seen nor older than all that are kept. -/
theorem decrypt_shared (haes : crypto.AesInverts) (hverify : crypto.SignaturesVerify) {s s' r : CallEncryption}
    {now now' : Rat} {random : Random} {channelId : BitVec 32} {data bytes : Bytes} {unencryptedHeaderLength : Nat}
    (hencrypt : s.encrypt crypto now random channelId data unencryptedHeaderLength = (s', .ok bytes))
    (huser : s.userId ≠ r.userId) (hactive : (s.sync now).epochs.length ≤ maxActiveEpochs) {epoch info : EpochInfo}
    (hfirst : FirstKnown (s.sync now).epochs (r.sync now') epoch info) (hsecret : info.secret = epoch.secret)
    {participant : GroupParticipant} (hparticipant : info.groupState.getParticipantById s.userId = .ok participant)
    (hkey : participant.publicKey = crypto.toPublicKey s.privateKey)
    (hseen : (r.sync now').checkNotSeen (crypto.toPublicKey s.privateKey) channelId (s.seqno channelId + 1) = .ok ()) :
    (r.decrypt crypto now' s.userId bytes).2 = .ok data := by
  have hsent := encrypt_ok hencrypt
  rw [← sync_userId r now'] at huser
  rw [← sync_privateKey s now] at hkey hseen
  rw [← sync_seqno s now] at hseen
  obtain ⟨packet, hread, hfront, hopen⟩ :=
    openPacket_sent haes hverify hsent huser hactive hfirst hsecret hparticipant hkey
  obtain ⟨r', -, hdecrypt⟩ := decrypt_of_openPacket _ hread hopen hseen
  rw [hdecrypt, hfront, take_append_drop]

end

/-! Two participants of the small group, over a cipher that only masks. -/

/-- A hash of 32 bytes. -/
def sampleMac (label : UInt8) (key message : Bytes) : Bytes := (sampleHash (key ++ label :: message)).store

theorem length_sampleMac (label : UInt8) (key message : Bytes) : (sampleMac label key message).length = 32 :=
  length_leBytes 32 _

def sampleMask (key _iv data : Bytes) : Bytes := data.map fun byte => byte ^^^ key.headD 0

def sampleCallCrypto : CallCrypto where
  toCrypto := sampleCrypto
  hmacSha256 := sampleMac 0
  hmacSha512 key message := sampleMac 1 key message ++ sampleMac 2 key message
  aesCbcEncrypt := sampleMask
  aesCbcDecrypt := sampleMask
  toPublicKey privateKey := privateKey
  sign privateKey data := .ok (privateKey.setWidth 512 + (sampleHash data).setWidth 512)
  x25519 _ _ := .ok []
  length_hmacSha256 := length_sampleMac 0
  length_hmacSha512 key message := by rw [length_append, length_sampleMac, length_sampleMac]
  length_aesCbcEncrypt _ _ _ := length_map _
  length_aesCbcDecrypt _ _ _ := length_map _

theorem sampleCallCrypto_aesInverts : sampleCallCrypto.AesInverts := by
  intro key iv data _
  change (data.map fun byte => byte ^^^ key.headD 0).map (fun byte => byte ^^^ key.headD 0) = data
  rw [map_map]
  refine (map_congr_left fun byte _ => ?_).trans (map_id data)
  rw [Function.comp_apply, UInt8.xor_assoc, UInt8.xor_self, UInt8.xor_zero, id]

theorem sampleCallCrypto_verifies : sampleCallCrypto.SignaturesVerify := by
  intro privateKey data signature hsign
  cases hsign
  exact if_pos rfl

/-- A participant that was given the keys of some epochs. -/
def sampleParty (userId : BitVec 64) (privateKey : PrivateKey) (keys : List (Int × UInt256 × Bytes)) :
    CallEncryption :=
  keys.foldl (fun s key => (s.addSharedKey sampleCallCrypto 0 key.1 key.2.1 key.2.2 sampleGroup).1)
    { userId, privateKey }

def sampleSender : CallEncryption := sampleParty 1 5 [(3, 70, [1]), (4, 80, [2])]

def sampleReceiver : CallEncryption := sampleParty 2 6 [(4, 80, [2]), (5, 90, [3])]

def sampleRandom : Random := fun _ => 7

/-- What the sender sends on channel 9, with the first two bytes unencrypted. -/
def sampleSend (s : CallEncryption) (data : Bytes) : CallEncryption × Outcome Bytes :=
  s.encrypt sampleCallCrypto 0 sampleRandom 9 data 2

def sampleBytes : Bytes := (sampleSend sampleSender [1, 2, 3, 4, 5]).2.get (by decide +kernel)

theorem sampleSend_eq : sampleSend sampleSender [1, 2, 3, 4, 5] =
    ((sampleSend sampleSender [1, 2, 3, 4, 5]).1, .ok sampleBytes) :=
  Prod.ext rfl (eq_ok_get _ _)

theorem sampleFirstKnown : FirstKnown (sampleSender.sync 0).epochs (sampleReceiver.sync 0)
    ⟨4, 80, 1, [2], sampleGroup⟩ ⟨4, 80, 2, [2], sampleGroup⟩ where
  split := ⟨[⟨3, 70, 1, [1], sampleGroup⟩], [], by decide +kernel, by decide +kernel⟩
  known := by decide +kernel

theorem decrypt_shared_sample : (sampleReceiver.decrypt sampleCallCrypto 0 1 sampleBytes).2 = .ok [1, 2, 3, 4, 5] := by
  have hparticipant : sampleGroup.getParticipantById 1 = .ok ⟨1, 7, 5, 1⟩ := by decide +kernel
  refine decrypt_shared (s := sampleSender) sampleCallCrypto_aesInverts sampleCallCrypto_verifies sampleSend_eq
    ?_ ?_ sampleFirstKnown rfl hparticipant ?_ ?_ <;> decide +kernel

/-! What the receiver refuses: a packet that comes after a later one, a packet of a
sender with an epoch that the receiver knows with another secret, and a packet of
a sender with sixteen epochs. -/

def sampleLater : CallEncryption × Outcome Bytes :=
  sampleSend (sampleSend sampleSender [1, 2, 3, 4, 5]).1 [6, 7, 8]

def sampleLaterBytes : Bytes := sampleLater.2.get (by decide +kernel)

/-- The receiver after the second packet. -/
def sampleAhead : CallEncryption × Outcome Bytes :=
  sampleReceiver.decrypt sampleCallCrypto 0 1 sampleLaterBytes

/-- It knows epoch 3 with another secret. -/
def sampleStranger : CallEncryption := sampleParty 2 6 [(3, 70, [8]), (4, 80, [2])]

def sampleCrowd : CallEncryption :=
  sampleParty 1 5 ((List.range 16).map fun (i : Nat) => ((i : Int), 70 + BitVec.ofNat 256 i, [2]))

def sampleCrowdedBytes : Bytes := (sampleSend sampleCrowd [1, 2, 3]).2.get (by decide +kernel)

theorem decrypt_refuses : (sampleAhead.2 = .ok [6, 7, 8] ∧ sampleAhead.1.seen (5, 9) = [2] ∧
      (sampleAhead.1.decrypt sampleCallCrypto 0 1 sampleBytes).2 = .error "Message is too old") ∧
    (sampleStranger.decrypt sampleCallCrypto 0 1 sampleBytes).2 = .error "Failed to decrypt: msg_id mismatch" ∧
    (sampleReceiver.decrypt sampleCallCrypto 0 1 sampleCrowdedBytes).2 = .error "Too many active epochs" := by
  decide +kernel

end CallEncryption

end Tdlib.E2e
