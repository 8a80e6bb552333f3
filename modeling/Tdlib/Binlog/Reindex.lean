/-
What `do_reindex` writes: to `path.new` the encryption event, if there is a
key, and the live events; then `path.new` takes the place of `path`.
-/
import Tdlib.Binlog.Sealed

namespace Tdlib.Db.Binlog

open Outcome

variable {c : Crypto} {r : Entropy} {b b1 b2 : Binlog} {enc : Encryption}

/-! ## Steps on the files -/

/-- `b1` comes from `b` with the steps `ss` on the files. -/
structure Takes (b b1 : Binlog) (ss : List FileStep) : Prop where
  steps : b1.steps = b.steps ++ ss
  disk : b1.disk = ss.foldl Disk.apply b.disk

/-- The fields that only `init`, `add_event` and `change_key` set. -/
structure SameRest (b b1 : Binlog) : Prop where
  processor : b1.processor = b.processor
  lastEventId : b1.lastEventId = b.lastEventId
  pendingEvents : b1.pendingEvents = b.pendingEvents
  dbKey : b1.dbKey = b.dbKey
  wrongPassword : b1.wrongPassword = b.wrongPassword

theorem SameRest.trans (h1 : SameRest b b1) (h2 : SameRest b1 b2) : SameRest b b2 :=
  ⟨h2.processor.trans h1.processor, h2.lastEventId.trans h1.lastEventId,
    h2.pendingEvents.trans h1.pendingEvents, h2.dbKey.trans h1.dbKey, h2.wrongPassword.trans h1.wrongPassword⟩

/-! ## Keys -/

/-- The log writes under `enc`, and has written `pos` bytes of events. -/
structure KeyState (c : Crypto) (b : Binlog) (enc : Option Encryption) (pos : Nat) : Prop where
  byteFlowFlag : b.byteFlowFlag = enc.isSome
  encryptionType : b.encryptionType = if enc.isSome then .aesCtr else .none
  length_key : b.aesCtrKey.length = 32
  dbKey : enc = none → b.dbKey.isEmpty = true
  isFor : ∀ e, enc = some e → e.IsFor c b.dbKey
  keySalt : ∀ e, enc = some e → b.aesCtrKeySalt = e.keySalt
  key : ∀ e, enc = some e → b.aesCtrKey = e.key
  aesCtrState : ∀ e, enc = some e → b.aesCtrState = ⟨e.key, e.iv, pos⟩

/-- The salt that is kept, if any, is one of the database key's. -/
def KeyReady (c : Crypto) (b : Binlog) : Prop :=
  b.aesCtrKey.length = 32 ∧ (b.dbKey.isEmpty = false → b.aesCtrKeySalt ≠ [] →
    b.aesCtrKeySalt.length = 32 ∧ b.aesCtrKey = deriveKey c b.dbKey b.aesCtrKeySalt)

theorem KeyState.ready {enc : Option Encryption} {pos : Nat} (h : KeyState c b enc pos) : KeyReady c b := by
  refine ⟨h.length_key, fun hd _ => ?_⟩
  cases enc with
  | none => have := h.dbKey rfl; rw [hd] at this; contradiction
  | some e =>
    rw [h.keySalt e rfl, h.key e rfl]
    exact ⟨e.length_keySalt, (h.isFor e rfl).2⟩

/-- What a reindex encrypts with. -/
def reindexEncryption (c : Crypto) (r : Entropy) (b : Binlog) (h : KeyReady c b) (hd : b.dbKey.isEmpty = false) :
    Encryption where
  keySalt := b.resetSalt r
  iv := r.iv
  key := deriveKey c b.dbKey (b.resetSalt r)
  length_keySalt := by
    unfold resetSalt
    split
    next => exact r.length_salt
    next hne => exact (h.2 hd hne).1
  length_iv := r.length_iv
  length_key := length_deriveKey _ _ _

theorem chooseKey_reindex (hkey : b.eventKey c (enc.event c) = .ok enc.key) :
    b.chooseKey c (enc.event c) = .ok (enc.key, { b with dbKeyUsed := true }) := by
  unfold chooseKey
  rw [hkey]
  simp only [ok_bind]
  rw [if_neg (show ¬ AesCtrEncryptionEvent.generateHash c enc.key ≠ (enc.event c).keyHash from fun h => h rfl)]
  rfl

/-! ## Events -/

variable {event : BinlogEvent} {e : LogEvent} {events : List BinlogEvent} {log : List LogEvent}

theorem writeEvent_eq (hstate : b.state = .run ∨ b.state = .reindex)
    (himage : Image c event e) : b.writeEvent c event = .ok { b with buffer := b.buffer ++ e.raw c } := by
  unfold writeEvent
  rw [if_pos hstate, check_true himage.validate, himage.rawEvent]
  rfl

theorem serviceEvent_eq (htype : event.type ≠ ServiceTypes.aesCtrEncryption) : b.serviceEvent c event = .ok b := by
  unfold serviceEvent; rw [if_neg htype]; rfl

theorem writeEvent_load (hstate : b.state = .load) : b.writeEvent c event = .ok b := by
  unfold writeEvent; rw [if_neg (by rw [hstate]; simp)]; rfl

theorem processEvent_ok {p : BinlogEventsProcessor} (hstate : b.state ≠ .reindex)
    (hp : b.processor.doEvent event = (p, true)) :
    b.processEvent event = .ok ({ b with processor := p }.count event) := by
  unfold processEvent
  rw [if_neg hstate, hp]
  rfl

theorem doEvent_reindex (hstate : b.state = .reindex) (himage : Image c event e)
    (htype : e.type ≠ ServiceTypes.aesCtrEncryption) :
    b.doEvent c event = .ok ({ b with buffer := b.buffer ++ e.raw c }.count event) := by
  unfold doEvent
  rw [writeEvent_eq (.inr hstate) himage, ok_bind, serviceEvent_eq (by rw [himage.type]; exact htype),
    ok_bind]
  unfold processEvent
  rw [if_pos (by exact hstate)]
  rfl

theorem doEvents_reindex (himages : List.Forall₂ (Image c) events log)
    (htype : ∀ e ∈ log, e.type ≠ ServiceTypes.aesCtrEncryption) (hstate : b.state = .reindex) :
    events.foldlM (fun b e => b.doEvent c e) b =
      .ok { b with
        buffer := b.buffer ++ raws c log, fdEvents := b.fdEvents + log.length,
        fdSize := b.fdSize + (raws c log).length } := by
  induction himages generalizing b with
  | nil => simp
  | @cons event e events log himage _ ih =>
    rw [List.foldlM_cons, doEvent_reindex hstate himage (htype e (by simp)), ok_bind,
      ih (fun x hx => htype x (by simp [hx])) (by exact hstate)]
    simp only [count, himage.rawEvent, raws_cons, List.append_assoc, List.length_append, List.length_cons,
      LogEvent.length_raw, Nat.cast_add, Outcome.ok.injEq, Binlog.mk.injEq, true_and, and_true]
    omega

/-- In the middle of a reindex: the encryption event is written. -/
structure Reindexing (c : Crypto) (b b1 : Binlog) (enc : Option Encryption) (ws : List FileStep) : Prop where
  state : b1.state = .reindex
  fdNew : b1.fdNew = true
  buffer : b1.buffer = []
  fdSize : b1.fdSize = headerLength enc
  keys : KeyState c b1 enc 0
  rest : SameRest b b1
  takes : Takes b b1 (.createNew :: ws)
  writes : ∀ s ∈ ws, ∃ bytes, s = .write true bytes
  path : b1.disk.path = b.disk.path
  pathNew : b1.disk.pathNew = some (sealed c enc [])

theorem resetEncryption_empty (hready : KeyReady c b) (hd : b.dbKey.isEmpty = true) :
    ∃ b1, b.startReindex.resetEncryption c r = .ok b1 ∧ Reindexing c b b1 none [] := by
  unfold resetEncryption
  rw [if_pos (show b.startReindex.dbKey.isEmpty = true from hd)]
  refine ⟨_, rfl, rfl, rfl, rfl, rfl, ?_, ⟨rfl, rfl, rfl, rfl, rfl⟩, ⟨rfl, rfl⟩, by simp, rfl, rfl⟩
  exact ⟨rfl, rfl, hready.1, fun _ => hd, by simp, by simp, by simp, by simp⟩

theorem doEvent_header (hstate : b.state = .reindex) (hnew : b.fdNew = true) (hbuffer : b.buffer = [])
    (hflow : b.byteFlowFlag = false) (hlen : b.aesCtrKey.length = 32)
    (hkey : b.eventKey c (enc.event c) = .ok enc.key) :
    b.doEvent c ((enc.header c).event c) =
      .ok (({ b.file (.write true ((enc.header c).raw c)) with
        buffer := [], dbKeyUsed := true, encryptionType := .aesCtr, aesCtrKeySalt := enc.keySalt,
        aesCtrKey := enc.key, aesCtrState := ⟨enc.key, enc.iv, 0⟩, byteFlowFlag := true }).count
          ((enc.header c).event c)) := by
  obtain ⟨parser, hparse, herr⟩ := enc.parse_data c
  have hdoEnc : { b with buffer := b.buffer ++ (enc.header c).raw c }.doEncryptionEvent c ((enc.header c).event c) =
      .ok { b.file (.write true ((enc.header c).raw c)) with
        buffer := [], dbKeyUsed := true, encryptionType := .aesCtr, aesCtrKeySalt := enc.keySalt,
        aesCtrKey := enc.key, aesCtrState := ⟨enc.key, enc.iv, 0⟩, byteFlowFlag := true } := by
    unfold doEncryptionEvent
    rw [show ((enc.header c).event c).getData = enc.data c from (enc.header c).getData_raw c rfl, hparse]
    dsimp only
    rw [check_true herr, chooseKey_reindex (by exact hkey)]
    simp only [ok_bind]
    unfold switchEncryption
    rw [Encryption.event_iv, updateEncryption_eq (by exact hlen)]
    simp only [ok_bind, hstate, reduceCtorEq, if_false, check_true, flush, hflow, Bool.false_eq_true,
      hbuffer, List.nil_append, hnew, updateWriteEncryption, pure_def, decide_true, file]
    rfl
  unfold doEvent serviceEvent
  rw [writeEvent_eq (.inr hstate) (Image.event c _), ok_bind,
    if_pos (show ((enc.header c).event c).type = ServiceTypes.aesCtrEncryption from rfl), hdoEnc, ok_bind]
  unfold processEvent
  rw [if_pos (by exact hstate)]
  rfl

section

variable (hready : KeyReady c b) (hd : b.dbKey.isEmpty = false)

include hready hd

theorem resetKey_eq {event : AesCtrEncryptionEvent}
    (hsalt : event.keySalt = b.resetSalt r) : b.resetKey c event = .ok (reindexEncryption c r b hready hd).key := by
  unfold resetKey
  rw [generateKey_eq hd, hsalt]
  split
  next h =>
    have hne : b.aesCtrKeySalt ≠ [] := fun h' =>
      keySalt_ne_nil (reindexEncryption c r b hready hd) (h'.symm.trans h)
    rw [(hready.2 hd hne).2, h]
    rfl
  next => rfl

/-- With a key, `reset_encryption` is `do_event` of an encryption event. -/
theorem resetEncryption_eq :
    b.resetEncryption c r = b.doEvent c (((reindexEncryption c r b hready hd).header c).event c) := by
  have hstore := (reindexEncryption c r b hready hd).store_event c
  have hraw := createRaw_eq c ((reindexEncryption c r b hready hd).header c) rfl
  have hinit := ((reindexEncryption c r b hready hd).header c).init_raw c
  unfold resetEncryption
  rw [if_neg (by simp [hd])]
  dsimp only
  rw [resetKey_eq hready hd rfl, ok_bind]
  refine Eq.trans (congrArg (· >>= _) hstore) ?_
  rw [ok_bind]
  refine Eq.trans (congrArg (· >>= _) hraw) ?_
  rw [ok_bind, hinit, ok_bind]

theorem resetEncryption_key :
    ∃ b1 enc ws, b.startReindex.resetEncryption c r = .ok b1 ∧ Reindexing c b b1 (some enc) ws := by
  let enc := reindexEncryption c r b.startReindex hready hd
  have hevent : b.startReindex.eventKey c (enc.event c) = .ok enc.key := by
    rw [← resetKey_eq (b := b.startReindex) hready hd
      (show (enc.event c).keySalt = b.startReindex.resetSalt r from rfl)]
    unfold eventKey resetKey
    rw [if_pos (show b.startReindex.dbKey.isEmpty = false from hd)]
  rw [resetEncryption_eq (b := b.startReindex) hready hd,
    doEvent_header (b := b.startReindex) rfl rfl rfl rfl hready.1 hevent]
  refine ⟨_, enc, [.write true ((enc.header c).raw c)], rfl, rfl, rfl, rfl, ?_, ?_, ⟨rfl, rfl, rfl, rfl, rfl⟩,
    ⟨?_, rfl⟩, by simp, rfl, ?_⟩
  · show (0 : Int) + ((enc.header c).raw c).length = _
    rw [LogEvent.length_raw, enc.size_header]; rfl
  · refine ⟨rfl, rfl, enc.length_key, by simp, ?_, ?_, ?_, ?_⟩ <;> rintro e ⟨⟩
    · exact ⟨hd, rfl⟩
    · rfl
    · rfl
    · rfl
  · simp [count, file, startReindex]
  · simp [count, file, startReindex, Disk.apply, sealed, xorStream]

end

theorem resetEncryption_cases (hready : KeyReady c b) :
    ∃ b1 enc ws, b.startReindex.resetEncryption c r = .ok b1 ∧ Reindexing c b b1 enc ws := by
  cases hd : b.dbKey.isEmpty with
  | true =>
    obtain ⟨b1, h⟩ := resetEncryption_empty (r := r) hready hd
    exact ⟨b1, none, [], h⟩
  | false =>
    obtain ⟨b1, enc, ws, h⟩ := resetEncryption_key (r := r) hready hd
    exact ⟨b1, some enc, ws, h⟩

/-- The buffer is written, encrypted. -/
structure Flushed (c : Crypto) (b b1 : Binlog) (enc : Option Encryption) (pos : Nat) : Prop where
  state : b1.state = b.state
  fdNew : b1.fdNew = b.fdNew
  buffer : b1.buffer = []
  fdSize : b1.fdSize = b.fdSize
  keys : KeyState c b1 enc (pos + b.buffer.length)
  rest : SameRest b b1
  takes : Takes b b1 [.write b.fdNew (cipher c enc pos b.buffer)]

theorem flush_spec {enc : Option Encryption} {pos : Nat} (hstate : b.state ≠ .load) (hkeys : KeyState c b enc pos) :
    Flushed c b (b.flush c) enc pos := by
  unfold flush
  rw [if_neg hstate, hkeys.byteFlowFlag]
  cases enc with
  | none =>
    exact ⟨rfl, rfl, rfl, rfl, { hkeys with aesCtrState := by simp }, ⟨rfl, rfl, rfl, rfl, rfl⟩, rfl, rfl⟩
  | some e =>
    have hstream : b.aesCtrState.encrypt c b.buffer = cipher c (some e) pos b.buffer := by
      rw [hkeys.aesCtrState e rfl]; rfl
    rw [if_pos (by rfl), hstream]
    refine ⟨rfl, rfl, rfl, rfl, { hkeys with aesCtrState := ?_ }, ⟨rfl, rfl, rfl, rfl, rfl⟩, rfl, rfl⟩
    rintro e' ⟨⟩
    show b.aesCtrState.advance b.buffer.length = _
    rw [hkeys.aesCtrState e rfl]
    rfl

/-- After a reindex: the file holds the events of `log`, and until `path` was
unlinked all that was done is the writing of `path.new`. -/
structure Reindexed (c : Crypto) (b b1 : Binlog) (enc : Option Encryption) (log : List LogEvent)
    (ws : List FileStep) : Prop where
  state : b1.state = .run
  fdNew : b1.fdNew = false
  buffer : b1.buffer = []
  fdSize : b1.fdSize = (encode c enc log).length
  keys : KeyState c b1 enc (raws c log).length
  rest : SameRest b b1
  steps : b1.steps = b.steps ++ .createNew :: (ws ++ [.unlinkPath, .renameNew])
  writes : ∀ s ∈ ws, ∃ bytes, s = .write true bytes
  written : (.createNew :: ws).foldl Disk.apply b.disk = ⟨b.disk.path, some (encode c enc log)⟩
  disk : b1.disk = ⟨some (encode c enc log), none⟩

/-- **`do_reindex`** rewrites the log as its live events. -/
theorem doReindex_spec (hstate : b.state = .run)
    (hready : KeyReady c b) (hpath : b.disk.path ≠ none) (hevents : b.processor.forEach = .ok events)
    (himages : List.Forall₂ (Image c) events log) (htype : ∀ e ∈ log, e.type ≠ ServiceTypes.aesCtrEncryption) :
    ∃ b1 enc ws, b.doReindex c r = .ok b1 ∧ Reindexed c b b1 enc log ws := by
  obtain ⟨b1, enc, ws, hreset, h1⟩ := resetEncryption_cases (r := r) hready
  let b2 : Binlog := { b1 with
    buffer := b1.buffer ++ raws c log, fdEvents := b1.fdEvents + log.length
    fdSize := b1.fdSize + (raws c log).length }
  have hbuffer : b2.buffer = raws c log := by
    change b1.buffer ++ _ = _
    rw [h1.buffer]
    rfl
  have hnew : b2.fdNew = true := h1.fdNew
  have hsteps : b2.steps = b1.steps := rfl
  have hnoRead : b2.state ≠ .load := by
    change b1.state ≠ _
    rw [h1.state]
    simp
  have hkeys2 : KeyState c b2 enc 0 := ⟨h1.keys.byteFlowFlag, h1.keys.encryptionType, h1.keys.length_key,
    h1.keys.dbKey, h1.keys.isFor, h1.keys.keySalt, h1.keys.key, h1.keys.aesCtrState⟩
  have h3 := flush_spec (b := b2) hnoRead hkeys2
  have hdisk : (b2.flush c).disk = ⟨b.disk.path, some (encode c enc log)⟩ := by
    rw [h3.takes.disk, hbuffer, hnew]
    show Disk.mk b1.disk.path (b1.disk.pathNew.map _) = _
    rw [h1.path, h1.pathNew, Option.map_some, show 0 = ([] : Bytes).length from rfl, ← sealed_append]
    rfl
  have hsize : (b2.flush c).fdSize = (encode c enc log).length := by
    rw [h3.fdSize]
    show b1.fdSize + (raws c log).length = _
    unfold encode
    rw [h1.fdSize, length_sealed, Nat.cast_add]
  let b3 : Binlog := { b2.flush c with
    disk := ⟨some (encode c enc log), none⟩
    steps := (b2.flush c).steps ++ [FileStep.unlinkPath] ++ [FileStep.renameNew]
    fdNew := false, state := .run, buffer := [] }
  have hfinish : (b2.flush c).finishReindex = .ok b3.updateWriteEncryption := by
    unfold finishReindex
    rw [check_true (by rw [hdisk]; exact hpath)]
    simp only [ok_bind, file, hdisk, Disk.apply]
    rw [check_true (by rw [hsize]; rfl)]
    rfl
  refine ⟨b3.updateWriteEncryption, enc, ws ++ [.write true (cipher c enc 0 (raws c log))], ?_, rfl, rfl, rfl, ?_,
    ?_, ?_, ?_, ?_, ?_, rfl⟩
  · unfold doReindex
    rw [check_true hstate, ok_bind, hreset, ok_bind, h1.rest.processor, hevents,
      ok_bind, doEvents_reindex himages htype h1.state, ok_bind]
    exact hfinish
  · exact hsize
  · have hk := h3.keys
    rw [hbuffer, Nat.zero_add] at hk
    refine ⟨?_, hk.encryptionType, hk.length_key, hk.dbKey, hk.isFor, hk.keySalt, hk.key, hk.aesCtrState⟩
    show decide ((b2.flush c).encryptionType = .aesCtr) = _
    rw [hk.encryptionType]
    cases enc <;> rfl
  · have hrest : SameRest b1 b2 := ⟨rfl, rfl, rfl, rfl, rfl⟩
    exact ((h1.rest.trans hrest).trans h3.rest).trans ⟨rfl, rfl, rfl, rfl, rfl⟩
  · show (b2.flush c).steps ++ [FileStep.unlinkPath] ++ [FileStep.renameNew] = _
    rw [h3.takes.steps, hbuffer, hnew, hsteps, h1.takes.steps]
    simp
  · intro s hs
    rcases List.mem_append.1 hs with hs | hs
    · exact h1.writes s hs
    · exact ⟨_, List.mem_singleton.1 hs⟩
  · rw [← hdisk, h3.takes.disk, ← List.cons_append, List.foldl_append, ← h1.takes.disk, hbuffer, hnew]

end Tdlib.Db.Binlog
