/-
The invariant of a binlog that is open: its file is the log of the events
that were flushed, its buffer those that were not, and its processor holds
the live events of both. Adding an event, flushing and reindexing keep it.
-/
import Tdlib.Binlog.Reindex

namespace Tdlib.Db

open Outcome KeyLog ServiceTypes

/-- Two logs that denote the same, the second made of events of the first. -/
structure Rewritten (log log' : List LogEvent) : Prop where
  live : liveEvents log' = liveEvents log
  mem : ∀ e ∈ log', e ∈ log

theorem Rewritten.refl (log : List LogEvent) : Rewritten log log := ⟨rfl, fun _ h => h⟩

theorem Rewritten.trans {l1 l2 l3 : List LogEvent} (h1 : Rewritten l1 l2) (h2 : Rewritten l2 l3) : Rewritten l1 l3 :=
  ⟨h2.live.trans h1.live, fun e he => h1.mem e (h2.mem e he)⟩

theorem Rewritten.append {l1 l2 : List LogEvent} (h : Rewritten l1 l2) (es : List LogEvent) :
    Rewritten (l1 ++ es) (l2 ++ es) := by
  refine ⟨?_, fun e he => ?_⟩
  · unfold liveEvents
    rw [replay_append, replay_append]
    exact congrArg (replay · es) h.live
  · rw [List.mem_append] at he ⊢
    exact he.imp_left (h.mem e)

variable {log : List LogEvent}

theorem LegalLog.rewritten (h : LegalLog log) : LegalLog (liveEvents log) ∧ Rewritten log (liveEvents log) ∧
      KeyLog.bound 1 (liveEvents log) ≤ KeyLog.bound 1 log := by
  obtain ⟨hlegal, hlive, hbound⟩ := KeyLog.Legal.compact (fun _ => LogEvent.Ok.of_live) h
  exact ⟨hlegal, ⟨hlive, fun e he => ((mem_replay he).resolve_left (by simp)).1⟩, hbound⟩

theorem LegalLog.type_ne (h : LegalLog log) : ∀ e ∈ log, e.type ≠ aesCtrEncryption := by
  intro e he
  rcases KeyLog.Legal.ok_of_mem h he with h | h
  · exact h.1.type_ne
  · exact h.type_ne

namespace Binlog

variable {c : Crypto} {r : Entropy} {b b1 : Binlog} {enc : Option Encryption} {flushed buffered : List LogEvent}

/-- The binlog has seen the events of `log`, and no other ids. -/
structure Tracks (c : Crypto) (b : Binlog) (log : List LogEvent) : Prop where
  legal : LegalLog log
  holds : Holds c b.processor (liveEvents log) (b.processor.lastEventId + 1)
  bound : KeyLog.bound 1 log ≤ b.processor.lastEventId + 1

theorem Tracks.congr (h : Tracks c b log) (hproc : b1.processor = b.processor) : Tracks c b1 log :=
  ⟨h.legal, by rw [hproc]; exact h.holds, by rw [hproc]; exact h.bound⟩

theorem Tracks.compact (h : Tracks c b log) : Tracks c b (liveEvents log) := by
  obtain ⟨hlegal, hrew, hbound⟩ := h.legal.rewritten
  exact ⟨hlegal, by rw [hrew.live]; exact h.holds, Nat.le_trans hbound h.bound⟩

/-- The file of an open binlog is the log `flushed`, and its buffer the log
`buffered`. -/
structure Written (c : Crypto) (b : Binlog) (enc : Option Encryption) (flushed buffered : List LogEvent) : Prop where
  state : b.state = .run
  fdNew : b.fdNew = false
  path : b.disk.path = some (encode c enc flushed)
  buffer : b.buffer = raws c buffered
  fdSize : b.fdSize = (encode c enc (flushed ++ buffered)).length
  keys : KeyState c b enc (raws c flushed).length

/-- The processor of an open binlog holds the live events of its logs. -/
structure Running (c : Crypto) (b : Binlog) (enc : Option Encryption) (flushed buffered : List LogEvent) : Prop
    extends Written c b enc flushed buffered where
  pending : b.pendingEvents = []
  log : Tracks c b (flushed ++ buffered)

theorem Running.withLastEventId (h : Running c b enc flushed buffered) (n : Nat) :
    Running c { b with lastEventId := n } enc flushed buffered :=
  { h with keys := { h.keys with }, log := h.log.congr rfl }

theorem liveEvents_type_ne (h : LegalLog log) : ∀ e ∈ liveEvents log, e.type ≠ aesCtrEncryption :=
  fun e he => h.type_ne e (h.rewritten.2.1.mem e he)

/-! ## Flushing -/

theorem Written.flush (h : Written c b enc flushed buffered) :
    Written c (b.flush c) enc (flushed ++ buffered) [] ∧ SameRest b (b.flush c) := by
  have hf := flush_spec (c := c) (by rw [h.state]; simp) h.keys
  have hkeys := hf.keys
  rw [h.buffer, ← List.length_append, ← raws_append] at hkeys
  refine ⟨⟨hf.state.trans h.state, hf.fdNew.trans h.fdNew, ?_, hf.buffer, ?_, hkeys⟩, hf.rest⟩
  · rw [hf.takes.disk, h.fdNew, h.buffer]
    show b.disk.path.map _ = _
    rw [h.path, Option.map_some, ← encode_append]
  · rw [hf.fdSize, List.append_nil, h.fdSize]

theorem Running.flush (h : Running c b enc flushed buffered) :
    Running c (b.flush c) enc (flushed ++ buffered) [] ∧ SameRest b (b.flush c) := by
  obtain ⟨hwritten, hrest⟩ := h.toWritten.flush
  refine ⟨⟨hwritten, hrest.pendingEvents.trans h.pending, ?_⟩, hrest⟩
  rw [List.append_nil]
  exact h.log.congr hrest.processor

theorem Running.lazyFlush (h : Running c b enc flushed buffered) :
    ∃ fl bu, Running c (b.lazyFlush c) enc fl bu ∧ fl ++ bu = flushed ++ buffered ∧ (bu = [] ∨ fl = flushed) ∧
      SameRest b (b.lazyFlush c) := by
  unfold Binlog.lazyFlush
  split
  · exact ⟨_, [], h.flush.1, List.append_nil _, .inl rfl, h.flush.2⟩
  · exact ⟨flushed, buffered, h, rfl, .inr rfl, ⟨rfl, rfl, rfl, rfl, rfl⟩⟩

/-! ## Reindexing -/

theorem Reindexed.toWritten {ws : List FileStep} (h : Reindexed c b b1 enc log ws) : Written c b1 enc log [] :=
  ⟨h.state, h.fdNew, by rw [h.disk], h.buffer, by rw [List.append_nil, h.fdSize], h.keys⟩

theorem Tracks.doReindex (h : Tracks c b log) (hstate : b.state = .run) (hready : KeyReady c b)
    (hpath : b.disk.path ≠ none) (hpending : b.pendingEvents = []) :
    ∃ b1 enc ws, b.doReindex c r = .ok b1 ∧ Reindexed c b b1 enc (liveEvents log) ws ∧
      Running c b1 enc (liveEvents log) [] := by
  obtain ⟨b1, enc, ws, hok, h1⟩ := doReindex_spec (r := r) hstate hready hpath h.holds.wf.forEach h.holds.images
    (liveEvents_type_ne h.legal)
  refine ⟨b1, enc, ws, hok, h1, h1.toWritten, h1.rest.pendingEvents.trans hpending, ?_⟩
  rw [List.append_nil]
  exact h.compact.congr h1.rest.processor

theorem Running.doReindex (h : Running c b enc flushed buffered) :
    ∃ b1 enc' ws, b.doReindex c r = .ok b1 ∧ Reindexed c b b1 enc' (liveEvents (flushed ++ buffered)) ws ∧
      Running c b1 enc' (liveEvents (flushed ++ buffered)) [] :=
  h.log.doReindex h.state h.keys.ready (by rw [h.path]; simp) h.pending

theorem Running.autoReindex (h : Running c b enc flushed buffered) :
    ∃ b1 enc' fl bu, b.autoReindex c r = .ok b1 ∧ Running c b1 enc' fl bu ∧
      Rewritten (flushed ++ buffered) (fl ++ bu) ∧ SameRest b b1 := by
  unfold Binlog.autoReindex
  split
  · obtain ⟨b1, enc', ws, hok, h1, hrun⟩ := h.doReindex (r := r)
    exact ⟨b1, enc', _, [], hok, hrun, by rw [List.append_nil]; exact h.log.legal.rewritten.2.1, h1.rest⟩
  · exact ⟨b, enc, flushed, buffered, rfl, h, .refl _, ⟨rfl, rfl, rfl, rfl, rfl⟩⟩

/-! ## Adding an event -/

variable {e : LogEvent} {event : BinlogEvent}

theorem doEvent_run {p : BinlogEventsProcessor} (hstate : b.state = .run) (himage : Image c event e)
    (htype : e.type ≠ aesCtrEncryption) (hp : b.processor.doEvent event = (p, true)) :
    b.doEvent c event = .ok ({ b with buffer := b.buffer ++ e.raw c, processor := p }.count event) := by
  have hne : b.state ≠ .reindex := by rw [hstate]; simp
  unfold doEvent
  rw [writeEvent_eq (.inl hstate) himage, ok_bind, serviceEvent_eq (by rw [himage.type]; exact htype),
    ok_bind]
  exact processEvent_ok hne hp

section

variable (h : Running c b enc flushed buffered)
    (he : KeyLog.Follows LogEvent.Ok (liveEvents (flushed ++ buffered)) (b.processor.lastEventId + 1) e)
    (himage : Image c event e) (hflags : event.flags = e.flags)

include h he himage hflags

theorem Running.doAddEvent : ∃ b1, b.doAddEvent c event = .ok b1 ∧ Running c b1 enc flushed (buffered ++ [e]) ∧
      b1.processor.lastEventId + 1 = next (b.processor.lastEventId + 1) e ∧
      b1.lastEventId = b.lastEventId ∧ b1.dbKey = b.dbKey := by
  have hok : hasFlag e.flags partialFlag = false ∧ e.type ≠ aesCtrEncryption := by
    rcases he with he | he
    · exact ⟨he.2.2.notPartial, he.2.2.type_ne⟩
    · exact ⟨he.2.notPartial, he.2.type_ne⟩
  obtain ⟨p, hp, hholds, -⟩ := h.log.holds.doEvent he himage (by rw [hflags])
  have hnext : p.lastEventId + 1 = next (b.processor.lastEventId + 1) e := hholds.last
  have hadd : b.doAddEvent c event =
      .ok ({ b with buffer := b.buffer ++ e.raw c, pendingEvents := [], processor := p }.count event) := by
    unfold Binlog.doAddEvent
    rw [if_neg (by rw [hflags, hok.1]; simp), h.pending, List.foldlM_nil]
    exact doEvent_run (b := { b with pendingEvents := [] }) h.state himage hok.2 hp
  refine ⟨_, hadd, ⟨⟨h.state, h.fdNew, h.path, ?_, ?_, ?_⟩, rfl, ⟨?_, ?_, ?_⟩⟩, hnext, rfl, rfl⟩
  · show b.buffer ++ e.raw c = _
    rw [h.buffer, raws_append, raws_cons, raws_nil, List.append_nil]
  · show b.fdSize + event.rawEvent.length = _
    rw [h.fdSize, himage.rawEvent, ← List.append_assoc]
    simp only [encode, length_sealed, raws_append, raws_cons, raws_nil, List.length_append, List.length_nil]
    omega
  · exact ⟨h.keys.byteFlowFlag, h.keys.encryptionType, h.keys.length_key, h.keys.dbKey, h.keys.isFor, h.keys.keySalt,
      h.keys.key, h.keys.aesCtrState⟩
  · rw [← List.append_assoc]
    refine KeyLog.legal_append.2 ⟨h.log.legal, ?_, trivial⟩
    exact he.imp_left fun he => ⟨Nat.le_trans h.log.bound he.1, he.2⟩
  · rw [← List.append_assoc]
    unfold liveEvents
    rw [replay_append]
    show Holds c p _ (p.lastEventId + 1)
    rw [hnext]
    exact hholds
  · rw [← List.append_assoc, bound_append]
    show next (KeyLog.bound 1 (flushed ++ buffered)) e ≤ p.lastEventId + 1
    rw [hnext]
    have := h.log.bound
    simp only [next]; omega

/-- **Taking an event** that may follow those of the log succeeds. -/
theorem Running.takeEvent : ∃ b1 fl bu, b.takeEvent c event = .ok b1 ∧ Running c b1 enc fl bu ∧
      fl ++ bu = flushed ++ buffered ++ [e] ∧ (bu = [] ∨ fl = flushed) ∧
      b1.processor.lastEventId + 1 = next (b.processor.lastEventId + 1) e ∧
      b1.lastEventId = b.lastEventId ∧ b1.dbKey = b.dbKey := by
  obtain ⟨b1, hadd, h1, hnext, hlast, hkey⟩ := h.doAddEvent he himage hflags
  obtain ⟨fl, bu, h2, hlog, hcut, hrest⟩ := h1.lazyFlush
  refine ⟨_, fl, bu, ?_, h2, by rw [hlog, List.append_assoc], hcut, by rw [hrest.processor, hnext],
    hrest.lastEventId.trans hlast, hrest.dbKey.trans hkey⟩
  unfold Binlog.takeEvent
  rw [check_true (by rw [himage.size]; exact e.size_aligned), ok_bind, hadd]
  rfl

/-- **Adding an event** that may follow those of the log succeeds. -/
theorem Running.addEvent : ∃ b1 enc' fl bu, b.addEvent c r event = .ok b1 ∧ Running c b1 enc' fl bu ∧
      Rewritten (flushed ++ buffered ++ [e]) (fl ++ bu) ∧
      b1.processor.lastEventId + 1 = next (b.processor.lastEventId + 1) e ∧
      b1.lastEventId = b.lastEventId ∧ b1.dbKey = b.dbKey := by
  obtain ⟨b1, fl1, bu1, htake, h1, hlog, -, hnext, hlast, hkey⟩ := h.takeEvent he himage hflags
  obtain ⟨b2, enc', fl, bu, hauto, h2, hrew, hrest⟩ := h1.autoReindex (r := r)
  refine ⟨b2, enc', fl, bu, ?_, h2, hlog ▸ hrew, by rw [hrest.processor, hnext], hrest.lastEventId.trans hlast,
    hrest.dbKey.trans hkey⟩
  unfold Binlog.addEvent
  rw [htake, ok_bind, hauto]

end

theorem doEvent_refused (hstate : b.state = .run) (himage : Image c event e)
    (htype : e.type ≠ aesCtrEncryption) (hp : (b.processor.doEvent event).2 = false) :
    b.doEvent c event = .fatal := by
  unfold doEvent
  rw [writeEvent_eq (.inl hstate) himage, ok_bind, serviceEvent_eq (by rw [himage.type]; exact htype),
    ok_bind]
  unfold processEvent
  simp [hp, hstate]

theorem Running.addRawEvent_refused (h : Running c b enc flushed buffered)
    (hwhole : hasFlag e.flags partialFlag = false) (htype : e.type ≠ aesCtrEncryption)
    (hp : (b.processor.doEvent (e.event c)).2 = false) : b.addRawEvent c r (e.raw c) = .fatal := by
  have hadd : b.doAddEvent c (e.event c) = .fatal := by
    have hends : ¬ hasFlag (e.event c).flags partialFlag = true := by
      simp [hwhole]
    unfold Binlog.doAddEvent
    rw [if_neg hends, h.pending, List.foldlM_nil]
    exact doEvent_refused (b := { b with pendingEvents := [] }) h.state (Image.event c e) htype hp
  unfold Binlog.addRawEvent Binlog.addEvent Binlog.takeEvent
  rw [e.init_raw, ok_bind, check_true (by exact e.size_aligned), ok_bind, hadd]
  rfl

/-- Twice the id 2^63 is 0 on 64 bits: a processor with events refuses it. -/
theorem Running.addRawEvent_wraps (h : Running c b enc flushed buffered) (hid : e.id = 2 ^ 63) (hflags : e.flags = 0)
    (htype : 0 ≤ e.type) (hlive : liveEvents (flushed ++ buffered) ≠ []) : b.addRawEvent c r (e.raw c) = .fatal := by
  obtain ⟨x, hx⟩ := List.exists_mem_of_ne_nil _ hlive
  have hback : BinlogEventsProcessor.backGe b.processor.slots 0 = true := by
    have hmem : KeyLog.Entry.key x ∈ b.processor.live.map (·.id) := by
      rw [ids_eq h.log.holds.images]; exact List.mem_map_of_mem hx
    obtain ⟨l, s, t, hslots, -⟩ := BinlogEventsProcessor.split_live h.log.holds.wf hmem
    exact BinlogEventsProcessor.backGe_of_mem (s := s) (by rw [hslots]; simp) (Nat.zero_le _) h.log.holds.wf.sorted
  refine h.addRawEvent_refused (by rw [hflags]; decide) (by simp only [aesCtrEncryption]; omega) ?_
  have hneg : ¬ (e.event c).type < 0 := Int.not_lt.mpr htype
  have hflag : hasFlag (e.event c).flags rewriteFlag = false := by
    change hasFlag e.flags rewriteFlag = false
    rw [hflags]
    decide
  have hfixed : (e.event c).id * 2 % 2 ^ 64 = 0 := by
    simp [hid]
  unfold BinlogEventsProcessor.doEvent
  rw [hflag, hfixed, if_neg (by simp), if_neg hneg, if_pos hback]

end Binlog

end Tdlib.Db
