/-
Crashes. A process may stop between two of the calls `do_reindex` makes on
the files, or in the middle of a write. Whenever it does, and however often,
the next `init` finds a log: the old one until `path` is unlinked, the new
one from then on. So the key can be changed too (`changeKey_stops`).
-/
import Tdlib.Binlog.History

namespace Tdlib.Db

open Crypto (keyless)
open Binlog List

/-- The files after a process stopped that was to make the calls `steps`: it
made the calls `made`, and wrote some bytes of the next one if that is a
write. -/
inductive Stops (disk : Disk) (steps : List FileStep) : List FileStep → Disk → Prop
  | between {made rest : List FileStep} : steps = made ++ rest → Stops disk steps made (made.foldl Disk.apply disk)
  | within {made rest : List FileStep} {isNew : Bool} {bytes : Bytes} (n : Nat) :
    steps = made ++ .write isNew bytes :: rest →
    Stops disk steps made ((made.foldl Disk.apply disk).apply (.write isNew (bytes.take n)))

/-- The database key and the salt of an encrypted log. -/
abbrev Lock := Option (DbKey × Bytes)

/-- The lock of the log a binlog writes. -/
def Binlog.lock (b : Binlog) : Lock := if b.dbKey.isEmpty then none else some (b.dbKey, b.aesCtrKeySalt)

/-- One of the keys is the log's, and if it is the old one, the hash in the
log shows that the first one is not. -/
def Unlocks (c : Crypto) (lock : Lock) (dbKey oldDbKey : DbKey) : Prop :=
  ∀ key keySalt, lock = some (key, keySalt) → dbKey = key ∨ oldDbKey = key ∧
    AesCtrEncryptionEvent.generateHash c (firstKey c dbKey keySalt) ≠
      AesCtrEncryptionEvent.generateHash c (deriveKey c key keySalt)

/-- Where a binlog and its files can be: open, with `saved` what was live when
the buffer was last empty; about to reindex a log that has the lock `lock`;
or closed. -/
inductive Phase
  | opened (b : Binlog) (saved live : Live)
  | reindexing (b : Binlog) (lock : Lock) (saved live : Live)
  | files (disk : Disk) (lock : Lock) (live : Live)

/-- What happens to binlogs and files from the beginning on. Reindexes are
called for, come with a change of the key, and happen in `init` for a log
that is not under its key; each may be finished or stopped. -/
inductive Reachable (c : Crypto) : Phase → Prop
  | start : Reachable c (.files {} none Live.none)
  | init {disk : Disk} {lock : Lock} {m : Live} {dbKey oldDbKey : DbKey} {r : Entropy} {b : Binlog}
      {events : List BinlogEvent} :
    Reachable c (.files disk lock m) → Unlocks c lock dbKey oldDbKey →
    init c r disk dbKey oldDbKey = .ok (b, events) → Reachable c (.opened b m m)
  | take {b b1 : Binlog} {saved m : Live} {op : Op} :
    Reachable c (.opened b saved m) → op.LiveIds m → op.Storable → b.lastEventId + 1 < 2 ^ 63 →
    op.take c b = .ok b1 →
    Reachable c (.opened b1 (if b1.buffer = [] then (op.record b.lastEventId).foldl Live.write m else saved)
      ((op.record b.lastEventId).foldl Live.write m))
  | reindex {b : Binlog} {saved m : Live} :
    Reachable c (.opened b saved m) → Reachable c (.reindexing b b.lock saved m)
  | changeKey {b : Binlog} {saved m : Live} (newDbKey : DbKey) :
    Reachable c (.opened b saved m) →
    Reachable c (.reindexing { b with dbKey := newDbKey, aesCtrKeySalt := [] } b.lock saved m)
  | rekey {disk : Disk} {lock : Lock} {m : Live} {dbKey oldDbKey : DbKey} {b : Binlog} {events : List BinlogEvent} :
    Reachable c (.files disk lock m) → Unlocks c lock dbKey oldDbKey →
    (fresh disk [] dbKey oldDbKey).openBinlog.loadBinlog c = .ok (b, events) → b.needRekey = true →
    Reachable c (.reindexing { b with lastEventId := b.processor.lastEventId, aesCtrKeySalt := [] } lock m m)
  | reindexed {b b1 : Binlog} {lock : Lock} {saved m : Live} {r : Entropy} :
    Reachable c (.reindexing b lock saved m) → b.doReindex c r = .ok b1 → Reachable c (.opened b1 m m)
  | stop {b b1 : Binlog} {lock : Lock} {saved m : Live} {r : Entropy} {made : List FileStep} {disk : Disk} :
    Reachable c (.reindexing b lock saved m) → b.doReindex c r = .ok b1 →
    Stops b.disk (b1.steps.drop b.steps.length) made disk →
    Reachable c (.files disk (if .unlinkPath ∈ made then b1.lock else lock) (if .unlinkPath ∈ made then m else saved))
  | close {b : Binlog} {saved m : Live} :
    Reachable c (.opened b saved m) → Reachable c (.files (b.close c) b.lock m)

/-! ## The calls of a reindex -/

variable {c : Crypto} {r : Entropy} {b b1 : Binlog} {enc : Option Encryption} {log : List LogEvent}
  {made ws : List FileStep} {disk d : Disk}

/-- The calls that write `path.new`. -/
def FileStep.WritesNew (s : FileStep) : Prop := s = .createNew ∨ ∃ bytes, s = .write true bytes

theorem FileStep.WritesNew.path {s : FileStep} (h : s.WritesNew) (d : Disk) : (d.apply s).path = d.path := by
  rcases h with rfl | ⟨bytes, rfl⟩ <;> rfl

theorem foldl_path (hmade : ∀ s ∈ made, s.WritesNew) (d : Disk) : (made.foldl Disk.apply d).path = d.path := by
  induction made generalizing d with
  | nil => rfl
  | cons s made ih =>
    rw [foldl_cons, ih fun x hx => hmade x (by simp [hx]), (hmade s (by simp)).path]

/-- **Where a reindex stops.** Until it has unlinked `path`, `path` is what it
was; from then on `init` finds the new log. -/
theorem Reindexed.stops (h : Binlog.Reindexed c b b1 enc log ws)
    (hs : Stops b.disk (b1.steps.drop b.steps.length) made d) :
    if .unlinkPath ∈ made then d.restored.path = some (encode c enc log) else d.path = b.disk.path := by
  have hsteps : b1.steps.drop b.steps.length = (.createNew :: ws) ++ [.unlinkPath, .renameNew] := by
    rw [h.steps, drop_left]; rfl
  have hnew : ∀ s ∈ .createNew :: ws, s.WritesNew := by
    intro s hs
    rcases mem_cons.1 hs with rfl | hs
    · exact .inl rfl
    · exact .inr (h.writes s hs)
  have hno : FileStep.unlinkPath ∉ .createNew :: ws := fun hmem => by
    rcases hnew _ hmem with h | ⟨_, h⟩ <;> cases h
  have hwritten := h.written
  rw [hsteps] at hs
  generalize hA : FileStep.createNew :: ws = A at *
  cases hs with
  | between heq =>
    rcases append_eq_append_iff.1 heq with ⟨x, rfl, hx⟩ | ⟨x, rfl, hx⟩
    · -- All of `path.new` is written.
      rw [foldl_append, hwritten]
      rcases x with _ | ⟨s, _ | ⟨t, x⟩⟩
      · rw [append_nil, if_neg hno]; rfl
      · simp only [cons_append, nil_append, List.cons.injEq] at hx
        rw [← hx.1, if_pos (by simp)]; rfl
      · simp only [cons_append, List.cons.injEq, nil_eq, append_eq_nil_iff] at hx
        rw [← hx.1, ← hx.2.1, hx.2.2.1, if_pos (by simp)]; rfl
    · rw [if_neg fun hmem => hno (by simp [hmem])]
      exact foldl_path (fun s hs => hnew s (by simp [hs])) _
  | @within rest isNew bytes n heq =>
    rcases append_eq_append_iff.1 heq with ⟨x, rfl, hx⟩ | ⟨x, rfl, hx⟩
    · have hmem : FileStep.write isNew bytes ∈ [FileStep.unlinkPath, .renameNew] := by rw [hx]; simp
      simp at hmem
    · rw [if_neg fun hmem => hno (by simp [hmem])]
      cases x with
      | nil => simp at hx
      | cons s x =>
        obtain ⟨rfl, -⟩ := List.cons.inj hx
        rcases hnew (.write isNew bytes) (by simp) with h | ⟨_, h⟩
        · cases h
        · cases h
          exact (FileStep.WritesNew.path (.inr ⟨_, rfl⟩) _).trans (foldl_path (fun s hs => hnew s (by simp [hs])) _)

/-! ## The invariant -/

variable {lock : Lock} {saved m : Live} {fl bu : List LogEvent} {dbKey oldDbKey : DbKey}

/-- The log has the lock `lock`. -/
def Locked (c : Crypto) (enc : Option Encryption) (lock : Lock) : Prop :=
  ∀ e, enc = some e → ∃ key, lock = some (key, e.keySalt) ∧ e.IsFor c key

theorem Locked.opens (h : Locked c enc lock) (hu : Unlocks c lock dbKey oldDbKey) : OpenedBy c enc dbKey oldDbKey := by
  cases enc with
  | none => exact .none c _ _
  | some e =>
    obtain ⟨key, hlock, hfor⟩ := h e rfl
    rcases hu key e.keySalt hlock with rfl | ⟨rfl, hne⟩
    · exact ⟨true, fun e' he => by cases he; exact hfor⟩
    · refine ⟨false, fun e' he => ?_⟩
      cases he
      unfold Encryption.Opens
      rw [if_neg (by simp)]
      have hhash := congrArg (AesCtrEncryptionEvent.generateHash c) hfor.2
      exact ⟨by rw [show (e.event c).keyHash = _ from hhash]; exact hne,
        hfor⟩

theorem Running.locked (h : b.Running c enc fl bu) : Locked c enc b.lock := by
  rintro e rfl
  have hfor := h.keys.isFor e rfl
  exact ⟨b.dbKey, by unfold lock; rw [hfor.1, h.keys.keySalt e rfl]; rfl, hfor⟩

/-- `do_reindex` is called on `b`, whose file is the log `fl`. -/
structure Ready (c : Crypto) (b : Binlog) (lock : Lock) (enc : Option Encryption) (fl bu : List LogEvent) : Prop where
  state : b.state = .run
  pending : b.pendingEvents = []
  path : b.disk.path = some (encode c enc fl)
  buffer : b.buffer = raws c bu
  keys : b.KeyReady c
  log : b.Tracks c (fl ++ bu)
  last : b.processor.lastEventId ≤ b.lastEventId
  readable : Readable (fl ++ bu)
  locked : Locked c enc lock

theorem Ready.doReindex (h : Ready c b lock enc fl bu) :
    ∃ b1 enc' ws, b.doReindex c r = .ok b1 ∧ b.Reindexed c b1 enc' (liveEvents (fl ++ bu)) ws ∧
      b1.Running c enc' (liveEvents (fl ++ bu)) [] :=
  h.log.doReindex h.state h.keys (by rw [h.path]; simp) h.pending

/-- What holds of every phase: the binlog has written the log `fl`, `bu` is in
its buffer, and both are what the live events say. -/
def Phase.Inv (c : Crypto) : Phase → Prop
  | opened b saved m => ∃ enc fl bu, Op.After c b enc m b.lastEventId ((fl ++ bu).map (·.record)) fl bu ∧
      Readable (fl ++ bu) ∧ liveOf (fl.map (·.record)) = saved
  | reindexing b lock saved m => ∃ enc fl bu, Ready c b lock enc fl bu ∧
      liveOf ((fl ++ bu).map (·.record)) = m ∧ liveOf (fl.map (·.record)) = saved
  | files disk lock m => ∃ enc log, disk.restored.path = some (encode c enc log) ∧ LegalLog log ∧ Readable log ∧
      Locked c enc lock ∧ liveOf (log.map (·.record)) = m

theorem Inv.reindex (h : (Phase.opened b saved m).Inv c) : (Phase.reindexing b b.lock saved m).Inv c := by
  obtain ⟨enc, fl, bu, h, hfits, hsaved⟩ := h
  have hrun := h.running
  exact ⟨enc, fl, bu, ⟨hrun.state, hrun.pending, hrun.path, hrun.buffer, hrun.keys.ready, hrun.log, h.processor, hfits,
    Running.locked hrun⟩, h.live, hsaved⟩

theorem Inv.changeKey (h : (Phase.opened b saved m).Inv c) (newDbKey : DbKey) :
    (Phase.reindexing { b with dbKey := newDbKey, aesCtrKeySalt := [] } b.lock saved m).Inv c := by
  obtain ⟨enc, fl, bu, h, hfits, hsaved⟩ := h
  have hrun := h.running
  exact ⟨enc, fl, bu, ⟨hrun.state, hrun.pending, hrun.path, hrun.buffer,
    ⟨hrun.keys.length_key, fun _ hne => absurd rfl hne⟩, hrun.log.congr rfl, h.processor, hfits, Running.locked hrun⟩,
    h.live, hsaved⟩

section

variable (h : (Phase.files disk lock m).Inv c) (hu : Unlocks c lock dbKey oldDbKey)

include h hu

theorem Inv.init {events : List BinlogEvent}
    (hinit : init c r disk dbKey oldDbKey = .ok (b, events)) : (Phase.opened b m m).Inv c := by
  obtain ⟨enc, log, hpath, hlog, hfits, hlocked, hm⟩ := h
  obtain ⟨b1, events1, enc', fl, hinit1, hrun, -, hrew, -, -, hlast⟩ := init_spec (r := r)
    (hpath.trans (congrArg some (encode_eq c enc log))) hlog hfits (.inl (Torn.nil c)) (hlocked.opens hu)
  rw [hinit] at hinit1
  cases hinit1
  refine ⟨enc', fl, [], ⟨hrun, rfl, Nat.le_of_eq hlast, fun e he => mem_map_of_mem he, ?_⟩, fun e he => ?_, ?_⟩
  · rw [append_nil, hrew.liveOf, hm]
  · rw [append_nil] at he; exact hfits e (hrew.mem e he)
  · rw [hrew.liveOf, hm]

theorem Inv.rekey {events : List BinlogEvent}
    (hload : (fresh disk [] dbKey oldDbKey).openBinlog.loadBinlog c = .ok (b, events)) :
    (Phase.reindexing { b with lastEventId := b.processor.lastEventId, aesCtrKeySalt := [] } lock m m).Inv c := by
  obtain ⟨enc, log, hpath, hlog, hfits, hlocked, hm⟩ := h
  obtain ⟨steps, hfresh⟩ := openBinlog_fresh disk dbKey oldDbKey
  obtain ⟨s, hrun, hpending, hsize, hholds⟩ := run_start (c := c) enc hlog
  obtain ⟨b1, hload1, h1⟩ := loadBinlog_spec steps
    (show _ = some (sealed c enc (raws c (log ++ []) ++ [])) by rw [append_nil log, hpath, encode_eq])
    (by rw [append_nil]; exact hrun) hsize (by rw [append_nil]; exact hlog.type_ne)
    (by rw [append_nil]; exact hfits) (.inl (Torn.nil c)) (hlocked.opens hu)
  rw [hfresh, hload1] at hload
  cases hload
  refine ⟨enc, log, [], ⟨h1.state, h1.pending.trans hpending, h1.path, h1.buffer,
    ⟨h1.length_key, fun _ hne => absurd rfl hne⟩, ?_, Nat.le_refl _, ?_, hlocked⟩, ?_, hm⟩
  · rw [append_nil]; exact (tracks_of_holds hlog hholds h1.processor).congr rfl
  · rw [append_nil]; exact hfits
  · rw [append_nil]; exact hm

end

section

variable (h : (Phase.reindexing b lock saved m).Inv c) (hok : b.doReindex c r = .ok b1)

include h hok

theorem Inv.reindexed : (Phase.opened b1 m m).Inv c := by
  obtain ⟨enc, fl, bu, h, hm, -⟩ := h
  obtain ⟨b2, enc', ws, hok2, hre, hrun⟩ := h.doReindex (r := r)
  rw [hok] at hok2
  cases hok2
  obtain ⟨-, hrew, -⟩ := h.log.legal.rewritten
  refine ⟨enc', _, [], ⟨hrun, rfl, ?_, fun e he => mem_map_of_mem he, ?_⟩, fun e he => ?_, ?_⟩
  · rw [hre.rest.processor, hre.rest.lastEventId]; exact h.last
  · rw [append_nil, hrew.liveOf, hm]
  · rw [append_nil] at he; exact h.readable e (hrew.mem e he)
  · rw [hrew.liveOf, hm]

theorem Inv.stop (hs : Stops b.disk (b1.steps.drop b.steps.length) made d) :
    (Phase.files d (if .unlinkPath ∈ made then b1.lock else lock) (if .unlinkPath ∈ made then m else saved)).Inv c := by
  obtain ⟨enc, fl, bu, h, hm, hsaved⟩ := h
  obtain ⟨b2, enc', ws, hok2, hre, hrun⟩ := h.doReindex (r := r)
  rw [hok] at hok2
  cases hok2
  obtain ⟨hlegal, hrew, -⟩ := h.log.legal.rewritten
  have hstop := Reindexed.stops hre hs
  split at hstop
  next hmem =>
    rw [if_pos hmem, if_pos hmem]
    exact ⟨enc', _, hstop, hlegal, fun e he => h.readable e (hrew.mem e he), Running.locked hrun,
      by rw [hrew.liveOf, hm]⟩
  next hmem =>
    rw [if_neg hmem, if_neg hmem]
    exact ⟨enc, fl, restored_of_path (hstop.trans h.path), (KeyLog.legal_append.1 h.log.legal).1,
      fun e he => h.readable e (by simp [he]), h.locked, hsaved⟩

end

theorem Inv.close (h : (Phase.opened b saved m).Inv c) : (Phase.files (b.close c) b.lock m).Inv c := by
  obtain ⟨enc, fl, bu, h, hfits, -⟩ := h
  exact ⟨enc, fl ++ bu, restored_of_path h.running.flush.1.path, h.running.log.legal, hfits,
    Running.locked h.running, h.live⟩

theorem raws_eq_nil : raws c log = [] ↔ log = [] := by
  refine ⟨fun h => ?_, fun h => by rw [h]; rfl⟩
  have hlen := length_raws_ge c log
  simpa [h, length_nil] using hlen

theorem Inv.take {op : Op} (h : (Phase.opened b saved m).Inv c) (hids : op.LiveIds m) (hop : op.Storable)
    (hlast : b.lastEventId + 1 < 2 ^ 63) (htake : op.take c b = .ok b1) :
    (Phase.opened b1 (if b1.buffer = [] then (op.record b.lastEventId).foldl Live.write m else saved)
      ((op.record b.lastEventId).foldl Live.write m)).Inv c := by
  obtain ⟨enc, fl, bu, h, hfits, hsaved⟩ := h
  obtain ⟨b2, fl', bu', htake2, h2, hcut, -⟩ := h.take hids hop.writable hlast
  rw [htake] at htake2
  cases htake2
  refine ⟨enc, fl', bu', ⟨h2.running, rfl, by rw [h2.lastEventId]; exact h2.processor,
    fun e he => mem_map_of_mem he, h2.live⟩, fun e he => ?_, ?_⟩
  · rcases mem_append.1 (h2.mem e he) with hmem | hmem
    · obtain ⟨e', he', hrec⟩ := mem_map.1 hmem
      have : e'.data = e.data := congrArg (·.2.2) hrec
      have hfit := hfits e' he'
      unfold LogEvent.Fits LogEvent.size at hfit ⊢
      rwa [← this]
    · exact records_fit (show ∀ x ∈ [op], x.Storable by simpa using hop) (by simpa [Op.records] using hmem)
  · by_cases hnil : bu' = []
    · rw [if_pos (by rw [h2.running.buffer, hnil]; rfl), ← h2.live, hnil, append_nil]
    · simp [hcut.resolve_left hnil, h2.running.buffer, raws_eq_nil, hnil, hsaved]

theorem Reachable.inv {phase : Phase} (h : Reachable c phase) : phase.Inv c := by
  induction h with
  | start => exact ⟨none, [], rfl, trivial, by simp [Readable], by simp [Locked], rfl⟩
  | init _ hu hinit ih => exact Inv.init ih hu hinit
  | take _ hids hop hlast htake ih => exact Inv.take ih hids hop hlast htake
  | reindex _ ih => exact Inv.reindex ih
  | changeKey newDbKey _ ih => exact Inv.changeKey ih newDbKey
  | rekey _ hu hload _ ih => exact Inv.rekey ih hu hload
  | reindexed _ hok ih => exact Inv.reindexed ih hok
  | stop _ hok hs ih => exact Inv.stop ih hok hs
  | close _ ih => exact Inv.close ih

/-! ## Recovery -/

theorem Inv.delivers (h : (Phase.files disk lock m).Inv c) (hu : Unlocks c lock dbKey oldDbKey) :
    Delivers c r disk dbKey oldDbKey m := by
  obtain ⟨enc, log, hpath, hlog, hfits, hlocked, rfl⟩ := h
  exact delivers_encode hpath hlog hfits (hlocked.opens hu)

/-- Stopping `destroy` leaves the log or no file at all. -/
theorem destroy_stops (hs : Stops disk destroySteps made d) (hpath : disk.path ≠ none) :
    d.restored.path = disk.path ∨ d.restored.path = some [] := by
  obtain ⟨file, hfile⟩ := Option.ne_none_iff_exists'.1 hpath
  unfold destroySteps at hs
  cases hs with
  | between heq =>
    rcases made with _ | ⟨s, _ | ⟨t, made⟩⟩
    · exact .inl ((restored_of_path hfile).trans hfile.symm)
    · simp only [cons_append, List.cons.injEq] at heq
      rw [← heq.1]
      exact .inl ((restored_of_path (d := disk.apply .unlinkNew) hfile).trans hfile.symm)
    · simp only [cons_append, List.cons.injEq, nil_eq, append_eq_nil_iff] at heq
      rw [← heq.1, ← heq.2.1, heq.2.2.1]
      exact .inr rfl
  | @within rest isNew bytes n heq =>
    have hmem : FileStep.write isNew bytes ∈ [FileStep.unlinkNew, .unlinkPath] := by rw [heq]; simp
    simp at hmem

/-- **Reindexes can be stopped.** `do_reindex` creates and writes `path.new`,
unlinks `path` and renames. Stopped before it unlinks `path`, the next `init`
delivers what was saved, which is everything if the buffer was empty; stopped
later, all that was live. `destroy` can be stopped too: no `path.new` becomes
the log. -/
theorem reindex_recovers (h : Reachable c (.reindexing b lock saved m)) (r : Entropy) :
    Represents (b.processor.live.map (·.record)) m ∧ (b.buffer = [] → saved = m) ∧
    (∃ b1 ws, b.doReindex c r = .ok b1 ∧ b1.steps = b.steps ++ .createNew :: (ws ++ [.unlinkPath, .renameNew]) ∧
      (∀ s ∈ ws, ∃ bytes, s = .write true bytes) ∧
      ∀ made d, Stops b.disk (.createNew :: (ws ++ [.unlinkPath, .renameNew])) made d → ∀ r' dbKey oldDbKey,
        Unlocks c (if .unlinkPath ∈ made then b1.lock else lock) dbKey oldDbKey →
        Delivers c r' d dbKey oldDbKey (if .unlinkPath ∈ made then m else saved)) ∧
    ∀ disk made d, Stops disk destroySteps made d → disk.path ≠ none →
      d.restored.path = disk.path ∨ d.restored.path = some [] := by
  have hinv := h.inv
  obtain ⟨enc, fl, bu, hready, hm, hsaved⟩ := h.inv
  obtain ⟨b1, enc', ws, hok, hre, -⟩ := hready.doReindex (r := r)
  refine ⟨?_, fun hbuffer => ?_, ⟨b1, ws, hok, hre.steps, hre.writes, fun made d hs r' dbKey oldDbKey hu => ?_⟩,
    fun disk made d => destroy_stops⟩
  · rw [records_eq hready.log.holds.images, ← hm]
    exact represents_liveEvents hready.log.legal
  · rw [hready.buffer, raws_eq_nil] at hbuffer
    rw [← hm, ← hsaved, hbuffer, append_nil]
  · have hdrop : b1.steps.drop b.steps.length = .createNew :: (ws ++ [.unlinkPath, .renameNew]) := by
      rw [hre.steps, drop_left]
    exact Inv.delivers (Inv.stop hinv hok (by rw [hdrop]; exact hs)) hu

/-- A new binlog that takes its first event. -/
theorem reachable_first {b1 : Binlog} (hinit : init c sampleEntropy {} dbKey .empty = .ok (b, []))
    (htake : Op.take c b (.add sampleContent) = .ok b1) (hlast : b.lastEventId = 0) (hbuffer : b1.buffer ≠ []) :
    Reachable c (.opened b1 Live.none (liveOf [(1, 1, [1, 2, 3, 4])])) := by
  have hopened := Reachable.start.init (fun _ _ h => by cases h) hinit
  have h := hopened.take (show (Op.add sampleContent).LiveIds _ from trivial) (by decide) (by rw [hlast]; decide) htake
  rwa [if_neg hbuffer, hlast] at h

/-- A binlog without files, opened. -/
def sampleOpened : Binlog :=
  match init keyless sampleEntropy {} .empty .empty with
  | .ok (b, _) => b
  | _ => {}

/-- The binlog with an event in its buffer. -/
def sampleBinlog : Binlog :=
  match Op.take keyless sampleOpened (.add sampleContent) with
  | .ok b => b
  | _ => {}

theorem sampleBinlog_reachable :
    Reachable keyless (.reindexing sampleBinlog none Live.none (liveOf [(1, 1, [1, 2, 3, 4])])) := by
  have hinit : init keyless sampleEntropy {} .empty .empty = .ok (sampleOpened, []) := by decide +kernel
  have htake : Op.take keyless sampleOpened (.add sampleContent) = .ok sampleBinlog := by decide +kernel
  have hlock : sampleBinlog.lock = none := by decide +kernel
  have h := (reachable_first hinit htake (by decide +kernel) (by decide +kernel)).reindex
  rwa [hlock] at h

theorem reindex_recovers_sample :
    Reachable keyless (.reindexing sampleBinlog none Live.none (liveOf [(1, 1, [1, 2, 3, 4])])) ∧
    Represents (sampleBinlog.processor.live.map (·.record)) (liveOf [(1, 1, [1, 2, 3, 4])]) :=
  ⟨sampleBinlog_reachable, (reindex_recovers sampleBinlog_reachable sampleEntropy).1⟩

/-- What is in the buffer when a reindex starts is lost if it stops early:
here after it created `path.new`. -/
theorem reindex_loses_buffer :
    Reachable keyless (.reindexing sampleBinlog none Live.none (liveOf [(1, 1, [1, 2, 3, 4])])) ∧
    (∃ b1, sampleBinlog.doReindex keyless sampleEntropy = .ok b1 ∧
      Stops sampleBinlog.disk (b1.steps.drop sampleBinlog.steps.length) [.createNew] ⟨some [], some []⟩) ∧
    ¬ Delivers keyless sampleEntropy ⟨some [], some []⟩ .empty .empty (liveOf [(1, 1, [1, 2, 3, 4])]) := by
  refine ⟨sampleBinlog_reachable, ?_, fun h => ?_⟩
  · obtain ⟨enc, fl, bu, hready, -⟩ := sampleBinlog_reachable.inv
    obtain ⟨b1, enc', ws, hok, hre, -⟩ := hready.doReindex (r := sampleEntropy)
    refine ⟨b1, hok, ?_⟩
    have hdisk : Disk.mk (some []) (some []) = [FileStep.createNew].foldl Disk.apply sampleBinlog.disk := by
      decide +kernel
    rw [hre.steps, drop_left, hdisk]
    exact .between rfl
  · obtain ⟨xs, hxs, hrep⟩ := h.delivered
    have hnone : delivered keyless sampleEntropy ⟨some [], some []⟩ .empty .empty = .ok [] := by decide +kernel
    rw [hnone] at hxs
    cases hxs
    exact absurd ((hrep.2 1 (1, [1, 2, 3, 4])).2 (by decide)) (by simp)

theorem key_of_lock {key : DbKey} {keySalt : Bytes} (h : b.lock = some (key, keySalt)) : b.dbKey = key := by
  rw [lock] at h
  split at h <;> cases h
  rfl

/-- **The key can be changed at any time.** `change_key` succeeds, and what it and `close` leave is
opened by the new key alone. It may be stopped on the way: given both keys, the next `init` delivers
what was live when `path` was unlinked, and before that what was saved. -/
theorem changeKey_stops (h : Reachable c (.opened b saved m)) (r : Entropy) (newDbKey : DbKey)
    (hhash : ∀ key keySalt, b.lock = some (key, keySalt) → AesCtrEncryptionEvent.generateHash c
      (firstKey c newDbKey keySalt) = AesCtrEncryptionEvent.generateHash c (deriveKey c key keySalt) → newDbKey = key) :
    ∃ b1, b.changeKey c r newDbKey = .ok b1 ∧ Reachable c (.opened b1 m m) ∧
      (∀ r', Delivers c r' (b1.close c) newDbKey .empty m) ∧
      ∀ made d, Stops b.disk (b1.steps.drop b.steps.length) made d →
        ∀ r', Delivers c r' d newDbKey b.dbKey (if .unlinkPath ∈ made then m else saved) := by
  have hchange := h.changeKey newDbKey
  obtain ⟨enc, fl, bu, hready, -⟩ := hchange.inv
  obtain ⟨b1, enc', ws, hok, hre, -⟩ := hready.doReindex (r := r)
  have hdone := hchange.reindexed hok
  have hnew : ∀ oldDbKey, Unlocks c b1.lock newDbKey oldDbKey :=
    fun _ key keySalt hlock => .inl (hre.rest.dbKey.symm.trans (key_of_lock hlock))
  have hold : Unlocks c b.lock newDbKey b.dbKey := fun key keySalt hlock =>
    or_iff_not_imp_left.mpr fun hne => ⟨key_of_lock hlock, fun heq => hne (hhash key keySalt hlock heq)⟩
  refine ⟨b1, hok, hdone, fun _ => Inv.delivers hdone.close.inv (hnew _), fun made d hs _ => ?_⟩
  refine Inv.delivers (hchange.stop hok hs).inv ?_
  split
  · exact hnew _
  · exact hold

/-- Libraries for which keys, salts and places matter. -/
def sampleKeyed : Crypto where
  crc32 bytes := UInt32.ofNat (bytes.foldl (fun sum byte => 31 * sum + byte.toNat) 0)
  pbkdf2Sha256 password salt _ := (range 32).map fun i => password.getD i 0 + salt.getD i 0
  hmacSha256 key message := (range 32).map fun i => key.getD i 0 + message.getD i 0
  aesCtr key iv i := key.getD (i % 32) 0 + iv.getD (i % 16) 0 + UInt8.ofNat i
  length_pbkdf2Sha256 _ _ _ := by simp
  length_hmacSha256 _ _ := by simp

/-- A binlog with a password, and then with an event in it. -/
def sampleLocked : Binlog := ((init sampleKeyed sampleEntropy {} (.password [1]) .empty).get (by decide +kernel)).1

def sampleKept : Binlog := (Op.take sampleKeyed sampleLocked (.add sampleContent)).get (by decide +kernel)

theorem sampleKept_reachable :
    Reachable sampleKeyed (.opened sampleKept Live.none (liveOf [(1, 1, [1, 2, 3, 4])])) := by
  have hinit : init sampleKeyed sampleEntropy {} (.password [1]) .empty = .ok (sampleLocked, []) := by decide +kernel
  exact reachable_first hinit (Outcome.eq_ok_get _ _) (by decide +kernel) (by decide +kernel)

theorem sampleKept_lock : sampleKept.lock = some (.password [1], sampleEntropy.salt) := by decide +kernel

/-- A password in place of another one, with an event in the log. -/
theorem changeKey_stops_sample : ∃ b1, sampleKept.changeKey sampleKeyed sampleEntropy (.password [2]) = .ok b1 ∧
    (∀ r', Delivers sampleKeyed r' (b1.close sampleKeyed) (.password [2]) .empty (liveOf [(1, 1, [1, 2, 3, 4])])) ∧
    ∀ made d, Stops sampleKept.disk (b1.steps.drop sampleKept.steps.length) made d →
      ∀ r', Delivers sampleKeyed r' d (.password [2]) sampleKept.dbKey
        (if .unlinkPath ∈ made then liveOf [(1, 1, [1, 2, 3, 4])] else Live.none) := by
  obtain ⟨b1, hok, -, hrest⟩ := changeKey_stops sampleKept_reachable sampleEntropy (.password [2]) (by
    rw [sampleKept_lock]
    rintro _ _ ⟨⟩ hhash
    exact absurd hhash (by decide +kernel))
  exact ⟨b1, hok, hrest⟩

/-- **The binlog reopens**, after any number of sessions, each closed or stopped in a reindex: given
the key, `init` succeeds with what is live. -/
theorem reopens (h : Reachable c (.files disk lock m)) (hu : Unlocks c lock dbKey oldDbKey) (r : Entropy) :
    ∃ b events, init c r disk dbKey oldDbKey = .ok (b, events) ∧ Represents (events.map (·.record)) m ∧
      Reachable c (.opened b m m) := by
  obtain ⟨b, events, hinit, hrep⟩ := Inv.delivers (r := r) h.inv hu
  exact ⟨b, events, hinit, hrep, h.init hu hinit⟩

/-- The log with the password and the event, after it was closed. -/
theorem reopens_sample : ∃ b events, init sampleKeyed sampleEntropy (sampleKept.close sampleKeyed) (.password [1])
    .empty = .ok (b, events) ∧ Represents (events.map (·.record)) (liveOf [(1, 1, [1, 2, 3, 4])]) := by
  obtain ⟨b, events, hinit, hrep, -⟩ := reopens sampleKept_reachable.close
    (by rw [sampleKept_lock]; rintro _ _ ⟨⟩; exact .inl rfl) sampleEntropy
  exact ⟨b, events, hinit, hrep⟩

end Tdlib.Db
