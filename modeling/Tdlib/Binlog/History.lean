/-
Histories of a binlog without a key: `add`, `rewrite`, `erase`, and reindexes
and flushes in between. After any of them, and after any loss of the end of
the file, opening the file again gives what the history has written.
-/
import Tdlib.Binlog.Live

namespace Tdlib.Db

open ServiceTypes Binlog
open List hiding pure_def
open Outcome

/-- What a caller stores: an `int32` type and data. -/
structure Content where
  type : Int
  data : Bytes
  type_ge : -2 ^ 31 ≤ type
  type_lt : type < 2 ^ 31

/-- The content is no service event's, is aligned, and makes an event of at
most `MAX_SIZE` bytes. -/
def Content.Storable (x : Content) : Prop :=
  0 ≤ x.type ∧ x.data.length % 4 = 0 ∧ x.data.length + minSize ≤ maxSize

instance (x : Content) : Decidable x.Storable := inferInstanceAs (Decidable (_ ∧ _ ∧ _))

/-- The content can be written, to whatever file. -/
def Content.Writable (x : Content) : Prop :=
  0 ≤ x.type ∧ x.data.length % 4 = 0 ∧ x.data.length + minSize < 2 ^ 31

variable {x : Content} {enc : Option Encryption} {fl bu : List LogEvent} {ops : List Op}

theorem Content.Storable.writable (h : x.Storable) : x.Writable :=
  ⟨h.1, h.2.1, Nat.lt_of_le_of_lt h.2.2 (by decide)⟩

inductive Op
  | add (content : Content)
  | rewrite (id : Nat) (content : Content)
  | erase (id : Nat)
  | reindex
  | flush

namespace Op

def step (c : Crypto) (r : Entropy) (b : Binlog) : Op → Outcome Binlog
  | add x => do
    let (b, _) ← b.add c r x.type x.data
    pure b
  | rewrite id x => do
    let (b, _) ← b.rewrite c r id x.type x.data
    pure b
  | erase id => do
    let (b, _) ← b.erase c r id
    pure b
  | reindex => b.doReindex c r
  | flush => pure (b.flush c)

/-- An operation that adds an event. -/
def isWrite : Op → Bool
  | add _ | rewrite _ _ | erase _ => true
  | reindex | flush => false

/-- `init` without files, then the operations. -/
def run (c : Crypto) (r : Entropy) (ops : List Op) : Outcome Binlog := do
  let (b, _) ← init c r {} .empty .empty
  ops.foldlM (step c r) b

/-- The last id that is taken after the operation: each of the three takes
one. -/
def lastId (last : Nat) : Op → Nat
  | add _ | rewrite _ _ | erase _ => last + 1
  | reindex | flush => last

/-- What the operation writes. -/
def record (last : Nat) : Op → List Record
  | add x => [(last + 1, x.type, x.data)]
  | rewrite id x => [(id, x.type, x.data)]
  | erase id => [(id, empty, [])]
  | reindex | flush => []

/-- What a history writes. -/
def records : Nat → List Op → List Record
  | _, [] => []
  | last, op :: ops => op.record last ++ records (op.lastId last) ops

/-- Only live ids are rewritten or erased. -/
def LiveIds (m : Live) : Op → Prop
  | add _ | reindex | flush => True
  | rewrite id _ | erase id => m id ≠ none

instance (m : Live) (op : Op) : Decidable (op.LiveIds m) := by
  cases op <;> unfold LiveIds <;> infer_instance

/-- Callers' histories: from the live events `m` on, only ids that are live
are rewritten or erased. -/
def Proper (m : Live) (last : Nat) : List Op → Prop
  | [] => True
  | op :: ops => op.LiveIds m ∧ Proper ((op.record last).foldl Live.write m) (op.lastId last) ops

def Storable : Op → Prop
  | add x | rewrite _ x => x.Storable
  | erase _ | reindex | flush => True

def Writable : Op → Prop
  | add x | rewrite _ x => x.Writable
  | erase _ | reindex | flush => True

theorem Storable.writable {op : Op} (h : op.Storable) : op.Writable := by
  cases op with
  | add x | rewrite _ x => exact Content.Storable.writable h
  | erase _ | reindex | flush => trivial

/-- Opening the file of a history gives what the history has written, and
opening any beginning of it what the operations with events completely
inside have written. -/
def Reloads (c : Crypto) (r : Entropy) (ops : List Op) : Prop :=
  ∃ b log, run c r ops = .ok b ∧ (b.close c).path = some (raws c log) ∧
    (∀ e ∈ log, e.record ∈ records 0 ops) ∧
    Delivers c r (b.close c) .empty .empty (liveOf (records 0 ops)) ∧
    ∀ n, Delivers c r ⟨some ((raws c log).take n), none⟩ .empty .empty
      (liveOf ((log.take (complete log n)).map (·.record)))

end Op

/-! ## One operation -/

variable {c : Crypto} {r : Entropy} {b : Binlog} {m : Live} {last : Nat} {written : List Record} {op : Op}

/-- The event `create_raw` makes of storable content. -/
def Content.event (x : Content) (id flags : Nat) (hx : x.Writable) (hid : id < 2 ^ 64) (hflags : flags < 2) :
    LogEvent where
  id
  type := x.type
  flags
  extra := 0
  data := x.data
  id_lt := hid
  type_ge := x.type_ge
  type_lt := x.type_lt
  flags_lt := by omega
  extra_lt := LogEvent.zero_lt
  aligned := hx.2.1
  small := hx.2.2

/-- `add_raw_event` of what `create_raw` makes, up to the reindex. -/
def Binlog.takeCreated (c : Crypto) (eventId : Nat) (type : Int) (flags : Nat) (data : Bytes) (b : Binlog) :
    Outcome Binlog := do
  let raw ← BinlogEvent.createRaw c eventId type flags data
  let event ← BinlogEvent.init raw
  b.takeEvent c event

theorem addCreated_eq {eventId : Nat} {type : Int} {flags : Nat} {data : Bytes} :
    b.addCreated c r eventId type flags data = b.takeCreated c eventId type flags data >>= (·.autoReindex c r) := by
  simp [addCreated, takeCreated, addRawEvent, addEvent]

theorem enc_eq_none (h : b.Running c enc fl bu) (hd : b.dbKey = .empty) : enc = none := by
  cases enc with
  | none => rfl
  | some e =>
    have := (h.keys.isFor e rfl).1
    rw [hd] at this
    cases this

namespace Op

/-- An operation up to the reindex of `add_event`. -/
def take (c : Crypto) (b : Binlog) : Op → Outcome Binlog
  | add x => b.nextEventId.2.takeCreated c b.nextEventId.1 x.type 0 x.data
  | rewrite id x => b.nextEventId.2.takeCreated c id x.type rewriteFlag x.data
  | erase id => b.nextEventId.2.takeCreated c id empty rewriteFlag []
  | reindex => pure b
  | flush => pure (b.flush c)

theorem step_write (hop : op.isWrite = true) : op.step c r b = op.take c b >>= (·.autoReindex c r) := by
  cases op with
  | add x | rewrite _ x | erase _ =>
    simp only [step, take, Binlog.add, Binlog.rewrite, Binlog.erase, addCreated_eq, bind_assoc,
      pure_def, ok_bind, bind_ok]
  | reindex | flush => cases hop

/-- The binlog after a history that wrote `written` and took the ids up to
`last`, where `m` is live. -/
structure After (c : Crypto) (b : Binlog) (enc : Option Encryption) (m : Live) (last : Nat) (written : List Record)
    (flushed buffered : List LogEvent) : Prop where
  running : b.Running c enc flushed buffered
  lastEventId : b.lastEventId = last
  processor : b.processor.lastEventId ≤ last
  mem : ∀ e ∈ flushed ++ buffered, e.record ∈ written
  live : liveOf ((flushed ++ buffered).map (·.record)) = m

variable {enc enc' : Option Encryption} {fl bu fl' bu' : List LogEvent}

section

variable (h : After c b enc m last written fl bu)

include h

/-- Live ids were taken. -/
theorem After.id_le {id : Nat} (hid : m id ≠ none) : id ∈ (liveEvents (fl ++ bu)).map KeyLog.Entry.key ∧ id ≤ last := by
  have hmem := mem_keys_of_liveOf (by rw [h.live]; exact hid)
  obtain ⟨e, he, rfl⟩ := mem_map.1 hmem
  have h1 := h.running.log.holds.ordered.below e he
  have h2 := h.processor
  exact ⟨hmem, by omega⟩

theorem After.rewritten {b1 : Binlog} (hrun : b1.Running c enc' fl' bu')
    (hrew : Rewritten (fl ++ bu) (fl' ++ bu')) (hrest : b.SameRest b1) : After c b1 enc' m last written fl' bu' :=
  ⟨hrun, hrest.lastEventId.trans h.lastEventId, by rw [hrest.processor]; exact h.processor,
    fun e he => h.mem e (hrew.mem e he), hrew.liveOf.trans h.live⟩

/-- What the three operations share: the event is made and taken. -/
theorem After.takeCreated {e : LogEvent} (hextra : e.extra = 0)
    (hid : e.id ≤ last + 1)
    (he : KeyLog.Follows LogEvent.Ok (liveEvents (fl ++ bu)) (b.processor.lastEventId + 1) e) :
    ∃ b1 fl' bu', { b with lastEventId := last + 1 }.takeCreated c e.id e.type e.flags e.data = .ok b1 ∧
      After c b1 enc (m.write e.record) (last + 1) (written ++ [e.record]) fl' bu' ∧ (bu' = [] ∨ fl' = fl) ∧
      b1.dbKey = b.dbKey := by
  obtain ⟨b1, fl', bu', htake, hrun, hlog, hcut, hnext, hlast, hkey⟩ :=
    (h.running.withLastEventId (last + 1)).takeEvent he (Image.event c e) rfl
  refine ⟨b1, fl', bu', ?_, ⟨hrun, hlast, ?_, fun x hx => ?_, ?_⟩, hcut, hkey⟩
  · unfold Binlog.takeCreated
    rw [createRaw_eq c e hextra, ok_bind, e.init_raw, ok_bind, htake]
  · have hp := h.processor
    simp only [KeyLog.next, key_def] at hnext
    omega
  · rw [hlog] at hx
    rcases mem_append.1 hx with hx | hx
    · exact mem_append_left _ (h.mem x hx)
    · rw [mem_singleton.1 hx]; simp
  · rw [hlog, map_append]
    unfold liveOf
    rw [foldl_append]
    show Live.write (liveOf ((fl ++ bu).map (·.record))) e.record = _
    rw [h.live]

theorem After.follows_new (hx : x.Writable) (hlast : last + 1 < 2 ^ 63) :
    KeyLog.Follows LogEvent.Ok (liveEvents (fl ++ bu)) (b.processor.lastEventId + 1)
      (x.event (last + 1) 0 hx (by omega) (by omega)) := by
  exact .inl ⟨Nat.succ_le_succ h.processor, erases_eq_false hx.1, show hasFlag 0 partialFlag = false by decide, hlast,
    hx.1⟩

theorem After.take (hids : op.LiveIds m) (hop : op.Writable) (hlast : last + 1 < 2 ^ 63) :
    ∃ b1 fl' bu', op.take c b = .ok b1 ∧
      After c b1 enc ((op.record last).foldl Live.write m) (op.lastId last) (written ++ op.record last) fl' bu' ∧
      (bu' = [] ∨ fl' = fl) ∧ b1.dbKey = b.dbKey := by
  have hnext : b.nextEventId = (last + 1, { b with lastEventId := last + 1 }) := by
    unfold nextEventId
    rw [h.lastEventId, Nat.mod_eq_of_lt (by omega)]
  cases op with
  | add x =>
    unfold Op.take
    rw [hnext]
    exact h.takeCreated rfl (Nat.le_refl _) (h.follows_new hop hlast)
  | rewrite id x =>
    obtain ⟨hmem, hle⟩ := h.id_le hids
    have hid : id < 2 ^ 63 := by omega
    unfold Op.take
    rw [hnext]
    exact h.takeCreated (e := x.event id rewriteFlag hop (by omega) (by decide)) rfl (Nat.le_succ_of_le hle)
      (.inr ⟨hmem, show hasFlag rewriteFlag partialFlag = false by decide, hid,
        show hasFlag rewriteFlag rewriteFlag = true by decide, .inl hop.1⟩)
  | erase id =>
    obtain ⟨hmem, hle⟩ := h.id_le hids
    have hid : id < 2 ^ 63 := by omega
    unfold Op.take
    rw [hnext]
    exact h.takeCreated (e := erasure id hid) rfl (Nat.le_succ_of_le hle) (.inr ⟨hmem, erasure_ok hid⟩)
  | reindex => exact ⟨b, fl, bu, rfl, by simpa [record, lastId] using h, .inr rfl, rfl⟩
  | flush =>
    obtain ⟨hrun, hrest⟩ := h.running.flush
    refine ⟨b.flush c, fl ++ bu, [], rfl, ?_, .inl rfl, hrest.dbKey⟩
    simpa [record, lastId] using h.rewritten hrun (by rw [append_nil]; exact .refl _) hrest

/-- **One operation** of a proper history with writable content succeeds and
does to the live events what it says. -/
theorem After.step (hids : op.LiveIds m) (hop : op.Writable) (hlast : last + 1 < 2 ^ 63) :
    ∃ b1 enc' fl' bu', op.step c r b = .ok b1 ∧
      After c b1 enc' ((op.record last).foldl Live.write m) (op.lastId last) (written ++ op.record last) fl' bu' ∧
      b1.dbKey = b.dbKey := by
  obtain ⟨b1, fl1, bu1, htake, h1, -, hkey⟩ := h.take hids hop hlast
  cases hw : op.isWrite with
  | true =>
    obtain ⟨b2, enc', fl', bu', hauto, hrun, hrew, hrest⟩ := h1.running.autoReindex (r := r)
    exact ⟨b2, enc', fl', bu', by rw [step_write hw, htake, ok_bind, hauto], h1.rewritten hrun hrew hrest,
      hrest.dbKey.trans hkey⟩
  | false =>
    cases op with
    | add _ | rewrite _ _ | erase _ => cases hw
    | flush => exact ⟨b1, enc, fl1, bu1, htake, h1, hkey⟩
    | reindex =>
      cases htake
      obtain ⟨b2, enc', ws, hok, hre, hrun⟩ := h1.running.doReindex (r := r)
      exact ⟨b2, enc', _, [], hok, h1.rewritten hrun (by rw [append_nil]; exact h1.running.log.legal.rewritten.2.1)
        hre.rest, hre.rest.dbKey⟩

end

/-! ## Histories -/

theorem run_append (ops ops' : List Op) :
    run c r (ops ++ ops') = run c r ops >>= fun b => ops'.foldlM (step c r) b := by
  unfold run
  simp

theorem lastId_le (op : Op) (last : Nat) : op.lastId last ≤ last + 1 := by cases op <;> simp [lastId]

theorem After.run (h : After c b enc m last written fl bu) (hids : Proper m last ops)
    (hops : ∀ op ∈ ops, op.Writable) (hlast : last + ops.length < 2 ^ 63) :
    ∃ b1 enc' fl' bu', ops.foldlM (Op.step c r) b = .ok b1 ∧
      After c b1 enc' ((records last ops).foldl Live.write m) (ops.foldl (fun n op => op.lastId n) last)
        (written ++ records last ops) fl' bu' ∧ b1.dbKey = b.dbKey := by
  induction ops generalizing b enc m last written fl bu with
  | nil => exact ⟨b, enc, fl, bu, rfl, by simpa [records] using h, rfl⟩
  | cons op ops ih =>
    rw [length_cons] at hlast
    have hle := lastId_le op last
    obtain ⟨b1, enc1, fl1, bu1, hok, h1, hkey1⟩ := h.step (r := r) hids.1 (hops op (by simp)) (by omega)
    obtain ⟨b2, enc2, fl2, bu2, hrun, h2, hkey2⟩ := ih h1 hids.2 (fun x hx => hops x (by simp [hx])) (by omega)
    refine ⟨b2, enc2, fl2, bu2, by rw [foldlM_cons, hok, ok_bind, hrun], ?_, hkey2.trans hkey1⟩
    rw [records, foldl_append, ← append_assoc]
    exact h2

theorem After.init : ∃ b events, init c r {} .empty .empty = .ok (b, events) ∧
    After c b none Live.none 0 [] [] [] ∧ b.dbKey = .empty := by
  obtain ⟨b, events, enc, fl, hinit, hrun, -, hrew, hkey, hlast, hproc⟩ :=
    init_spec (r := r) (show ({} : Disk).restored.path = some (sealed c none (raws c [] ++ [])) from rfl) trivial
      (by simp [Readable]) (.inl (Torn.nil c)) (.none c .empty .empty)
  have henc := enc_eq_none hrun hkey
  have hfl : fl = [] := eq_nil_iff_forall_not_mem.2 fun e he => by simpa using hrew.mem e he
  subst henc hfl
  have hzero : b.lastEventId = 0 := by simp only [KeyLog.bound, foldl_nil] at hlast; omega
  exact ⟨b, events, hinit, ⟨hrun, hzero, by omega, by simp, rfl⟩, hkey⟩

theorem After.ofRun (hids : Proper Live.none 0 ops) (hops : ∀ op ∈ ops, op.Writable)
    (hlen : ops.length < 2 ^ 63) : ∃ b fl bu, Op.run c r ops = .ok b ∧
      After c b none (liveOf (records 0 ops)) (ops.foldl (fun n op => op.lastId n) 0) (records 0 ops) fl bu := by
  obtain ⟨b0, events, hinit, h0, hkey0⟩ := After.init (c := c) (r := r)
  obtain ⟨b, enc, fl, bu, hrun, h, hkey⟩ := h0.run (r := r) hids hops (by omega)
  have henc := enc_eq_none h.running (hkey.trans hkey0)
  subst henc
  exact ⟨b, fl, bu, by unfold Op.run; rw [hinit, ok_bind]; exact hrun, h⟩

end Op

theorem records_fit (hops : ∀ op ∈ ops, op.Storable) {x : Record}
    (hx : x ∈ Op.records last ops) : x.2.2.length + minSize ≤ maxSize := by
  induction ops generalizing last with
  | nil => simp [Op.records] at hx
  | cons op ops ih =>
    rw [Op.records, mem_append] at hx
    rcases hx with hx | hx
    · have hop := hops op (by simp)
      cases op with
      | add y | rewrite _ y => rw [Op.record, mem_singleton] at hx; rw [hx]; exact hop.2.2
      | erase _ => rw [Op.record, mem_singleton] at hx; rw [hx]; show 0 + minSize ≤ maxSize; decide
      | reindex | flush => simp [Op.record] at hx
    · exact ih (fun y hy => hops y (by simp [hy])) hx

/-- **Histories reload.** A history with storable content of fewer than 2^63
operations can be read back: from its file, and from any beginning of it. -/
theorem history_reloads (c : Crypto) (r : Entropy) (ops : List Op) (hids : Op.Proper Live.none 0 ops)
    (hops : ∀ op ∈ ops, op.Storable) (hlen : ops.length < 2 ^ 63) : Op.Reloads c r ops := by
  obtain ⟨b₁, fl, bu, hrun, h₁⟩ := Op.After.ofRun (c := c) (r := r) hids (fun op hop => (hops op hop).writable) hlen
  obtain ⟨hflush, -⟩ := h₁.running.flush
  have hpath : (b₁.close c).path = some (raws c (fl ++ bu)) := hflush.path
  have hlegal := h₁.running.log.legal
  have hfits : Readable (fl ++ bu) := fun e he => records_fit hops (h₁.mem e he)
  refine ⟨b₁, fl ++ bu, hrun, hpath, h₁.mem, ?_, fun n => ?_⟩
  · have hd := delivers_encode (r := r) (restored_of_path h₁.running.flush.1.path) hlegal hfits (.none c .empty .empty)
    rw [h₁.live] at hd
    exact hd
  · exact delivers_take (d := ⟨some ((raws c (fl ++ bu)).take n), none⟩) rfl hlegal hfits (.none c .empty .empty)

/-- Some bytes for the salts. -/
def sampleEntropy : Entropy where
  salt := List.replicate 32 7
  iv := List.replicate 16 9
  length_salt := by decide
  length_iv := by decide

/-- An event to add. -/
def sampleContent : Content := ⟨1, [1, 2, 3, 4], by decide, by decide⟩

/-- An event is added and rewritten, another one added and erased, with a
reindex and a flush in between. -/
def sampleOps : List Op :=
  [.add sampleContent, .add ⟨2, [], by decide, by decide⟩, .reindex,
    .rewrite 1 ⟨3, [5, 6, 7, 8], by decide, by decide⟩, .flush, .erase 2]

instance decidableProper : (ops : List Op) → (m : Live) → (last : Nat) → Decidable (Op.Proper m last ops)
  | [], _, _ => .isTrue trivial
  | op :: ops, m, last =>
    have := decidableProper ops ((op.record last).foldl Live.write m) (op.lastId last)
    inferInstanceAs (Decidable (_ ∧ _))

instance (op : Op) : Decidable op.Storable := by
  cases op <;> unfold Op.Storable <;> infer_instance

theorem history_reloads_sample : Op.Proper Live.none 0 sampleOps ∧ (∀ op ∈ sampleOps, op.Storable) ∧
      Op.Reloads Crypto.keyless sampleEntropy sampleOps :=
  ⟨by decide, by decide, history_reloads _ _ _ (by decide) (by decide) (by decide)⟩

/-! ## Histories that do not reload -/

/-- What opening the file of a history delivers. -/
def Op.reopen (c : Crypto) (r : Entropy) (ops : List Op) : Outcome (List Record) := do
  let b ← Op.run c r ops
  delivered c r (b.close c) .empty .empty

theorem Op.Reloads.reopen (h : Op.Reloads c r ops) :
    ∃ xs, Op.reopen c r ops = .ok xs ∧ Represents xs (liveOf (Op.records 0 ops)) := by
  obtain ⟨b, log, hrun, -, -, hd, -⟩ := h
  obtain ⟨xs, hxs, hrep⟩ := hd.delivered
  exact ⟨xs, by unfold Op.reopen; rw [hrun, ok_bind, hxs], hrep⟩

/-- Content of which every event is too big for the reader. -/
theorem not_reloads_big (htype : 0 ≤ x.type) (hlen : x.data.length = maxSize) : ¬ Op.Reloads c r [.add x] := by
  have hx : x.Writable := ⟨htype, by rw [hlen]; decide, by rw [hlen]; decide⟩
  rintro ⟨b2, -, hrun2, -, -, hd2, -⟩
  obtain ⟨b1, fl, bu, hrun1, h1⟩ := Op.After.ofRun (c := c) (r := r)
    (show Op.Proper Live.none 0 [.add x] from ⟨trivial, trivial⟩)
    (fun op hop => by rw [mem_singleton.1 hop]; exact hx) (by simp)
  rw [hrun2] at hrun1
  cases hrun1
  -- Whatever the file holds, its first event is refused.
  have hends : Ends c (raws c (fl ++ bu)) := by
    refine ends_of_big c fun e he => ?_
    have hmem := h1.mem e he
    simp only [Op.records, Op.record, append_nil, mem_singleton] at hmem
    have hdata : e.data = x.data := congrArg (·.2.2) hmem
    unfold LogEvent.Fits LogEvent.size
    rw [hdata, hlen]; decide
  have hpath : (b2.close c).path = some (sealed c none (raws c [] ++ raws c (fl ++ bu))) := h1.running.flush.1.path
  have hd := delivers_ends (r := r) (restored_of_path hpath) trivial (by simp [Readable]) hends (.none c .empty .empty)
  have heq := congrFun (hd2.unique hd) 1
  have hne : x.type ≠ empty := by have := hx.1; simp only [empty]; omega
  simp [liveOf, Op.records, Op.record, Live.write, Live.none, hne] at heq

theorem write_ne_none {xs : List Record} (hxs : ∀ x ∈ xs, x.2.1 ≠ empty) {id : Nat} (h : m id ≠ none) :
    xs.foldl Live.write m id ≠ none := by
  induction xs generalizing m with
  | nil => exact h
  | cons x xs ih =>
    refine ih (fun y hy => hxs y (by simp [hy])) ?_
    unfold Live.write Function.update
    rw [if_neg (hxs x (by simp))]
    split <;> simp [h]

/-- With events in the log, the id 2^63 cannot be added. -/
theorem Op.After.add_wraps (h : Op.After c b enc m last written fl bu)
    (hlast : last + 1 = 2 ^ 63) {id : Nat} (hm : m id ≠ none) (hx : x.Writable) : Op.step c r b (.add x) = .fatal := by
  let e := x.event (2 ^ 63) 0 hx (by decide) (by decide)
  have hlive : liveEvents (fl ++ bu) ≠ [] := fun hnil => by
    have hmem := (h.id_le hm).1
    rw [hnil] at hmem
    cases hmem
  have hadd := (h.running.withLastEventId (2 ^ 63)).addRawEvent_wraps (r := r) (e := e) rfl rfl hx.1 hlive
  unfold Op.step Binlog.add Binlog.nextEventId Binlog.addCreated
  rw [h.lastEventId, hlast]
  dsimp only
  rw [show BinlogEvent.createRaw c (2 ^ 63 % 2 ^ 64) x.type 0 x.data = _ from createRaw_eq c e rfl, ok_bind]
  exact congrArg (· >>= _) (congrArg (· >>= _) hadd)

theorem adds_proper (hops : ∀ op ∈ ops, ∃ x, op = .add x) : Op.Proper m last ops := by
  induction ops generalizing m last with
  | nil => trivial
  | cons op ops ih =>
    obtain ⟨x, rfl⟩ := hops op (by simp)
    exact ⟨trivial, ih fun y hy => hops y (by simp [hy])⟩

theorem adds_lastId (x : Content) (n : Nat) :
    (List.replicate n (Op.add x)).foldl (fun k op => op.lastId k) last = last + n := by
  induction n generalizing last with
  | zero => rfl
  | succ n ih => rw [replicate_succ, foldl_cons, ih]; simp only [Op.lastId]; omega

theorem adds_records (n : Nat) : ∀ y ∈ Op.records last (List.replicate n (.add x)), y.2.1 = x.type := by
  induction n generalizing last with
  | zero => simp [Op.records]
  | succ n ih =>
    intro y hy
    rcases mem_append.1 hy with hy | hy
    · rw [Op.record, mem_singleton] at hy; rw [hy]
    · exact ih y hy

/-- After 2^63 additions nothing can be read: the last one is fatal. -/
theorem not_reloads_long (hx : x.Writable) {n : Nat} (hn : n = 2 ^ 63) :
    ¬ Op.Reloads c r (List.replicate n (.add x)) := by
  rintro ⟨b2, -, hrun, -⟩
  obtain ⟨k, rfl⟩ : ∃ k, n = k + 1 + 1 := ⟨n - 2, by omega⟩
  obtain ⟨b1, fl, bu, hrun1, h1⟩ := Op.After.ofRun (c := c) (r := r)
    (show Op.Proper Live.none 0 (List.replicate (k + 1) (.add x)) from adds_proper fun op hop =>
      ⟨x, eq_of_mem_replicate hop⟩)
    (fun op hop => by rw [eq_of_mem_replicate hop]; exact hx) (by rw [length_replicate]; omega)
  rw [adds_lastId] at h1
  have hne : x.type ≠ empty := by have := hx.1; simp only [empty]; omega
  have hlive : liveOf (Op.records 0 (List.replicate (k + 1) (.add x))) 1 ≠ none := by
    unfold liveOf
    rw [replicate_succ, Op.records, foldl_append]
    refine write_ne_none (fun y hy => by rw [adds_records k y hy]; exact hne) ?_
    simp [Op.record, Live.write, hne]
  rw [replicate_succ', Op.run_append, hrun1, ok_bind, foldlM_cons,
    h1.add_wraps (by omega) hlive hx] at hrun
  cases hrun

/-- Histories that cannot be read back: content of a service type, content
that is not aligned, content that is too big, and one addition too many. -/
theorem history_not_reloads : (Op.Proper Live.none 0 [.add ⟨-1, [], by decide, by decide⟩] ∧
      ¬ Op.Reloads Crypto.keyless sampleEntropy [.add ⟨-1, [], by decide, by decide⟩]) ∧
    (Op.Proper Live.none 0 [.add ⟨5, [1], by decide, by decide⟩] ∧
      ¬ Op.Reloads Crypto.keyless sampleEntropy [.add ⟨5, [1], by decide, by decide⟩]) ∧
    (Op.Proper Live.none 0 [.add ⟨5, List.replicate maxSize 0, by decide, by decide⟩] ∧
      ¬ Op.Reloads Crypto.keyless sampleEntropy [.add ⟨5, List.replicate maxSize 0, by decide, by decide⟩]) ∧
    Op.Proper Live.none 0 (List.replicate (2 ^ 63) (.add ⟨5, [], by decide, by decide⟩)) ∧
      ¬ Op.Reloads Crypto.keyless sampleEntropy (List.replicate (2 ^ 63) (.add ⟨5, [], by decide, by decide⟩)) := by
  refine ⟨⟨⟨trivial, trivial⟩, fun h => ?_⟩, ⟨⟨trivial, trivial⟩, fun h => ?_⟩, ⟨⟨trivial, trivial⟩, ?_⟩, ?_, ?_⟩
  · obtain ⟨xs, hreopen, hrep⟩ := h.reopen
    have hempty : Op.reopen Crypto.keyless sampleEntropy [.add ⟨-1, [], by decide, by decide⟩] = .ok [] := by
      decide +kernel
    rw [hempty] at hreopen
    cases hreopen
    exact absurd ((hrep.2 1 (-1, [])).2 (by decide)) (by simp)
  · obtain ⟨xs, hreopen, -⟩ := h.reopen
    have hfatal : Op.reopen Crypto.keyless sampleEntropy [.add ⟨5, [1], by decide, by decide⟩] = .fatal := by
      decide +kernel
    cases hreopen
  · exact not_reloads_big (by decide) length_replicate
  · exact adds_proper fun op hop => ⟨_, eq_of_mem_replicate hop⟩
  · exact not_reloads_long ⟨by decide, rfl, by decide⟩ rfl

end Tdlib.Db
