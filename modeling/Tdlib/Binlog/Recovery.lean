/-
`init` on the file of a log, torn at its end or not: it delivers the live
events of the log, and the binlog goes on from there.
-/
import Tdlib.Binlog.LoadFacts
import Tdlib.Binlog.Running

namespace Tdlib.Db

open Option hiding pure_def
open ServiceTypes BinlogEventsProcessor
open List hiding pure_def
open Outcome KeyLog

/-- The files once `init` has opened `path`. -/
def Disk.restored (d : Disk) : Disk := (if d.path = none then d.apply .renameNew else d).apply .create

namespace Binlog

variable {c : Crypto} {r : Entropy} {b b1 : Binlog} {enc : Option Encryption} {used : Bool} {plain : Bytes}

/-! ## The encryption event -/

/-- A binlog before `load_binlog`. -/
def fresh (disk : Disk) (steps : List FileStep) (dbKey oldDbKey : DbKey) : Binlog := { disk, steps, dbKey, oldDbKey }

/-- The keys once the encryption event, if there is one, was read. -/
structure Keyed (b : Binlog) (enc : Option Encryption) (b1 : Binlog) : Prop where
  fdNew : b1.fdNew = false
  wrongPassword : b1.wrongPassword = false
  dbKey : b1.dbKey = b.dbKey
  encryptionType : b1.encryptionType = if enc.isSome then .aesCtr else .none
  byteFlowFlag : b1.byteFlowFlag = enc.isSome
  length_key : b1.aesCtrKey.length = 32
  keySalt : ∀ e, enc = some e → b1.aesCtrKeySalt = e.keySalt
  key : ∀ e, enc = some e → b1.aesCtrKey = e.key

/-- The loop of `load_binlog` before the first event that is not an
encryption event: `plain` is left to read. -/
structure Opened (c : Crypto) (b : Binlog) (enc : Option Encryption) (used : Bool) (plain : Bytes) (b1 : Binlog) : Prop
    extends Keyed b enc b1 where
  state : b1.state = .load
  pending : b1.pendingEvents = []
  disk : b1.disk = b.disk
  dbKeyUsed : b1.dbKeyUsed = (enc.isSome && used)
  flowEnd : ∀ e, enc = some e → b1.flowEnd = ⟨e.key, e.iv, plain.length⟩
  processor : b1.processor = { offset := headerLength enc }
  fdSize : b1.fdSize = headerLength enc
  idle : b1.input.readEvent = none
  offset : b1.input.offset = headerLength enc
  rest : b1.rest c = plain

/-- The binlog once an encryption event was loaded. -/
def afterHeader (e : Encryption) (used : Bool) (event : BinlogEvent) (b : Binlog) : Binlog :=
  { b with
    pendingEvents := [], dbKeyUsed := b.dbKeyUsed || used, encryptionType := .aesCtr,
    aesCtrKeySalt := e.keySalt, aesCtrKey := e.key, aesCtrState := ⟨e.key, e.iv, 0⟩, byteFlowFlag := true,
    input := { b.input with sink := [] }, processor := { offset := event.offset } }.count event

theorem doAddEvent_header {e : Encryption} {event : BinlogEvent} (himage : Image c event (e.header c))
    (hflags : event.flags = 0) (hpending : b.pendingEvents = []) (hstate : b.state = .load)
    (hproc : b.processor = {}) (hsalt : b.aesCtrKeySalt = []) (hkey : b.aesCtrKey.length = 32)
    (hopens : e.Opens c b.dbKey b.oldDbKey used) : b.doAddEvent c event = .ok (b.afterHeader e used event) := by
  have hservice : b.processor.doEvent event = ({ offset := event.offset }, true) := by
    rw [doEvent_service (by rw [hflags]; rfl)
      (by rw [himage.type]; exact Int.negSucc_lt_zero 2), hproc]
    rfl
  have hne : b.state ≠ .reindex := by rw [hstate]; simp
  unfold doAddEvent
  rw [if_neg (by rw [hflags]; decide), hpending, foldlM_nil]
  simp only [pure_def, ok_bind]
  unfold doEvent serviceEvent
  rw [writeEvent_load (by exact hstate), ok_bind, if_pos (by rw [himage.type]; rfl),
    doEncryptionEvent_load himage (by exact hstate) (by exact hsalt) (by exact hkey) (by exact hopens),
    ok_bind]
  exact processEvent_ok hne hservice

variable {s : Intake} {log : List LogEvent} {tail : Bytes} {disk : Disk} {dbKey oldDbKey : DbKey} {e : LogEvent}

/-- **Opening**: the encryption event is read if there is one. -/
theorem loadLoop_opened (steps : List FileStep)
    (hpath : disk.path = some (sealed c enc plain)) (hopens : ∀ e, enc = some e → e.Opens c dbKey oldDbKey used)
    (fuel : Nat) : ∃ b1 k, fuel ≤ k ∧
      loadLoop c (fuel + 3) (fresh disk steps dbKey oldDbKey).startLoad = loadLoop c k b1 ∧
      Opened c (fresh disk steps dbKey oldDbKey) enc used plain b1 := by
  let b := (fresh disk steps dbKey oldDbKey).startLoad
  have hrest : b.rest c = sealed c enc plain := by
    show [] ++ disk.path.getD [] = _
    rw [hpath]; rfl
  cases enc with
  | none =>
    exact ⟨b, fuel + 3, by omega, rfl, ⟨rfl, rfl, rfl, rfl, rfl, length_replicate, by simp, by simp⟩, rfl, rfl, rfl,
      rfl, by simp, rfl, rfl, rfl, rfl, hrest⟩
  | some e =>
    obtain ⟨b1, k, hk, hloop, hadv, hrest1⟩ := loadLoop_event (b := b) (e.fits_header c) rfl hrest fuel
    have hcore := hadv.core.eq
    let event := readImage c (e.header c) (b.input.offset + (e.header c).size)
    have hadd := doAddEvent_header (b := b1) (show Image c event (e.header c) from ⟨rfl, rfl, rfl, rfl, rfl⟩) rfl
      (by rw [hcore]; rfl) (by rw [hcore]; rfl)
      (by rw [hcore]; rfl) (by rw [hcore]; rfl) (by rw [hcore]; exact length_replicate)
      (by rw [hcore]; exact hopens e rfl)
    have hflow : b1.byteFlowFlag = false := by rw [hcore]; rfl
    have hsize : (e.header c).size = 128 := e.size_header c
    have hw : b1.wrongPassword = false := by rw [hcore]; rfl
    refine ⟨b1.afterHeader e used event, k, hk, ?_, ?_⟩
    · rw [hloop]
      unfold afterEvent
      rw [hadd, ok_bind, if_neg (by rw [show (b1.afterHeader e used event).wrongPassword = _ from hw]; simp)]
    · have hlen : (b1.input.bufferReader ++ b1.input.unread).length = plain.length := by
        have := congrArg List.length hrest1
        unfold rest at this
        rwa [if_neg (by rw [hflow]; simp), length_xorStream] at this
      refine ⟨⟨by rw [hcore]; rfl, hw, by rw [hcore]; rfl, rfl, rfl, e.length_key, ?_, ?_⟩, by rw [hcore]; rfl, rfl,
        by rw [hcore]; rfl, by rw [hcore]; rfl, ?_, ?_, ?_, hadv.idle, ?_, ?_⟩
      · rintro e' ⟨⟩; rfl
      · rintro e' ⟨⟩; rfl
      · rintro e' ⟨⟩
        show AesCtrState.mk e.key e.iv (0 + (b1.input.bufferReader ++ b1.input.unread).length) = _
        rw [hlen, Nat.zero_add]
      · show BinlogEventsProcessor.mk _ _ _ _ (((0 + (e.header c).size : Nat) : Int)) _ = _
        rw [hsize]; rfl
      · show b1.fdSize + (((e.header c).raw c).length : Int) = _
        rw [hcore, LogEvent.length_raw, hsize]; rfl
      · show b1.input.offset = _
        rw [hadv.offset, hsize]; rfl
      · show [] ++ xorStream (c.aesCtr e.key e.iv) 0 (b1.input.bufferReader ++ b1.input.unread) = _
        have : b1.input.bufferReader ++ b1.input.unread = xorStream (c.aesCtr e.key e.iv) 0 plain := by
          rw [← hrest1]; unfold rest; rw [if_neg (by rw [hflow]; simp)]
        rw [this, xorStream_xorStream, nil_append]

/-! ## The events -/

/-- An event that waits for the end of its group. -/
def withheld (event : BinlogEvent) : BinlogEvent := { event with flags := clearFlag event.flags partialFlag }

/-- What becomes of the events of a log as it is read: the processor has those
of the groups that are over, in `fdSize` bytes; the others wait. -/
structure Intake where
  processor : BinlogEventsProcessor
  pending : List BinlogEvent
  fdSize : Nat
  offset : Nat

namespace Intake

/-- Nothing but an encryption event is read. -/
def start (enc : Option Encryption) : Intake := ⟨{ offset := headerLength enc }, [], headerLength enc, headerLength enc⟩

/-- The processor after an event, if it takes it. -/
def accept (p : BinlogEventsProcessor) (event : BinlogEvent) : Option BinlogEventsProcessor :=
  if (p.doEvent event).2 then some (p.doEvent event).1 else none

def take (c : Crypto) (s : Intake) (e : LogEvent) : Option Intake :=
  let event := readImage c e (s.offset + e.size)
  if hasFlag e.flags partialFlag then
    some { s with pending := s.pending ++ [withheld event], offset := s.offset + e.size }
  else do
    let processor ← (s.pending ++ [event]).foldlM accept s.processor
    some ⟨processor, [], s.offset + e.size, s.offset + e.size⟩

/-- A log of which the processor takes every event that is in a finished
group. -/
def run (c : Crypto) (s : Intake) (log : List LogEvent) : Option Intake := log.foldlM (take c) s

theorem run_append {l1 l2 : List LogEvent} : run c s (l1 ++ l2) = (run c s l1).bind (run c · l2) :=
  foldlM_append

variable {s' : Intake} {events : List BinlogEvent}

theorem run_cons (h : run c s (e :: log) = some s') : ∃ s1, take c s e = some s1 ∧ run c s1 log = some s' := by
  unfold run at h
  rw [foldlM_cons, bind_eq_bind, bind_eq_some_iff] at h
  exact h

/-- What is true of the events that were read: all of them are of the log. -/
structure Taken (c : Crypto) (log : List LogEvent) (s : Intake) : Prop where
  sorted : s.processor.Sorted
  live : ∀ x ∈ s.processor.live, ∃ e ∈ log, Image c x e
  pending : ∀ x ∈ s.pending, ∃ e ∈ log, Image c x e
  processed : s.processor.offset = s.fdSize
  sizes : s.fdSize + (s.pending.map (·.rawEvent.length)).sum = s.offset

theorem foldlM_accept {I : BinlogEventsProcessor → Prop}
    (keeps : ∀ {p event}, event ∈ events → I p → I (p.doEvent event).1) {p p' : BinlogEventsProcessor} (hp : I p)
    (h : events.foldlM accept p = some p') : I p' := by
  induction events generalizing p with
  | nil => cases h; exact hp
  | cons event events ih =>
    rw [foldlM_cons, bind_eq_bind, bind_eq_some_iff] at h
    obtain ⟨p1, h1, h⟩ := h
    unfold accept at h1
    split at h1
    · cases h1
      exact ih (fun he hp => keeps (by simp [he]) hp) (keeps (by simp) hp) h
    · cases h1

theorem offset_accept {event : BinlogEvent} {p p' : BinlogEventsProcessor}
    (h : (events ++ [event]).foldlM accept p = some p') : p'.offset = event.offset := by
  rw [foldlM_append, bind_eq_bind, bind_eq_some_iff] at h
  obtain ⟨p1, -, h⟩ := h
  rw [foldlM_cons, bind_eq_bind, bind_eq_some_iff] at h
  obtain ⟨p2, h2, h⟩ := h
  cases h
  unfold accept at h2
  split at h2
  · cases h2; exact offset_doEvent _ _
  · cases h2

theorem Image.withFlags {x : BinlogEvent} (h : Image c x e) (flags : Nat) : Image c { x with flags } e :=
  { h with }

theorem Image.readImage (c : Crypto) (e : LogEvent) (offset : Nat) : Image c (readImage c e offset) e :=
  ⟨rfl, rfl, rfl, rfl, rfl⟩

theorem Taken.take (h : Taken c log s) (hs : Intake.take c s e = some s') : Taken c (log ++ [e]) s' := by
  have hold : ∀ x : BinlogEvent, (∃ e' ∈ log, Image c x e') → ∃ e' ∈ log ++ [e], Image c x e' :=
    fun x ⟨e', he', hx⟩ => ⟨e', by simp [he'], hx⟩
  unfold Intake.take at hs
  split at hs
  · cases hs
    refine ⟨h.sorted, fun x hx => hold x (h.live x hx), fun x hx => ?_, h.processed, ?_⟩
    · rcases mem_append.1 hx with hx | hx
      · exact hold x (h.pending x hx)
      · rw [mem_singleton.1 hx]
        exact ⟨e, by simp, Image.withFlags (Image.readImage c e _) _⟩
    · rw [map_append, sum_append, ← Nat.add_assoc, h.sizes]
      show s.offset + ((e.raw c).length + 0) = _
      rw [e.length_raw]
      rfl
  · obtain ⟨p, hp, hs⟩ := bind_eq_some_iff.1 hs
    cases hs
    refine ⟨?_, ?_, by simp, offset_accept hp, by simp⟩
    · exact foldlM_accept (I := BinlogEventsProcessor.Sorted) (fun _ hp => hp.doEvent _) h.sorted hp
    · refine foldlM_accept (I := fun p => ∀ x ∈ p.live, ∃ e' ∈ log ++ [e], Image c x e')
        (fun {p event} hevent hp x hx => ?_)
        (fun x hx => hold x (h.live x hx)) hp
      rcases mem_live_doEvent hx with hx | ⟨flags, rfl⟩
      · exact hp x hx
      · obtain ⟨e', he', himage⟩ : ∃ e' ∈ log ++ [e], Image c event e' := by
          rcases mem_append.1 hevent with hevent | hevent
          · exact hold event (h.pending event hevent)
          · rw [mem_singleton.1 hevent]
            exact ⟨e, by simp, Image.readImage c e _⟩
        exact ⟨e', he', Image.withFlags himage flags⟩

theorem Taken.run {es : List LogEvent} (h : Taken c log s) (hs : Intake.run c s es = some s') :
    Taken c (log ++ es) s' := by
  induction es generalizing log s with
  | nil => cases hs; rw [append_nil]; exact h
  | cons e es ih =>
    obtain ⟨s1, htake, hrun⟩ := run_cons hs
    have hrest := ih (h.take htake) hrun
    rwa [append_assoc] at hrest

theorem Taken.start (c : Crypto) (enc : Option Encryption) : Taken c [] (Intake.start enc) :=
  ⟨.nil, by simp [Intake.start, BinlogEventsProcessor.live], by simp [Intake.start], rfl, rfl⟩

end Intake

/-- In the middle of the loop, `es` of the events of `log` are left. -/
structure Loading (c : Crypto) (b₀ : Binlog) (enc : Option Encryption) (log es : List LogEvent) (offset : Nat)
    (b : Binlog) :
    Prop where
  core : b = { b₀ with
    processor := b.processor, pendingEvents := b.pendingEvents, fdSize := b.fdSize, fdEvents := b.fdEvents,
    input := b.input, aesCtrState := b.aesCtrState }
  flowEnd : b.flowEnd = b₀.flowEnd
  fed : ∃ fed s, log = fed ++ es ∧ Intake.run c (.start enc) fed = some s ∧ s.offset = offset ∧
    b.processor = s.processor ∧ b.pendingEvents = s.pending ∧ b.fdSize = s.fdSize

variable {b0 : Binlog} {es : List LogEvent} {offset : Nat} {p : BinlogEventsProcessor} {rest : List LogEvent}

theorem Loading.stable (h : Loading c b0 enc log es offset b)
    (hcore : SameCore b b1) : Loading c b0 enc log es offset b1 := by
  obtain ⟨fed, s, hfed, hrun, hoff, hproc, hpending, hsize⟩ := h.fed
  refine ⟨?_, hcore.flowEnd.trans h.flowEnd, fed, s, hfed, hrun, hoff, ?_, ?_, ?_⟩
  · rw [hcore.eq, h.core]
  · rw [hcore.eq]; exact hproc
  · rw [hcore.eq]; exact hpending
  · rw [hcore.eq]; exact hsize

theorem foldlM_doEvent_load {events : List BinlogEvent} (hstate : b.state = .load)
    (htypes : ∀ x ∈ events, x.type ≠ aesCtrEncryption)
    (h : events.foldlM Intake.accept b.processor = some p) :
    events.foldlM (fun b x => b.doEvent c x) b = .ok { b with
      processor := p, fdEvents := b.fdEvents + events.length
      fdSize := b.fdSize + ((events.map (·.rawEvent.length)).sum : Nat) } := by
  induction events generalizing b with
  | nil => cases h; simp
  | cons event events ih =>
    have hne : b.state ≠ .reindex := by rw [hstate]; simp
    rw [foldlM_cons, bind_eq_bind, bind_eq_some_iff] at h
    obtain ⟨p1, h1, h⟩ := h
    unfold Intake.accept at h1
    split at h1
    next hok =>
      cases h1
      have hevent : b.doEvent c event = .ok ({ b with processor := (b.processor.doEvent event).1 }.count event) := by
        unfold doEvent
        rw [writeEvent_load hstate, ok_bind, serviceEvent_eq (htypes event (by simp)), ok_bind]
        exact processEvent_ok hne (Prod.ext rfl hok)
      rw [foldlM_cons, hevent, ok_bind]
      have hrest := ih (b := { b with processor := (b.processor.doEvent event).1 }.count event) hstate
        (fun x hx => htypes x (by simp [hx])) h
      rw [hrest]
      simp only [count, length_cons, map_cons, sum_cons, Nat.cast_add, Outcome.ok.injEq, Binlog.mk.injEq,
        true_and, and_true]
      omega
    next => cases h1

theorem Loading.step (hlog : Intake.run c (.start enc) log = some s) (htypes : ∀ e ∈ log, e.type ≠ aesCtrEncryption)
    (hstate : b0.state = .load) (hw : b0.wrongPassword = false) (h : Loading c b0 enc log (e :: es) offset b) :
    ∃ b1, b.doAddEvent c (readImage c e (offset + e.size)) = .ok b1 ∧
      Loading c b0 enc log es (offset + e.size) b1 ∧ KeepsInput b b1 := by
  obtain ⟨fed, s0, hfed, hrun, rfl, hproc, hpending, hsize⟩ := h.fed
  have htaken : Intake.Taken c fed s0 := (Intake.Taken.start c enc).run hrun
  have hstate' : b.state = .load := by rw [h.core]; exact hstate
  have hw' : b.wrongPassword = false := by rw [h.core]; exact hw
  obtain ⟨s1, htake⟩ : ∃ s1, Intake.take c s0 e = some s1 := by
    rw [hfed, Intake.run_append, hrun, bind_some] at hlog
    obtain ⟨s1, htake, -⟩ := Intake.run_cons hlog
    exact ⟨s1, htake⟩
  have hrun1 : Intake.run c (.start enc) (fed ++ [e]) = some s1 := by
    rw [Intake.run_append, hrun, bind_some]
    unfold Intake.run
    rw [foldlM_cons, htake]
    rfl
  have hlog1 : log = fed ++ [e] ++ es := by rw [hfed, append_assoc]; rfl
  unfold Intake.take at htake
  unfold doAddEvent
  split at htake
  next hp =>
    cases htake
    rw [if_pos (by exact hp)]
    refine ⟨_, rfl, ⟨?_, h.flowEnd, _, _, hlog1, hrun1, rfl, hproc, ?_, hsize⟩, rfl, rfl, rfl, hw'⟩
    · rw [h.core]
    · rw [hpending]; rfl
  next hp =>
    obtain ⟨p, haccept, htake⟩ := bind_eq_some_iff.1 htake
    cases htake
    rw [if_neg (by exact hp), hpending]
    have hall : ∀ x ∈ s0.pending ++ [readImage c e (s0.offset + e.size)], x.type ≠ aesCtrEncryption := by
      intro x hx
      rcases mem_append.1 hx with hx | hx
      · obtain ⟨e', he', himage⟩ := htaken.pending x hx
        simp [himage.type, hfed, he', htypes]
      · rw [mem_singleton.1 hx]
        exact htypes e (by rw [hfed]; simp)
    rw [foldlM_append, bind_eq_bind, bind_eq_some_iff] at haccept
    obtain ⟨p1, haccept1, haccept2⟩ := haccept
    have h1 := foldlM_doEvent_load (c := c) (b := b) hstate' (fun x hx => hall x (by simp [hx])) (hproc ▸ haccept1)
    rw [h1, ok_bind]
    have h2 := foldlM_doEvent_load (c := c) (b := { b with
      pendingEvents := [], processor := p1, fdEvents := b.fdEvents + s0.pending.length
      fdSize := b.fdSize + ((s0.pending.map (·.rawEvent.length)).sum : Nat) }) hstate'
        (fun x hx => hall x (by simp [hx])) haccept2
    rw [← bind_ok (Binlog.doEvent _ _ _)]
    refine ⟨_, h2, ⟨?_, h.flowEnd, _, _, hlog1, hrun1, rfl, rfl, rfl, ?_⟩, rfl, rfl, rfl, hw'⟩
    · rw [h.core]
    · have hsizes := htaken.sizes
      show b.fdSize + _ + ((e.raw c).length + 0 : Nat) = ((s0.offset + e.size : Nat) : Int)
      rw [hsize, e.length_raw]
      omega

/-- **The loop of `load_binlog`** on a log takes its events, and leaves nothing
but a torn event unread. -/
theorem Opened.loadLoop {fuel : Nat}
    (hopen : Opened c b enc used (raws c log ++ tail) b0) (hlog : Intake.run c (.start enc) log = some s)
    (htypes : ∀ e ∈ log, e.type ≠ aesCtrEncryption) (hfits : Readable log) (hends : Ends c tail)
    (hfuel : 3 * log.length + 2 ≤ fuel) : ∃ b1, loadLoop c fuel b0 = .ok b1 ∧
      Loading c b0 enc log [] (headerLength enc + (raws c log).length) b1 ∧ b1.rest c = tail := by
  have hI : Loading c b0 enc log log b0.input.offset b0 :=
    ⟨rfl, rfl, [], .start enc, rfl, rfl, hopen.offset.symm, hopen.processor, hopen.pending, hopen.fdSize⟩
  obtain ⟨b1, hloop, h1, hrest⟩ := loadLoop_run (I := Loading c b0 enc log) Loading.stable
    (fun h => Loading.step hlog htypes hopen.state hopen.wrongPassword h) hfits hfuel hopen.idle hopen.rest hends hI
  rw [hopen.offset] at h1
  exact ⟨b1, hloop, h1, hrest⟩

/-! ## The end of `load_binlog` -/

/-- After `load_binlog` of a log whose finished groups are `log`. The first key
counts as used if it opened a log that ends there, and then the key stream goes
on where the log ends. -/
structure Loaded (c : Crypto) (b : Binlog) (enc : Option Encryption) (log : List LogEvent) (s : Intake) (b1 : Binlog) :
    Prop extends Keyed b enc b1 where
  state : b1.state = .run
  buffer : b1.buffer = []
  pending : b1.pendingEvents = s.pending
  path : b1.disk.path = some (encode c enc log)
  fdSize : b1.fdSize = (encode c enc log).length
  processor : b1.processor = s.processor
  used : b1.dbKeyUsed = true → ∃ e, enc = some e ∧ e.IsFor c b.dbKey ∧
    b1.aesCtrState = ⟨e.key, e.iv, (raws c log).length⟩

theorem aesCtrState_of_rest_nil (hflow : b.byteFlowFlag = true) (hrest : b.rest c = []) :
    b.aesCtrState = b.flowEnd := by
  unfold rest at hrest
  unfold flowEnd
  rw [if_pos hflow, append_eq_nil_iff] at hrest
  have hnil : (b.input.bufferReader ++ b.input.unread).length = 0 := by
    rw [← length_encrypt c b.aesCtrState, hrest.2]; rfl
  rw [if_pos hflow, hnil]
  rfl

theorem Loading.loaded (hopen : Opened c b enc used (raws c (log ++ rest) ++ tail) b0)
    (hopens : ∀ e, enc = some e → e.Opens c b.dbKey b.oldDbKey used)
    (hpath : b.disk.path = some (sealed c enc (raws c (log ++ rest) ++ tail)))
    (hlog : Intake.run c (.start enc) (log ++ rest) = some s)
    (hdone : s.fdSize = headerLength enc + (raws c log).length)
    (h : Loading c b0 enc (log ++ rest) [] offset b1) (hrest : b1.rest c = tail) :
    ∃ b2, b1.finishLoad = .ok (b2, s.processor.live) ∧ Loaded c b enc log s b2 := by
  obtain ⟨fed, s', hfed, hrun, -, hproc, hpending, hfdSize⟩ := h.fed
  rw [append_nil] at hfed
  rw [← hfed, hlog] at hrun
  cases hrun
  have htaken : Intake.Taken c (log ++ rest) s := (Intake.Taken.start c enc).run hlog
  rw [raws_append, append_assoc] at hpath hopen
  have hoff : b1.processor.offset = (headerLength enc + (raws c log).length : Nat) := by
    rw [hproc, htaken.processed, hdone]
  have hdisk : b1.disk = b.disk := by rw [h.core]; exact hopen.disk
  have hsize : (b1.disk.size : Int) = headerLength enc + (raws c log).length + (raws c rest ++ tail).length := by
    unfold Disk.size
    rw [hdisk, hpath, getD_some, length_sealed, length_append]
    omega
  have hlen : headerLength enc + (raws c log).length = (encode c enc log).length := by
    rw [encode, length_sealed]
  have hencode : sealed c enc (raws c log ++ (raws c rest ++ tail)) =
      encode c enc log ++ cipher c enc (raws c log).length (raws c rest ++ tail) := sealed_append c enc _ _
  -- The file is cut if there is more in it.
  let b2 : Binlog :=
    if b1.processor.offset ≠ b1.disk.size then
      { b1.file (.truncate b1.processor.offset.toNat) with dbKeyUsed := false } else b1
  have hfields : b2 = { b1 with disk := b2.disk, steps := b2.steps, dbKeyUsed := b2.dbKeyUsed } := by
    simp only [b2]
    split <;> rfl
  have hpath2 : b2.disk.path = some (encode c enc log) := by
    simp only [b2]
    split
    next hne =>
      show b1.disk.path.map _ = _
      rw [hdisk, hpath, map_some, hoff, Int.toNat_natCast, hlen, hencode, take_left]
    next heq =>
      have : raws c rest ++ tail = [] := eq_nil_of_length_eq_zero (by omega)
      rw [hdisk, hpath, hencode, this]
      cases enc <;> simp [cipher, xorStream]
  have hused2 : b2.dbKeyUsed = true → raws c rest ++ tail = [] ∧ b0.dbKeyUsed = true := by
    simp only [b2]
    split
    next => intro h; cases h
    next heq =>
      intro hu
      rw [h.core] at hu
      exact ⟨eq_nil_of_length_eq_zero (by omega), hu⟩
  refine ⟨{ b2 with state := .run, buffer := [], input := {} }.updateWriteEncryption, ?_, ?_⟩
  · unfold finishLoad
    dsimp only
    rw [check_true (by rw [hoff]; omega), ok_bind, hproc, htaken.sorted.forEach, ok_bind,
      ← hproc, check_true (by show b2.fdSize = _; rw [hfields, hoff, hfdSize, hdone])]
    rfl
  · have hkeyed : Keyed b enc b2 := by
      rw [hfields, h.core]
      exact { hopen.toKeyed with }
    refine ⟨{ hkeyed with byteFlowFlag := ?_ }, rfl, rfl, ?_, hpath2, ?_, ?_, ?_⟩
    · rw [hkeyed.encryptionType]
      cases enc <;> rfl
    · show b2.pendingEvents = _; rw [hfields]; exact hpending
    · show b2.fdSize = _; rw [hfields, ← hlen, ← hdone]; exact hfdSize
    · show b2.processor = _; rw [hfields]; exact hproc
    · intro hu
      obtain ⟨htail, hu⟩ := hused2 hu
      rw [hopen.dbKeyUsed, Bool.and_eq_true] at hu
      obtain ⟨hsome, hu⟩ := hu
      obtain ⟨e, rfl⟩ := isSome_iff_exists.1 hsome
      refine ⟨e, rfl, ?_, ?_⟩
      · have := hopens e rfl
        rw [hu] at this
        exact this
      · show b2.aesCtrState = _
        have hflow : b1.byteFlowFlag = true := by rw [h.core]; exact hopen.byteFlowFlag
        have hctr : ({ b1 with disk := b2.disk, steps := b2.steps, dbKeyUsed := b2.dbKeyUsed } : Binlog).aesCtrState =
            b1.aesCtrState := rfl
        rw [hfields, hctr, aesCtrState_of_rest_nil hflow (hrest.trans (append_eq_nil_iff.1 htail).2), h.flowEnd,
          hopen.flowEnd e rfl, htail, append_nil]

/-! ## `init` -/

theorem length_raws_ge (c : Crypto) (log : List LogEvent) : 32 * log.length ≤ (raws c log).length := by
  induction log with
  | nil => simp
  | cons e log ih =>
    have := e.size_ge
    rw [raws_cons, length_append, LogEvent.length_raw, length_cons]
    omega

theorem loadBinlog_spec (steps : List FileStep) (hpath : disk.path = some (sealed c enc (raws c (log ++ rest) ++ tail)))
    (hlog : Intake.run c (.start enc) (log ++ rest) = some s)
    (hdone : s.fdSize = headerLength enc + (raws c log).length)
    (htypes : ∀ e ∈ log ++ rest, e.type ≠ aesCtrEncryption)
    (hfits : Readable (log ++ rest)) (hends : Ends c tail) (hopens : OpenedBy c enc dbKey oldDbKey) :
    ∃ b1, (fresh disk steps dbKey oldDbKey).loadBinlog c = .ok (b1, s.processor.live) ∧
      Loaded c (fresh disk steps dbKey oldDbKey) enc log s b1 := by
  obtain ⟨used, hused⟩ := hopens
  have hlen := length_raws_ge c (log ++ rest)
  have hsize : (raws c (log ++ rest)).length ≤ disk.size := by
    unfold Disk.size
    rw [hpath, getD_some, length_sealed, length_append]
    omega
  obtain ⟨b0, k, hk, hloop0, hopen⟩ := loadLoop_opened steps hpath hused (disk.size + 5)
  obtain ⟨b1, hloop1, hload, hrest⟩ :=
    hopen.loadLoop hlog htypes hfits hends (show 3 * (log ++ rest).length + 2 ≤ k by omega)
  obtain ⟨b2, hfinish, h2⟩ := hload.loaded hopen hused hpath hlog hdone hrest
  have hw : b1.wrongPassword = false := by rw [hload.core]; exact hopen.wrongPassword
  refine ⟨b2, ?_, h2⟩
  unfold loadBinlog
  rw [show (fresh disk steps dbKey oldDbKey).disk.size + 8 = disk.size + 5 + 3 from rfl, hloop0, hloop1,
    ok_bind, if_neg (by rw [hw]; simp), hfinish]

/-- A log that needs no new key is as it should be. -/
theorem Loaded.keys (h : Loaded c b enc log s b1) (hno : b1.needRekey = false) :
    KeyState c b1 enc (raws c log).length := by
  unfold needRekey at hno
  rw [h.encryptionType, Bool.or_eq_false_iff] at hno
  obtain ⟨hno1, hno2⟩ := hno
  cases hused : b1.dbKeyUsed with
  | true =>
    obtain ⟨e, rfl, hfor, haes⟩ := h.used hused
    refine ⟨h.byteFlowFlag, h.encryptionType, h.length_key, by simp, ?_, h.keySalt, h.key, ?_⟩
    · rintro e' ⟨⟩; rw [h.dbKey]; exact hfor
    · rintro e' ⟨⟩; exact haes
  | false =>
    cases hempty : b1.dbKey.isEmpty with
    | false => rw [hempty, hused] at hno1; simp at hno1
    | true =>
      cases enc with
      | none =>
        exact ⟨h.byteFlowFlag, h.encryptionType, h.length_key, fun _ => hempty, by simp, by simp, by simp, by simp⟩
      | some e => rw [hempty] at hno2; simp at hno2

/-- The end of `init`: the log is as it was, or rewritten as its live events. -/
theorem Loaded.finishInit {live : List LogEvent} (h : Loaded c b enc log s b1)
    (hsorted : s.processor.Sorted) (hlive : List.Forall₂ (Image c) s.processor.live live)
    (htypes : ∀ e ∈ live, e.type ≠ aesCtrEncryption) :
    ∃ b2 enc' fl, b1.finishInit c r = .ok b2 ∧ Written c b2 enc' fl [] ∧ (fl = log ∨ fl = live) ∧
      SameRest { b1 with lastEventId := b1.processor.lastEventId } b2 := by
  unfold Binlog.finishInit
  rw [if_neg (by rw [h.wrongPassword]; simp)]
  dsimp only
  split
  next =>
    obtain ⟨b2, enc', ws, hok, h2⟩ := doReindex_spec (r := r)
      (b := { b1 with lastEventId := b1.processor.lastEventId, aesCtrKeySalt := [] }) h.state
      ⟨h.length_key, fun _ hne => absurd rfl hne⟩ (by show b1.disk.path ≠ none; rw [h.path]; simp)
      (by show b1.processor.forEach = _; rw [h.processor]; exact hsorted.forEach) hlive htypes
    have hrest := h2.rest
    exact ⟨b2, enc', live, hok, h2.toWritten, .inr rfl, hrest.processor, hrest.lastEventId, hrest.pendingEvents,
      hrest.dbKey, hrest.wrongPassword⟩
  next hno =>
    have hkeys := h.keys (Bool.eq_false_iff.2 hno)
    refine ⟨_, enc, log, rfl, ⟨h.state, h.fdNew, h.path, h.buffer, ?_, ?_⟩, .inl rfl, ⟨rfl, rfl, rfl, rfl, rfl⟩⟩
    · rw [append_nil]; exact h.fdSize
    · exact { hkeys with }

theorem openBinlog_fresh (disk : Disk) (dbKey oldDbKey : DbKey) :
    ∃ steps, (fresh disk [] dbKey oldDbKey).openBinlog = fresh disk.restored steps dbKey oldDbKey := by
  unfold openBinlog Disk.restored
  by_cases h : disk.path = none
  · rw [if_pos h, if_pos (by exact h)]
    exact ⟨[.renameNew, .create], rfl⟩
  · rw [if_neg h, if_neg (by exact h)]
    exact ⟨[.create], rfl⟩

/-- **`init`** on a log whose finished groups are `log`, torn at its end or not. -/
theorem init_taken {live : List LogEvent}
    (hpath : disk.restored.path = some (sealed c enc (raws c (log ++ rest) ++ tail)))
    (hlog : Intake.run c (.start enc) (log ++ rest) = some s)
    (hdone : s.fdSize = headerLength enc + (raws c log).length)
    (htypes : ∀ e ∈ log ++ rest, e.type ≠ aesCtrEncryption)
    (hfits : Readable (log ++ rest)) (hends : Ends c tail) (hopens : OpenedBy c enc dbKey oldDbKey)
    (hlive : List.Forall₂ (Image c) s.processor.live live) (hmem : ∀ e ∈ live, e ∈ log ++ rest) :
    ∃ b1 enc' fl, init c r disk dbKey oldDbKey = .ok (b1, s.processor.live) ∧ Written c b1 enc' fl [] ∧
      (fl = log ∨ fl = live) ∧ b1.processor = s.processor ∧ b1.pendingEvents = s.pending ∧ b1.dbKey = dbKey ∧
      b1.lastEventId = s.processor.lastEventId := by
  obtain ⟨steps, hfresh⟩ := openBinlog_fresh disk dbKey oldDbKey
  obtain ⟨b1, hload, h1⟩ := loadBinlog_spec steps hpath hlog hdone htypes hfits hends hopens
  obtain ⟨b2, enc', fl, hfinish, hwritten, hfl, hrest⟩ := h1.finishInit (r := r)
    ((Intake.Taken.start c enc).run hlog).sorted hlive (fun e he => htypes e (hmem e he))
  refine ⟨b2, enc', fl, ?_, hwritten, hfl, hrest.processor.trans h1.processor, hrest.pendingEvents.trans h1.pending,
    hrest.dbKey.trans h1.dbKey, hrest.lastEventId.trans (congrArg BinlogEventsProcessor.lastEventId h1.processor)⟩
  show (fresh disk [] dbKey oldDbKey).openBinlog.loadBinlog c >>= _ = _
  rw [hfresh, hload, ok_bind]
  dsimp only
  rw [hfinish]
  rfl

/-! ## Legal logs -/

theorem run_legal (hlog : LegalLog (log ++ es)) (hpending : s.pending = [])
    (hsize : s.fdSize = s.offset) (hholds : Holds c s.processor (liveEvents log) (bound 1 log)) :
    ∃ s', Intake.run c s es = some s' ∧ s'.pending = [] ∧ s'.fdSize = s.offset + (raws c es).length ∧
      Holds c s'.processor (liveEvents (log ++ es)) (bound 1 (log ++ es)) := by
  induction es generalizing log s with
  | nil => exact ⟨s, rfl, hpending, hsize, by rw [append_nil]; exact hholds⟩
  | cons e es ih =>
    have hfollows : KeyLog.Follows LogEvent.Ok (liveEvents log) (bound 1 log) e :=
      (KeyLog.legal_append.1 hlog).2.1
    have hwhole : hasFlag e.flags partialFlag = false := by
      rcases hfollows with he | he
      · exact he.2.2.notPartial
      · exact he.2.notPartial
    obtain ⟨p, hp, hholds', -⟩ := hholds.doEvent (b := readImage c e (s.offset + e.size)) hfollows
      ⟨rfl, rfl, rfl, rfl, rfl⟩ rfl
    have htake : Intake.take c s e = some ⟨p, [], s.offset + e.size, s.offset + e.size⟩ := by
      unfold Intake.take
      rw [hpending, hwhole]
      simp [Intake.accept, hp]
    rw [append_cons] at hlog
    obtain ⟨s', hrun, hpending', hsize', hholds''⟩ := ih (s := ⟨p, [], s.offset + e.size, s.offset + e.size⟩)
      hlog rfl rfl (by
        rw [bound_append]
        unfold liveEvents
        rw [replay_append]
        exact hholds')
    refine ⟨s', ?_, hpending', ?_, by rw [append_cons]; exact hholds''⟩
    · unfold Intake.run
      rw [foldlM_cons, htake]
      exact hrun
    · grind [raws_cons, length_append, LogEvent.length_raw]

theorem run_start (enc : Option Encryption) (hlog : LegalLog log) :
    ∃ s, Intake.run c (.start enc) log = some s ∧ s.pending = [] ∧ s.fdSize = headerLength enc + (raws c log).length ∧
      Holds c s.processor (liveEvents log) (bound 1 log) :=
  run_legal (show LegalLog ([] ++ log) from hlog) rfl rfl
    ⟨⟨.nil, by simp [Intake.start]⟩, by simp [BinlogEventsProcessor.Below, Intake.start], .nil, rfl⟩

theorem tracks_of_holds (hlog : LegalLog log)
    (hholds : Holds c p (liveEvents log) (bound 1 log)) (hproc : b.processor = p) : Tracks c b log := by
  have hlast : p.lastEventId + 1 = bound 1 log := hholds.last
  exact ⟨hlog, by rw [hproc, hlast]; exact hholds, by rw [hproc, hlast]⟩

/-- **Recovery.** `init` with a key for the log, torn or not, delivers its
live events, and the binlog goes on with them. -/
theorem init_spec (hpath : disk.restored.path = some (sealed c enc (raws c log ++ tail))) (hlog : LegalLog log)
    (hfits : Readable log) (hends : Ends c tail) (hopens : OpenedBy c enc dbKey oldDbKey) :
    ∃ b1 events enc' fl, init c r disk dbKey oldDbKey = .ok (b1, events) ∧ Running c b1 enc' fl [] ∧
      events.map (·.record) = (liveEvents log).map (·.record) ∧ Rewritten log fl ∧ b1.dbKey = dbKey ∧
      b1.lastEventId + 1 = bound 1 log ∧ b1.processor.lastEventId = b1.lastEventId := by
  obtain ⟨s, hrun, hpending, hsize, hholds⟩ := run_start (c := c) enc hlog
  obtain ⟨-, hrew, -⟩ := hlog.rewritten
  have hlast : s.processor.lastEventId + 1 = bound 1 log := hholds.last
  obtain ⟨b1, enc', fl, hinit, hwritten, hfl, hproc, hpend, hkey, hid⟩ := init_taken (r := r)
    (show _ = some (sealed c enc (raws c (log ++ []) ++ tail)) by rw [append_nil]; exact hpath)
    (by rw [append_nil]; exact hrun) hsize
    (by rw [append_nil]; exact hlog.type_ne) (by rw [append_nil]; exact hfits) hends hopens hholds.images
    (by rw [append_nil]; exact hrew.mem)
  have htracks := tracks_of_holds hlog hholds hproc
  have hrew' : Rewritten log fl := by
    rcases hfl with rfl | rfl
    · exact .refl _
    · exact hrew
  refine ⟨b1, _, enc', fl, hinit, ⟨hwritten, hpend.trans hpending, ?_⟩, records_eq hholds.images, hrew', hkey,
    by rw [hid, hlast], by rw [hproc, hid]⟩
  rw [append_nil]
  rcases hfl with rfl | rfl
  · exact htracks
  · exact htracks.compact

end Binlog

end Tdlib.Db
