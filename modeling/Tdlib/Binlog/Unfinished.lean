/-
Groups of events. An event with the flag `Partial` waits for the event that
ends its group. Of a log that ends in the middle of a group, `load_binlog` cuts
the group off, but the events of it go on waiting: they are lost for good only
as long as no event ends another group.
-/
import Tdlib.Binlog.History

namespace Tdlib.Db

open List Crypto

/-- The event is not the last one of its group. -/
def LogEvent.IsPartial (e : LogEvent) : Prop := hasFlag e.flags partialFlag = true

/-- A log of events that can be read and that the processor takes, with no
encryption event but the first one. -/
structure ValidLog (c : Crypto) (enc : Option Encryption) (log : List LogEvent) : Prop where
  taken : (Binlog.Intake.run c (.start enc) log).isSome = true
  type_ne : ∀ e ∈ log, e.type ≠ ServiceTypes.aesCtrEncryption
  readable : Readable log

/-- No group of the log is unfinished. -/
def Finished (log : List LogEvent) : Prop := ∀ e, log.getLast? = some e → ¬ e.IsPartial

namespace Binlog

variable {c : Crypto} {r : Entropy} {b b₀ b1 : Binlog} {enc : Option Encryption} {log es live : List LogEvent}
  {s s' : Intake}

/-! ## Unfinished groups -/

theorem Intake.run_offset (h : Intake.run c s es = some s') : s'.offset = s.offset + (raws c es).length := by
  induction es generalizing s with
  | nil => cases h; rfl
  | cons e es ih =>
    obtain ⟨s1, htake, hrun⟩ := run_cons h
    have hoff : s1.offset = s.offset + e.size := by
      unfold Intake.take at htake
      split at htake
      · cases htake; rfl
      · obtain ⟨p, -, htake⟩ := Option.bind_eq_some_iff.1 htake
        cases htake; rfl
    rw [ih hrun, hoff, raws_cons, length_append, e.length_raw, Nat.add_assoc]

theorem Intake.run_finished (hfinished : Finished log) (h : Intake.run c (.start enc) log = some s) :
    s.pending = [] ∧ s.fdSize = headerLength enc + (raws c log).length := by
  have hoff : s.offset = headerLength enc + (raws c log).length := run_offset h
  rcases eq_nil_or_concat log with rfl | ⟨log, e, rfl⟩
  · cases h; exact ⟨rfl, rfl⟩
  · rw [concat_eq_append] at h hfinished hoff ⊢
    rw [run_append, Option.bind_eq_some_iff] at h
    obtain ⟨s1, -, h⟩ := h
    obtain ⟨s2, htake, h⟩ := run_cons h
    cases h
    have hwhole : ¬ hasFlag e.flags partialFlag = true := hfinished e (by simp)
    unfold Intake.take at htake
    rw [if_neg hwhole] at htake
    obtain ⟨p, -, htake⟩ := Option.bind_eq_some_iff.1 htake
    cases htake
    exact ⟨rfl, hoff⟩

theorem Intake.run_waiting (hes : ∀ e ∈ es, e.IsPartial) :
    ∃ s', Intake.run c s es = some s' ∧ s'.processor = s.processor ∧ s'.fdSize = s.fdSize := by
  induction es generalizing s with
  | nil => exact ⟨s, rfl, rfl, rfl⟩
  | cons e es ih =>
    have htake : Intake.take c s e = some { s with
        pending := s.pending ++ [withheld (readImage c e (s.offset + e.size))], offset := s.offset + e.size } :=
      if_pos (hes e (by simp))
    obtain ⟨s', hrun, hproc, hsize⟩ := ih (s := { s with
      pending := s.pending ++ [withheld (readImage c e (s.offset + e.size))], offset := s.offset + e.size })
      fun x hx => hes x (by simp [hx])
    refine ⟨s', ?_, hproc, hsize⟩
    unfold Intake.run
    rw [foldlM_cons, htake]
    exact hrun

/-! ## After `init` -/

/-- The binlog has the processor `p`, and its file is the log `log` or the live
events of it. -/
structure Keeps (c : Crypto) (p : BinlogEventsProcessor) (log : List LogEvent) (b : Binlog) : Prop where
  processor : b.processor = p
  lastEventId : b.lastEventId = p.lastEventId
  written : ∃ enc fl, Written c b enc fl [] ∧ (fl = log ∨ List.Forall₂ (Image c) p.live fl)

/-- `add_event` of several events. A reindex draws new bytes. -/
def addEvents (c : Crypto) (b : Binlog) (events : List (BinlogEvent × Entropy)) : Outcome Binlog :=
  events.foldlM (fun b x => b.addEvent c x.2 x.1) b

section

variable {p : BinlogEventsProcessor} (h : Keeps c p log b) (hsorted : p.Sorted)
    (hlive : List.Forall₂ (Image c) p.live live) (htypes : ∀ e ∈ live, e.type ≠ ServiceTypes.aesCtrEncryption)

include h hsorted hlive htypes

theorem Keeps.addEvent {event : BinlogEvent}
    (hp : hasFlag event.flags partialFlag = true) (hsize : event.size % 4 = 0) :
    ∃ b1, b.addEvent c r event = .ok b1 ∧ Keeps c p log b1 := by
  obtain ⟨enc, fl, hwritten, hfl⟩ := h.written
  let b1 : Binlog := { b with pendingEvents := b.pendingEvents ++ [withheld event] }
  have hwritten1 : Written c b1 enc fl [] := { hwritten with keys := { hwritten.keys with } }
  have htake : b.takeEvent c event = .ok b1 := by
    unfold takeEvent doAddEvent
    rw [Outcome.check_true hsize, Outcome.ok_bind, if_pos hp]
    show Outcome.ok (lazyFlush c b1) = _
    unfold lazyFlush
    rw [hwritten1.buffer, if_neg (by simp [raws])]
  unfold Binlog.addEvent
  rw [htake, Outcome.ok_bind]
  unfold Binlog.autoReindex
  split
  · obtain ⟨b2, enc', ws, hok, h2⟩ := doReindex_spec (r := r) hwritten1.state hwritten1.keys.ready
      (by rw [hwritten1.path]; simp) (by show b.processor.forEach = _; rw [h.processor]; exact hsorted.forEach) hlive
      htypes
    exact ⟨b2, hok, h2.rest.processor.trans h.processor, h2.rest.lastEventId.trans h.lastEventId, enc', live,
      h2.toWritten, .inr hlive⟩
  · exact ⟨b1, rfl, h.processor, h.lastEventId, enc, fl, hwritten1, hfl⟩

theorem Keeps.addEvents {events : List (BinlogEvent × Entropy)}
    (hevents : ∀ x ∈ events, hasFlag x.1.flags partialFlag = true ∧ x.1.size % 4 = 0) :
    ∃ b1, b.addEvents c events = .ok b1 ∧ Keeps c p log b1 := by
  induction events generalizing b with
  | nil => exact ⟨b, rfl, h⟩
  | cons x events ih =>
    obtain ⟨hp, hsize⟩ := hevents x (by simp)
    obtain ⟨b1, hadd, h1⟩ := h.addEvent (r := x.2) hsorted hlive htypes hp hsize
    obtain ⟨b2, hrest, h2⟩ := ih h1 fun y hy => hevents y (by simp [hy])
    refine ⟨b2, ?_, h2⟩
    unfold Binlog.addEvents
    rw [foldlM_cons, hadd]
    exact hrest

end

theorem exists_images {events : List BinlogEvent} (h : ∀ x ∈ events, ∃ e ∈ log, Image c x e) :
    ∃ live, List.Forall₂ (Image c) events live ∧ ∀ e ∈ live, e ∈ log := by
  induction events with
  | nil => exact ⟨[], .nil, by simp⟩
  | cons x events ih =>
    obtain ⟨e, he, himage⟩ := h x (by simp)
    obtain ⟨live, hlive, hmem⟩ := ih fun y hy => h y (by simp [hy])
    refine ⟨e :: live, .cons himage hlive, fun y hy => ?_⟩
    rcases mem_cons.1 hy with rfl | hy
    · exact he
    · exact hmem y hy

/-- `init` on a log with an unfinished group, or with none. -/
theorem init_unfinished {unfinished : List LogEvent} {disk : Disk} {dbKey oldDbKey : DbKey}
    (hpath : disk.restored.path = some (encode c enc (log ++ unfinished))) (hvalid : ValidLog c enc (log ++ unfinished))
    (hfinished : Finished log) (hunfinished : ∀ e ∈ unfinished, e.IsPartial) (hopens : OpenedBy c enc dbKey oldDbKey)
    (hs : Intake.run c (.start enc) log = some s) :
    ∃ b, init c r disk dbKey oldDbKey = .ok (b, s.processor.live) ∧ Keeps c s.processor log b := by
  obtain ⟨-, hsize⟩ := Intake.run_finished hfinished hs
  obtain ⟨s', hrun, hproc, hsize'⟩ := Intake.run_waiting (c := c) (s := s) hunfinished
  have htaken : Intake.Taken c log s := (Intake.Taken.start c enc).run hs
  obtain ⟨live, hlive, hmem⟩ := exists_images htaken.live
  obtain ⟨b, enc', fl, hinit, hwritten, hfl, hproc', -, -, hlast⟩ := init_taken (r := r)
    (show _ = some (sealed c enc (raws c (log ++ unfinished) ++ [])) by rw [hpath, encode_eq])
    (show Intake.run c (.start enc) (log ++ unfinished) = some s' by rw [Intake.run_append, hs]; exact hrun)
    (hsize'.trans hsize) hvalid.type_ne hvalid.readable (.inl (Torn.nil c)) hopens (hproc ▸ hlive)
    (fun e he => by simp [hmem e he])
  rw [hproc] at hinit hproc' hlast
  refine ⟨b, hinit, hproc', hlast, enc', fl, hwritten, ?_⟩
  rcases hfl with rfl | rfl
  · exact .inl rfl
  · exact .inr hlive

theorem validLog_left (h : ValidLog c enc (log ++ es)) :
    ValidLog c enc log ∧ ∃ s, Intake.run c (.start enc) log = some s := by
  obtain ⟨s', hs'⟩ := Option.isSome_iff_exists.1 h.taken
  rw [Intake.run_append, Option.bind_eq_some_iff] at hs'
  obtain ⟨s, hs, -⟩ := hs'
  exact ⟨⟨by rw [hs]; rfl, fun e he => h.type_ne e (by simp [he]), fun e he => h.readable e (by simp [he])⟩, s, hs⟩

/-- **Unfinished groups.** `init` delivers of a log with an unfinished group
what it delivers of the log without it; and as long as all events that are
added wait for the end of their group, the binlog keeps the processor, and so
the live events and the next id, of the log without the group, and its file is
that log or its live events. -/
theorem unfinished_discarded {unfinished : List LogEvent} {disk : Disk} {dbKey oldDbKey : DbKey}
    (hpath : disk.restored.path = some (encode c enc (log ++ unfinished))) (hvalid : ValidLog c enc (log ++ unfinished))
    (hfinished : Finished log) (hunfinished : ∀ e ∈ unfinished, e.IsPartial) (hopens : OpenedBy c enc dbKey oldDbKey)
    (r : Entropy) : ∃ b₀ b events, init c r ⟨some (encode c enc log), none⟩ dbKey oldDbKey = .ok (b₀, events) ∧
      init c r disk dbKey oldDbKey = .ok (b, events) ∧
      ∀ added, (∀ x ∈ added, hasFlag x.1.flags partialFlag = true ∧ x.1.size % 4 = 0) →
        ∃ b1, b.addEvents c added = .ok b1 ∧ b1.processor = b₀.processor ∧ b1.lastEventId = b₀.lastEventId ∧
          ∃ enc' fl, (b1.close c).path = some (encode c enc' fl) ∧
            (fl = log ∨ List.Forall₂ (Image c) b₀.processor.live fl) := by
  obtain ⟨hvalid₀, s, hs⟩ := validLog_left hvalid
  have htaken : Intake.Taken c log s := (Intake.Taken.start c enc).run hs
  obtain ⟨live, hlive, hmem⟩ := exists_images htaken.live
  obtain ⟨b₀, hinit₀, hkeeps₀⟩ := init_unfinished (r := r)
    (show (Disk.mk (some (encode c enc log)) none).restored.path = some (encode c enc (log ++ [])) by
      rw [append_nil]; rfl)
    (by rw [append_nil]; exact hvalid₀) hfinished (by simp) hopens hs
  obtain ⟨b, hinit, hkeeps⟩ := init_unfinished (r := r) hpath hvalid hfinished hunfinished hopens hs
  refine ⟨b₀, b, _, hinit₀, hinit, fun added hadded => ?_⟩
  obtain ⟨b1, hadd, h₁⟩ := hkeeps.addEvents htaken.sorted hlive (fun e he => hvalid₀.type_ne e (hmem e he)) hadded
  obtain ⟨enc', fl, hwritten, hfl⟩ := h₁.written
  refine ⟨b1, hadd, h₁.processor.trans hkeeps₀.processor.symm, ?_, enc', fl, ?_, ?_⟩
  · rw [h₁.lastEventId, hkeeps₀.lastEventId]
  · have := hwritten.flush.1.path
    rwa [append_nil] at this
  · rw [hkeeps₀.processor]
    exact hfl

theorem sampleContent_writable : sampleContent.Writable := by unfold Content.Writable; decide

def flagged (id : Fin (2 ^ 32)) (flags : Fin (2 ^ 2)) : LogEvent :=
  { sampleContent.event id 0 sampleContent_writable (by omega) Nat.zero_lt_two with flags, flags_lt := by omega }

/-- An event, and one of a group that is not finished. -/
def sampleEvent : LogEvent := flagged 1 0

def sampleUnfinished : LogEvent := flagged 2 2

def sampleFile : Disk := ⟨some (encode keyless none [sampleEvent, sampleUnfinished]), none⟩

theorem sampleFile_valid : ValidLog keyless none [sampleEvent, sampleUnfinished] :=
  ⟨by decide +kernel, by decide, by unfold Readable LogEvent.Fits; decide⟩

theorem unfinished_discarded_sample :
    ValidLog keyless none [sampleEvent, sampleUnfinished] ∧ sampleUnfinished.IsPartial ∧
    ∃ b₀ b events,
      init keyless sampleEntropy ⟨some (encode keyless none [sampleEvent]), none⟩ .empty .empty =
        .ok (b₀, events) ∧
      init keyless sampleEntropy sampleFile .empty .empty = .ok (b, events) := by
  obtain ⟨b₀, b, events, h₀, h, -⟩ := unfinished_discarded (c := keyless)
    (show sampleFile.restored.path = some (encode keyless none ([sampleEvent] ++ [sampleUnfinished])) from rfl)
    sampleFile_valid (fun e he => by cases he; unfold LogEvent.IsPartial; decide)
    (fun e he => by rw [mem_singleton.1 he]; rfl) (.none _ _ _) sampleEntropy
  exact ⟨sampleFile_valid, rfl, b₀, b, events, h₀, h⟩

/-! ## The group comes back -/

/-- The log with the unfinished group, and the one without it, opened. -/
def sampleCut : Binlog := ((init keyless sampleEntropy sampleFile .empty .empty).get (by decide +kernel)).1

def sampleWhole : Binlog :=
  ((init keyless sampleEntropy ⟨some (encode keyless none [sampleEvent]), none⟩ .empty .empty).get
    (by decide +kernel)).1

/-- Adding an event with the next id aborts the process, since the event of the
group that was cut off has the same id; and adding one with a larger id brings
that event back. -/
theorem unfinished_returns : ValidLog keyless none [sampleEvent, sampleUnfinished] ∧ Finished [sampleEvent] ∧
    sampleUnfinished.IsPartial ∧
    init keyless sampleEntropy sampleFile .empty .empty =
        .ok (sampleCut, [readImage keyless sampleEvent 36]) ∧
    sampleCut.disk.path = some (encode keyless none [sampleEvent]) ∧
    (sampleWhole.add keyless sampleEntropy 1 []).isOk = true ∧
    sampleCut.add keyless sampleEntropy 1 [] = .fatal ∧
    (sampleWhole.addCreated keyless sampleEntropy 3 1 0 [] >>= fun b => pure (b.processor.live.map (·.id))) =
      .ok [1, 3] ∧
    (sampleCut.addCreated keyless sampleEntropy 3 1 0 [] >>= fun b => pure (b.processor.live.map (·.id))) =
      .ok [1, 2, 3] := by
  refine ⟨sampleFile_valid, fun e he => by cases he; unfold LogEvent.IsPartial; decide, rfl, ?_, ?_, ?_, ?_, ?_, ?_⟩ <;>
    decide +kernel

end Binlog

end Tdlib.Db
