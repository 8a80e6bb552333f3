/-
Logs as lists of events: which events may follow which, what a log of them
denotes, and the bytes it is in a file. A `BinlogEventsProcessor` holds the
live events of the log it was fed with.
-/
import Tdlib.Binlog.ProcessorFacts
import Tdlib.Lib.KeyLog
import Mathlib.Data.List.Forall2

namespace Tdlib.Db

open KeyLog List KeyLog.Entry ServiceTypes BinlogEventsProcessor

instance : KeyLog.Entry LogEvent where
  key := LogEvent.id
  erases e := e.type = empty

@[simp] theorem key_def (e : LogEvent) : key e = e.id := rfl
@[simp] theorem erases_def (e : LogEvent) : erases e = decide (e.type = empty) := rfl

theorem erases_eq_false {e : LogEvent} (h : 0 ≤ e.type) : erases e = false := by
  rw [erases_def, decide_eq_false_iff_not, empty]
  omega

namespace LogEvent

/-- The events a log consists of: none is `Partial`, ids can be doubled in 64
bits, and an event of an id that is live is a rewrite or an erasure. -/
def Ok (isLive : Bool) (e : LogEvent) : Prop :=
  hasFlag e.flags partialFlag = false ∧ e.id < 2 ^ 63 ∧
    if isLive then hasFlag e.flags rewriteFlag = true ∧ (0 ≤ e.type ∨ e.type = empty) else 0 ≤ e.type

theorem Ok.of_live {e : LogEvent} (h : e.Ok true) (he : erases e = false) : e.Ok false := by
  obtain ⟨h1, h2, -, h3 | h3⟩ := h
  · exact ⟨h1, h2, h3⟩
  · simp [h3] at he

theorem Ok.notPartial {isLive : Bool} {e : LogEvent} (h : e.Ok isLive) : hasFlag e.flags partialFlag = false := h.1

theorem Ok.type_ne {isLive : Bool} {e : LogEvent} (h : e.Ok isLive) : e.type ≠ aesCtrEncryption := by
  obtain ⟨-, -, h⟩ := h
  intro ht
  rw [ht] at h
  cases isLive <;> simp [aesCtrEncryption, empty] at h

end LogEvent

/-- The event that erases an id. -/
def erasure (id : Nat) (hid : id < 2 ^ 63) : LogEvent where
  id
  type := empty
  flags := rewriteFlag
  extra := 0
  data := []
  id_lt := by omega
  type_ge := by decide
  type_lt := by decide
  flags_lt := by decide
  extra_lt := LogEvent.zero_lt
  aligned := rfl
  small := by decide

theorem erasure_ok {id : Nat} (hid : id < 2 ^ 63) : (erasure id hid).Ok true :=
  ⟨show hasFlag rewriteFlag partialFlag = false by decide, hid,
    show hasFlag rewriteFlag rewriteFlag = true by decide, .inr rfl⟩

/-- A log from the start, of events with ids from 1 on. -/
abbrev LegalLog (log : List LogEvent) : Prop := KeyLog.Legal LogEvent.Ok [] 1 log

/-- The live events of a log, in id order. -/
abbrev liveEvents (log : List LogEvent) : List LogEvent := replay [] log

/-- No event of the log is too big for the reader. -/
def Readable (log : List LogEvent) : Prop := ∀ e ∈ log, e.Fits

theorem Readable.take {log : List LogEvent} (h : Readable log) (k : Nat) : Readable (log.take k) :=
  fun e he => h e (mem_of_mem_take he)

/-! ## In a file -/

section Bytes

variable (c : Crypto)

/-- The bytes of a log that is not encrypted. -/
def raws (log : List LogEvent) : Bytes := log.flatMap (LogEvent.raw c)

@[simp] theorem raws_nil : raws c [] = [] := rfl
@[simp] theorem raws_cons (e : LogEvent) (log : List LogEvent) : raws c (e :: log) = e.raw c ++ raws c log := rfl

@[simp] theorem raws_append (as bs : List LogEvent) : raws c (as ++ bs) = raws c as ++ raws c bs :=
  flatMap_append

/-- The number of events that lie completely inside the first `n` bytes. -/
def complete : List LogEvent → Nat → Nat
  | [], _ => 0
  | e :: log, n => if e.size ≤ n then complete log (n - e.size) + 1 else 0

/-- What a write that was cut short leaves of an event. -/
def Torn (tail : Bytes) : Prop := ∃ e : LogEvent, ∃ m, e.Fits ∧ m < e.size ∧ tail = (e.raw c).take m

theorem Torn.nil : Torn c [] :=
  ⟨⟨0, 0, 0, 0, [], by decide, by decide, by decide, by decide, by decide, by decide, by decide⟩, 0,
    by unfold LogEvent.Fits; decide, by decide, rfl⟩

/-- What the reader refuses for its size. -/
def TooBig (tail : Bytes) : Prop := 4 ≤ tail.length ∧ maxSize < leNat (tail.take 4)

theorem tooBig_raw {e : LogEvent} (he : ¬ e.Fits) (rest : Bytes) : TooBig (e.raw c ++ rest) := by
  have := e.size_ge
  refine ⟨by simp; omega, ?_⟩
  rw [e.leNat_size]
  exact Nat.lt_of_not_le he

/-- What the reader stops at. -/
def Ends (tail : Bytes) : Prop := Torn c tail ∨ TooBig tail

theorem ends_of_big {log : List LogEvent} (h : ∀ e ∈ log, ¬ e.Fits) : Ends c (raws c log) := by
  cases log with
  | nil => exact .inl (.nil c)
  | cons e log => exact .inr (tooBig_raw c (h e (by simp)) _)

theorem take_raws {log : List LogEvent} (hfits : Readable log) (n : Nat) :
    ∃ tail, (raws c log).take n = raws c (log.take (complete log n)) ++ tail ∧ Torn c tail := by
  induction log generalizing n with
  | nil => exact ⟨[], by simp, .nil c⟩
  | cons e log ih =>
    unfold complete
    split
    next h =>
      obtain ⟨tail, htail, hT⟩ := ih (fun x hx => hfits x (by simp [hx])) (n - e.size)
      refine ⟨tail, ?_, hT⟩
      simp [raws_cons, take_append, take_of_length_le, LogEvent.length_raw, htail, h]
    next h =>
      refine ⟨(e.raw c).take n, ?_, e, n, hfits e (by simp), by omega, rfl⟩
      rw [raws_cons, take_append_of_le_length (by simp; omega)]
      simp

end Bytes

/-! ## In the processor -/

/-- The event in memory that was made of `e`: its flags may have changed. -/
structure Image (c : Crypto) (b : BinlogEvent) (e : LogEvent) : Prop where
  rawEvent : b.rawEvent = e.raw c
  size : b.size = e.size
  id : b.id = e.id
  type : b.type = e.type
  crc32 : b.crc32 = e.crc c

variable {c : Crypto} {b : BinlogEvent} {e : LogEvent}

theorem Image.event (c : Crypto) (e : LogEvent) : Image c (e.event c) e := ⟨rfl, rfl, rfl, rfl, rfl⟩

theorem Image.record (h : Image c b e) : b.record = e.record := by
  simp [BinlogEvent.record, LogEvent.record, h.id, h.type, e.getData_raw c h.rawEvent]

theorem Image.validate (h : Image c b e) : b.validate c = true := e.validate_raw c h.rawEvent h.size h.crc32

/-- The processor's live events are `live`, and ids from `n` on are new. -/
structure Holds (c : Crypto) (p : BinlogEventsProcessor) (live : List LogEvent) (n : Nat) : Prop where
  wf : p.WF
  below : p.Below n
  images : List.Forall₂ (Image c) p.live live
  last : p.lastEventId + 1 = n

section

variable {bs : List BinlogEvent} {live : List LogEvent} (h : List.Forall₂ (Image c) bs live)

include h

theorem ids_eq : bs.map (·.id) = live.map key := by
  induction h with
  | nil => rfl
  | cons h _ ih => rw [map_cons, map_cons, ih, h.id, key_def]

theorem records_eq : bs.map (·.record) = live.map (·.record) := by
  induction h with
  | nil => rfl
  | cons h _ ih => rw [map_cons, map_cons, ih, h.record]

end

variable {p : BinlogEventsProcessor} {live : List LogEvent} {n : Nat}

theorem Holds.ordered (h : Holds c p live n) : KeyLog.Ordered n live := by
  refine ⟨ids_eq h.images ▸ h.wf.live_sorted, fun x hx => ?_⟩
  have hid : x.id ∈ p.live.map (·.id) := by
    rw [ids_eq h.images]; exact mem_map.2 ⟨x, hx, rfl⟩
  obtain ⟨l, s, r, hsplit, -, -, hs, -⟩ := split_live h.wf hid
  have := h.below s (by rw [hsplit]; simp)
  simp only [key_def]; omega

theorem images_replace {bs : List BinlogEvent} (h : List.Forall₂ (Image c) bs live) {b' : BinlogEvent}
    (hb : Image c b' e) :
    List.Forall₂ (Image c) (bs.map fun x => if x.id = e.id then b' else x)
      (live.map fun x => if key x = key e then e else x) := by
  induction h with
  | nil => exact .nil
  | cons h _ ih =>
    rw [map_cons, map_cons]
    refine .cons ?_ ih
    rw [h.id, key_def, key_def]
    split
    next => exact hb
    next => exact h

theorem images_filter {bs : List BinlogEvent} (h : List.Forall₂ (Image c) bs live) (id : Nat) :
    List.Forall₂ (Image c) (bs.filter fun x => x.id ≠ id) (live.filter fun x => key x ≠ id) := by
  induction h with
  | nil => exact .nil
  | @cons a e _ _ h _ ih =>
    rw [filter_cons, filter_cons, h.id, key_def]
    split
    next => exact .cons h ih
    next => exact ih

/-- **One event**: the processor takes every event that may follow, and then
holds what the longer log denotes. -/
theorem Holds.doEvent (h : Holds c p live n) (he : KeyLog.Follows LogEvent.Ok live n e) (hb : Image c b e)
    (hf : hasFlag b.flags rewriteFlag = hasFlag e.flags rewriteFlag) :
    ∃ p', p.doEvent b = (p', true) ∧ Holds c p' (put live e) (KeyLog.next n e) ∧ p'.offset = b.offset := by
  by_cases hmem : e.id ∈ live.map key
  · -- The id is live: the event replaces the one it has or removes it.
    have hbid : b.id ∈ p.live.map (·.id) := by rw [ids_eq h.images, hb.id]; exact hmem
    have hlt : e.id < n := by
      obtain ⟨x, hx, hk⟩ := mem_map.1 hmem
      rw [← hk]; exact h.ordered.below x hx
    have hnext : KeyLog.next n e = n := by simp only [KeyLog.next, key_def]; omega
    have hok : e.Ok true := by
      rcases he with he | he
      · have := he.1; simp only [key_def] at this; omega
      · exact he.2
    obtain ⟨-, hid, hflag, htype⟩ := hok
    rw [hnext]
    by_cases hempty : e.type = empty
    · obtain ⟨p', hp, hwf, hbelow, hlive, hlast, hoff⟩ :=
        doEvent_erase h.wf h.below (hf.trans hflag) hbid (hb.id ▸ hid) (hb.type ▸ hempty)
      refine ⟨p', hp, ⟨hwf, hbelow, ?_, by rw [hlast]; exact h.last⟩, hoff⟩
      rw [hlive, put_of_erases (by simp [hempty]), hb.id]
      exact images_filter h.images e.id
    · obtain ⟨p', hp, hwf, hbelow, hlive, hlast, hoff⟩ :=
        doEvent_rewrite h.wf h.below (hf.trans hflag) hbid (hb.id ▸ hid) (hb.type ▸ hempty)
      refine ⟨p', hp, ⟨hwf, hbelow, ?_, by rw [hlast]; exact h.last⟩, hoff⟩
      rw [hlive, put_of_mem (by simp [hempty]) hmem, hb.id]
      exact images_replace h.images ⟨hb.rawEvent, hb.size, rfl, hb.type, hb.crc32⟩
  · -- The id is new.
    obtain ⟨hn, herase, -, hid, htype⟩ := he.resolve_right fun h => hmem h.1
    obtain ⟨p', hp, hwf, hbelow, hlive, hlast, hoff⟩ :=
      doEvent_add (e := b) h.wf h.below (hb.id ▸ hn) (hb.id ▸ hid) (hb.type ▸ htype)
    have hnext : KeyLog.next n e = e.id + 1 := by simp only [KeyLog.next, key_def] at hn ⊢; omega
    rw [hnext, put_of_new herase hmem]
    refine ⟨p', hp, ⟨hwf, hb.id ▸ hbelow, ?_, by rw [hlast, hb.id]⟩, hoff⟩
    rw [hlive]
    exact rel_append h.images (.cons hb .nil)

end Tdlib.Db
