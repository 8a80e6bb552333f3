/-
What the operations of a `TQueue` can do to a queue: a `Change` is one step,
with at most one call of the storage apart from the removal of a last event
without data. Every operation is a sequence of changes, keeps the invariant,
and does not abort.
-/
import Tdlib.TQueue.Valid

namespace Tdlib.Db.TQueue

open List

variable {σ : Type} {S : StorageCallback σ} {adds : EventId × Work σ → RawEvent → Prop} {queueId : Int}
  {tailId tailId' fromId : EventId} {event : RawEvent} {events events' : List RawEvent} {total : Nat}
  {callback : Option σ} {work work' : Work σ}
  {q : Queue} {t t' : TQueue σ}

/-! ## Changes of a queue -/

/-- What the loop of `push` can do to a queue. -/
inductive Prepared (S : StorageCallback σ) (queueId : Int) : EventId × Work σ → EventId × Work σ → Prop
  | ready {tailId : EventId} {work : Work σ} : Prepared S queueId (tailId, work) (tailId, work)
  | first {tailId tailId' : EventId} {work : Work σ} : tailId.value = 0 →
    Prepared S queueId (tailId, work) (tailId', work)
  | wrapped {tailId tailId' : EventId} {work work' : Work σ} : tailId.next = none → Pops S queueId .zero work work' →
    work'.events = [] → Prepared S queueId (tailId, work) (tailId', work')

/-- The event with the id the storage gives it, and the storage. -/
def stored (S : StorageCallback σ) (queueId : Int) (event : RawEvent) (callback : Option σ) : RawEvent × Option σ :=
  if event.logEventId = 0 then
    match callback with
    | none => (event, none)
    | some s => ({ event with logEventId := (S.push queueId event s).1 }, some (S.push queueId event s).2)
  else (event, callback)

/-- `do_push` can add the event. -/
structure Accepted (tailId : EventId) (work : Work σ) (event : RawEvent) (tailId' : EventId) : Prop where
  positive : 0 < event.key
  next : event.eventId.next = some tailId'
  le : tailId.value ≤ event.key
  expires : 0 < event.expiresAt
  length_le : event.data.length ≤ maxEventLength
  count : work.events.length < maxQueueEvents
  total_le : work.totalEventLength + event.data.length ≤ maxTotalEventLength

/-- What becomes of a queue to which `do_push` adds an event. -/
def appended (S : StorageCallback σ) (queueId : Int) (event : RawEvent) (work : Work σ) : Work σ :=
  let dropped := dropEmptyLast S work.events work.callback
  let pushed := stored S queueId event dropped.2
  ⟨dropped.1 ++ [pushed.1], work.totalEventLength + event.data.length, pushed.2⟩

/-- One step of an operation. An added event is one that `adds` allows, from
the queue as it is. -/
inductive Change (S : StorageCallback σ) (adds : EventId × Work σ → RawEvent → Prop) (queueId : Int) :
    EventId × Work σ → EventId × Work σ → Prop
  | pop {tailId : EventId} {work work' : Work σ} : PopStep S queueId tailId work work' →
    Change S adds queueId (tailId, work) (tailId, work')
  | clearLast {tailId : EventId} {pre : List RawEvent} {event : RawEvent} {total : Nat} {s : σ} :
    event.logEventId ≠ 0 → event.data ≠ [] →
    Change S adds queueId (tailId, ⟨pre ++ [event], total, some s⟩)
      (tailId, ⟨pre ++ [{ event with data := [] }], sizeSub total event.data.length,
        some (S.push queueId { event with data := [] } s).2⟩)
  | delete {tailId : EventId} {deleted rest : List RawEvent} {total : Nat} {callback : Option σ} :
    (∀ s, callback = some s → rest = [] → ∃ e ∈ deleted, e.logEventId = 0) →
    Change S adds queueId (tailId, ⟨deleted ++ rest, total, callback⟩)
      (tailId, ⟨rest, dataLength rest,
        callback.map fun s => S.popBatch ((deleted.map (·.logEventId)).filter (· ≠ 0)) s⟩)
  | append {start : EventId × Work σ} {tailId tailId' : EventId} {work : Work σ} {event : RawEvent} :
    Prepared S queueId start (tailId, work) → queueId ≠ 0 → adds start event →
    Accepted tailId work event tailId' →
    Change S adds queueId start (tailId', appended S queueId event work)

def Changes (S : StorageCallback σ) (adds : EventId × Work σ → RawEvent → Prop) (queueId : Int) :
    EventId × Work σ → EventId × Work σ → Prop :=
  Relation.ReflTransGen (Change S adds queueId)

variable {start stop : EventId × Work σ}

theorem Change.mono {adds' : EventId × Work σ → RawEvent → Prop}
    (h : Change S adds queueId start stop) (hle : ∀ start event, adds start event → adds' start event) :
    Change S adds' queueId start stop := by
  cases h with
  | pop hstep => exact .pop hstep
  | clearLast hlog hdata => exact .clearLast hlog hdata
  | delete hlast => exact .delete hlast
  | append hprep hid hadds hacc => exact .append hprep hid (hle _ _ hadds) hacc

theorem Pops.changes (h : Pops S queueId tailId work work') :
    Changes S adds queueId (tailId, work) (tailId, work') := by
  induction h with
  | refl => exact .refl
  | tail _ hstep ih => exact ih.tail (.pop hstep)

/-! ## The events stay valid -/

theorem dropEmptyLast_eq (events : List RawEvent) (callback : Option σ) :
    (∃ pre event, events = pre ++ [event] ∧ event.data = [] ∧ dropEmptyLast S events callback =
      (pre, callback.map fun s => if event.logEventId ≠ 0 then S.pop event.logEventId s else s)) ∨
    ((∀ event ∈ events.getLast?, event.data ≠ []) ∧ dropEmptyLast S events callback = (events, callback)) := by
  unfold dropEmptyLast
  cases hlast : events.getLast? with
  | none => exact .inr ⟨by simp, rfl⟩
  | some event =>
    obtain ⟨pre, hpre⟩ := List.getLast?_eq_some_iff.1 hlast
    dsimp only
    split
    next hdata => exact .inl ⟨pre, event, hpre, hdata, by rw [hpre, dropLast_concat]⟩
    next hdata =>
      refine .inr ⟨fun e he => ?_, rfl⟩
      cases he
      exact hdata

theorem dropEmptyLast_of_filled (h : ∀ e ∈ events.getLast?, e.data ≠ []) :
    dropEmptyLast S events callback = (events, callback) := by
  rcases dropEmptyLast_eq (S := S) events callback with ⟨pre, e, rfl, hdata, -⟩ | ⟨-, heq⟩
  · exact absurd hdata (h e (by simp))
  · exact heq

/-- Once a last event without data is out, all events have data. -/
theorem EventsValid.dropEmptyLast (h : EventsValid tailId events total) (callback : Option σ) :
    EventsValid tailId (dropEmptyLast S events callback).1 total ∧
      (∀ e ∈ (TQueue.dropEmptyLast S events callback).1, e.data ≠ []) ∧
      ((TQueue.dropEmptyLast S events callback).1).Sublist events := by
  rcases dropEmptyLast_eq (S := S) events callback with ⟨pre, event, rfl, hdata, heq⟩ | ⟨hlast, heq⟩
  · rw [heq]
    have hcross := (pairwise_append.1 h.filled).2.2
    refine ⟨?_, fun e he => hcross e he event (by simp), sublist_append_left _ _⟩
    have hsub := h.of_sublist (sublist_append_left pre [event])
    rwa [show total = dataLength pre by rw [h.total_eq, dataLength_append, dataLength_cons, hdata]; rfl]
  · rw [heq]
    refine ⟨h, fun e he => ?_, List.Sublist.refl _⟩
    rcases eq_nil_or_concat' events with rfl | ⟨pre, last, rfl⟩
    · cases he
    · rcases mem_append.1 he with he | he
      · exact (pairwise_append.1 h.filled).2.2 e he last (by simp)
      · simp [mem_singleton.1 he, hlast]

theorem stored_fields (queueId : Int) (event : RawEvent) (callback : Option σ) :
    (stored S queueId event callback).1.eventId = event.eventId ∧
      (stored S queueId event callback).1.data = event.data ∧
      (stored S queueId event callback).1.expiresAt = event.expiresAt := by
  unfold stored
  split
  · cases callback <;> exact ⟨rfl, rfl, rfl⟩
  · exact ⟨rfl, rfl, rfl⟩

theorem Accepted.key_lt (h : Accepted tailId work event tailId') : event.key < tailId'.value := by
  have := EventId.next_eq_some.1 h.next
  unfold RawEvent.key
  omega

theorem EventsValid.concat (h : EventsValid tailId events total) (hfilled : ∀ e ∈ events, e.data ≠ [])
    (hle : tailId.value ≤ event.key) (hpos : 0 < event.key) (hlt : event.key < tailId'.value)
    (hexpires : 0 < event.expiresAt) (hsmall : event.data.length ≤ maxEventLength)
    (hcount : events.length < maxQueueEvents) (htotal : total + event.data.length ≤ maxTotalEventLength) :
    EventsValid tailId' (events ++ [event]) (total + event.data.length) := by
  have hbelow : ∀ e ∈ events, e.key < event.key := fun e he => Nat.lt_of_lt_of_le (h.below e he) hle
  have hall : ∀ {p : RawEvent → Prop}, (∀ e ∈ events, p e) → p event → ∀ e ∈ events ++ [event], p e := by
    intro p hold hnew e he
    rcases mem_append.1 he with he | he
    · exact hold e he
    · rw [mem_singleton.1 he]; exact hnew
  refine ⟨h.sorted.append_of_lt hbelow, hall h.positive hpos, hall (fun e he => Nat.lt_trans (hbelow e he) hlt) hlt,
    ?_, hall h.expires hexpires, hall h.small hsmall, ?_, htotal, ?_⟩
  · exact pairwise_append.2 ⟨h.filled, pairwise_singleton _ _, fun e he _ _ => hfilled e he⟩
  · rw [dataLength_append, dataLength_cons, ← h.total_eq]
    rfl
  · simp only [length_append, length_singleton]
    omega

theorem Accepted.eventsValid (hacc : Accepted tailId work event tailId')
    (h : EventsValid tailId work.events work.totalEventLength) :
    EventsValid tailId' (appended S queueId event work).events (appended S queueId event work).totalEventLength := by
  obtain ⟨hvalid, hfilled, hsub⟩ := h.dropEmptyLast (S := S) work.callback
  obtain ⟨hid, hdata, hexpires⟩ := stored_fields (S := S) queueId event
    (TQueue.dropEmptyLast S work.events work.callback).2
  have hkey : (stored S queueId event (TQueue.dropEmptyLast S work.events work.callback).2).1.key = event.key :=
    congrArg EventId.value hid
  unfold TQueue.appended
  rw [← hdata]
  refine hvalid.concat hfilled ?_ ?_ ?_ ?_ (by rw [hdata]; exact hacc.length_le)
    (Nat.lt_of_le_of_lt hsub.length_le hacc.count) ?_
  · rw [hkey]; exact hacc.le
  · rw [hkey]; exact hacc.positive
  · rw [hkey]; exact hacc.key_lt
  · rw [hexpires]; exact hacc.expires
  · rw [hdata]; exact hacc.total_le

theorem Prepared.eventsValid (hprep : Prepared S queueId start stop)
    (h : EventsValid start.1 start.2.events start.2.totalEventLength) :
    EventsValid stop.1 stop.2.events stop.2.totalEventLength := by
  -- A queue without an id to give has no events.
  have hnil : ∀ {tailId tailId' : EventId} {work : Work σ}, EventsValid tailId work.events work.totalEventLength →
      work.events = [] → EventsValid tailId' work.events work.totalEventLength := by
    intro tailId tailId' work hvalid hevents
    have htotal := hvalid.total_eq
    rw [hevents] at htotal ⊢
    rw [htotal]
    exact .nil _
  cases hprep with
  | ready => exact h
  | @first tailId tailId' work hzero =>
    refine hnil h (eq_nil_iff_forall_not_mem.2 fun e he => ?_)
    have : e.key < tailId.value := h.below e he
    omega
  | wrapped _ hpops hevents => exact hnil (hpops.eventsValid (.inr rfl) h) hevents

theorem Change.eventsValid (hchange : Change S adds queueId start stop)
    (h : EventsValid start.1 start.2.events start.2.totalEventLength) :
    EventsValid stop.1 stop.2.events stop.2.totalEventLength := by
  cases hchange with
  | pop hstep => exact hstep.eventsValid (.inl rfl) h
  | clearLast => exact h.clearLast
  | delete => exact h.of_sublist (sublist_append_right _ _)
  | append hprep _ _ hacc => exact hacc.eventsValid (hprep.eventsValid h)

theorem Changes.eventsValid (hchanges : Changes S adds queueId start stop)
    (h : EventsValid start.1 start.2.events start.2.totalEventLength) :
    EventsValid stop.1 stop.2.events stop.2.totalEventLength := by
  induction hchanges with
  | refl => exact h
  | tail _ hchange ih => exact hchange.eventsValid ih

end Tdlib.Db.TQueue
