/-
`TQueue`: queues of events with ids that grow, of which old ones are
forgotten, cleared or collected as garbage. A storage is told of every change,
so that the queues can be built again from it.

`std::map` and `std::set` are lists in key order. What `Random` and the clock
give are arguments. The `size_t` of lengths is a number on 64 bits.
-/
import Tdlib.Lib.Outcome
import Tdlib.Lib.Bytes
import Tdlib.Lib.OrderedMap
import Mathlib.Data.Prod.Lex

namespace Tdlib.Db

open OrderedMap

/-! ## Events -/

/-- `EventId::MAX_ID` -/
def maxId : Nat := 2000000000

structure EventId where
  value : Nat
  value_lt : value < maxId
  deriving DecidableEq, Repr

namespace EventId

theorem zero_lt_maxId : 0 < maxId := by decide

/-- The id that is `empty()`. -/
def zero : EventId := ⟨0, zero_lt_maxId⟩

def fromInt32 (id : Nat) : Option EventId := if h : id < maxId then some ⟨id, h⟩ else none

def next (id : EventId) : Option EventId := fromInt32 (id.value + 1)

end EventId

structure RawEvent where
  logEventId : Nat := 0
  eventId : EventId
  expiresAt : Int
  data : Bytes
  extra : Int
  deriving DecidableEq, Repr

/-- The key of an event in `Queue::events`. -/
def RawEvent.key (event : RawEvent) : Nat := event.eventId.value

/-- `StorageCallback`, on a state. `push` returns the id it gives the event. -/
structure StorageCallback (σ : Type) where
  push : Int → RawEvent → σ → Nat × σ
  pop : Nat → σ → σ
  popBatch : List Nat → σ → σ

structure Queue where
  tailId : EventId := .zero
  events : List RawEvent := []
  totalEventLength : Nat := 0
  gcAt : Int := 0
  deriving DecidableEq, Repr

def maxEventLength : Nat := 65536 * 8
def maxQueueEvents : Nat := 100000
def maxTotalEventLength : Nat := 2 ^ 27

def sizeAdd (a b : Nat) : Nat := (a + b) % 2 ^ 64
def sizeSub (a b : Nat) : Nat := (a + (2 ^ 64 - b % 2 ^ 64)) % 2 ^ 64

namespace Queue

/-- `get_queue_head` -/
def head (q : Queue) : EventId :=
  match q.events with
  | [] => q.tailId
  | event :: _ => event.eventId

/-- `get_size` -/
def size (q : Queue) : Nat :=
  match q.events.getLast? with
  | none => 0
  | some event => q.events.length - if event.data = [] then 1 else 0

end Queue

/-- The queues, when each is to be looked at for garbage, and the storage. -/
structure TQueue (σ : Type) where
  queues : Int → Option Queue := fun _ => none
  queueGcAt : List (Int × Int) := []
  callback : Option σ

namespace TQueue

variable {σ : Type} (S : StorageCallback σ)

/-! ## Taking events out -/

/-- A queue that is being worked on: its events, their length, and the storage. -/
structure Work (σ : Type) where
  events : List RawEvent
  totalEventLength : Nat
  callback : Option σ

/-- `pop`, with the event that stays, if one does. The last event stays without
its data, so that the storage keeps its id. -/
def pop (queueId : Int) (tailId : EventId) (event : RawEvent) (total : Nat) (callback : Option σ) :
    Outcome (Option RawEvent × Nat × Option σ) :=
  let removed := sizeSub total event.data.length
  match callback with
  | none => pure (none, removed, none)
  | some s =>
    if event.logEventId = 0 then pure (none, removed, some s)
    else
      match event.eventId.next with
      | none => .fatal
      | some next =>
        if next = tailId then
          if event.data ≠ [] then
            let cleared := { event with data := [] }
            pure (some cleared, removed, some (S.push queueId cleared s).2)
          else pure (some event, total, some s)
        else pure (none, removed, some (S.pop event.logEventId s))

/-- `pop` of the first event of `event :: events`, and then the work `rest` on
the others. -/
def popThen (queueId : Int) (tailId : EventId) (event : RawEvent) (total : Nat) (callback : Option σ)
    (rest : Nat → Option σ → Outcome (Work σ)) : Outcome (Work σ) := do
  let popped ← pop S queueId tailId event total callback
  let work ← rest popped.2.1 popped.2.2
  pure { work with events := popped.1.toList ++ work.events }

/-- The loop of `push` for a queue whose ids are used up. -/
def popAll (queueId : Int) (tailId : EventId) : List RawEvent → Nat → Option σ → Outcome (Work σ)
  | [], total, callback => pure ⟨[], total, callback⟩
  | event :: events, total, callback =>
    popThen S queueId tailId event total callback (popAll queueId tailId events)

/-- The loop of `do_get` for the events before `from_id`. -/
def popBefore (queueId : Int) (tailId fromId : EventId) : List RawEvent → Nat → Option σ → Outcome (Work σ)
  | [], total, callback => pure ⟨[], total, callback⟩
  | event :: events, total, callback =>
    if event.key < fromId.value then
      popThen S queueId tailId event total callback (popBefore queueId tailId fromId events)
    else pure ⟨event :: events, total, callback⟩

/-- `pop` of the event with the id, if there is one. -/
def popId (queueId : Int) (tailId eventId : EventId) : List RawEvent → Nat → Option σ → Outcome (Work σ)
  | [], total, callback => pure ⟨[], total, callback⟩
  | event :: events, total, callback =>
    if event.key = eventId.value then
      popThen S queueId tailId event total callback fun total callback => pure ⟨events, total, callback⟩
    else do
      let work ← popId queueId tailId eventId events total callback
      pure { work with events := event :: work.events }

/-- The loop of `do_get` for the events from `from_id` on, with the events it
gives, at most `room` of them. -/
def popReady (queueId : Int) (tailId fromId : EventId) (unixTimeNow : Int) :
    Nat → List RawEvent → Nat → Option σ → Outcome (Work σ × List RawEvent)
  | _, [], total, callback => pure (⟨[], total, callback⟩, [])
  | room, event :: events, total, callback =>
    if event.expiresAt < unixTimeNow ∨ event.data = [] then do
      let popped ← pop S queueId tailId event total callback
      let work ← popReady queueId tailId fromId unixTimeNow room events popped.2.1 popped.2.2
      pure ({ work.1 with events := popped.1.toList ++ work.1.events }, work.2)
    else do
      Outcome.check (¬ event.key < fromId.value)
      match room with
      | 0 => pure (⟨event :: events, total, callback⟩, [])
      | room + 1 =>
        let work ← popReady queueId tailId fromId unixTimeNow room events total callback
        pure ({ work.1 with events := event :: work.1.events }, event :: work.2)

/-- The clock as `run_gc` reads it: the time is over from the reading `deadline`
on. -/
structure Clock where
  deadline : Nat
  counter : Nat := 0
  readings : Nat := 0

def Clock.late (clock : Clock) : Bool := clock.deadline ≤ clock.readings

def Clock.read (clock : Clock) : Clock := { clock with readings := clock.readings + 1 }

/-- The loop of `run_gc` over the events of a queue, with the time it finds for
the next one. -/
def popExpired (queueId : Int) (tailId : EventId) (unixTimeNow : Int) :
    List RawEvent → Int → Clock → Nat → Option σ → Outcome (Work σ × Int × Clock)
  | [], newGcAt, clock, total, callback => pure (⟨[], total, callback⟩, newGcAt, clock)
  | event :: events, newGcAt, clock, total, callback =>
    let clock := { clock with counter := clock.counter + 1 }
    let reads := clock.counter &&& 128 = 0
    let late := reads ∧ clock.late = true
    let clock := if reads then clock.read else clock
    if late then
      pure (⟨event :: events, total, callback⟩, if newGcAt = 0 then event.expiresAt else newGcAt, clock)
    else if event.expiresAt < unixTimeNow ∨ event.data = [] then do
      let popped ← pop S queueId tailId event total callback
      let work ← popExpired queueId tailId unixTimeNow events newGcAt clock popped.2.1 popped.2.2
      pure ({ work.1 with events := popped.1.toList ++ work.1.events }, work.2)
    else if newGcAt ≠ 0 then pure (⟨event :: events, total, callback⟩, newGcAt, clock)
    else do
      let work ← popExpired queueId tailId unixTimeNow events event.expiresAt clock total callback
      pure ({ work.1 with events := event :: work.1.events }, work.2)

/-! ## Operations -/

/-- The queue is as it was worked on. -/
def finish (t : TQueue σ) (queueId : Int) (q : Queue) (work : Work σ) : TQueue σ :=
  { t with
    queues := Function.update t.queues queueId
      (some { q with events := work.events, totalEventLength := work.totalEventLength })
    callback := work.callback }

/-- `schedule_queue_gc`, with what becomes of `queue_gc_at_`. -/
def scheduleQueueGc (queueId : Int) (q : Queue) (gcAt : Int) (queueGcAt : List (Int × Int)) :
    Outcome (Queue × List (Int × Int)) := do
  Outcome.check (q.gcAt ≠ 0 → (q.gcAt, queueId) ∈ queueGcAt)
  let queueGcAt := if q.gcAt ≠ 0 then erase toLex (toLex (q.gcAt, queueId)) queueGcAt else queueGcAt
  Outcome.check (gcAt ≠ 0 → (gcAt, queueId) ∉ queueGcAt)
  pure ({ q with gcAt }, if gcAt ≠ 0 then emplace toLex (gcAt, queueId) queueGcAt else queueGcAt)

/-- The part of `do_push` that takes out a last event without data. -/
def dropEmptyLast (events : List RawEvent) (callback : Option σ) : List RawEvent × Option σ :=
  match events.getLast? with
  | none => (events, callback)
  | some event =>
    if event.data = [] then
      (events.dropLast, callback.map fun s => if event.logEventId ≠ 0 then S.pop event.logEventId s else s)
    else (events, callback)

/-- Whether `do_push` takes the event. -/
def accepts (q : Queue) (event : RawEvent) : Bool :=
  q.events.length < maxQueueEvents && q.totalEventLength ≤ maxTotalEventLength - event.data.length &&
    0 < event.expiresAt && q.tailId.value ≤ event.key

/-- `do_push` from the changes on. -/
def append (queueId : Int) (event : RawEvent) (q : Queue) (t : TQueue σ) : Outcome (TQueue σ) := do
  let dropped := dropEmptyLast S q.events t.callback
  let scheduled ←
    if dropped.1 = [] ∧ event.data ≠ [] then scheduleQueueGc queueId q event.expiresAt t.queueGcAt
    else pure (q, t.queueGcAt)
  let pushed : RawEvent × Option σ :=
    if event.logEventId = 0 then
      match dropped.2 with
      | none => (event, none)
      | some s => ({ event with logEventId := (S.push queueId event s).1 }, some (S.push queueId event s).2)
    else (event, dropped.2)
  match event.eventId.next with
  | none => .fatal
  | some tailId =>
    let q := { scheduled.1 with
      tailId
      totalEventLength := sizeAdd q.totalEventLength event.data.length
      events := emplace RawEvent.key pushed.1 dropped.1 }
    pure { queues := Function.update t.queues queueId (some q), queueGcAt := scheduled.2, callback := pushed.2 }

def doPush (queueId : Int) (event : RawEvent) (t : TQueue σ) : Outcome (Bool × TQueue σ) := do
  Outcome.check (event.eventId.value ≠ 0)
  if event.data.length > maxEventLength ∨ queueId = 0 then pure (false, t)
  else
    let q := (t.queues queueId).getD {}
    if accepts q event then do
      let t ← t.append S queueId event q
      pure (true, t)
    else pure (false, { t with queues := Function.update t.queues queueId (some q) })

/-- What `Random::fast` gives for a first id. -/
structure RandomId where
  value : Nat
  ge : 2 * max maxQueueEvents 1000000 + 1 ≤ value
  le : value ≤ maxId / 2

/-- The id that the loop of `push` gives a queue without one. -/
def firstId (hintNewId : EventId) (random : RandomId) : Option EventId :=
  if hintNewId.value = 0 then EventId.fromInt32 random.value else some hintNewId

/-- The error of `push`, if it does not take the event. -/
def pushError (q : Queue) (data : Bytes) (expiresAt : Int) : Option String :=
  if maxQueueEvents ≤ q.events.length then some "Queue is full"
  else if q.totalEventLength > maxTotalEventLength - data.length then some "Queue size is too big"
  else if expiresAt ≤ 0 then some "Failed to add already expired event"
  else none

/-- The loop of `push`: the queue with an id to give in its `tailId`. Its second
round always ends it. -/
def prepare (queueId : Int) (hintNewId : EventId) (random : RandomId) (q : Queue) (callback : Option σ) :
    Outcome (Queue × Option σ) := do
  match if q.tailId.value = 0 then firstId hintNewId random else some q.tailId with
  | none => .fatal
  | some eventId =>
    Outcome.check (eventId.value ≠ 0)
    if eventId.next.isSome then pure ({ q with tailId := eventId }, callback)
    else do
      let work ← popAll S queueId .zero q.events q.totalEventLength callback
      Outcome.check (hintNewId.next.isSome = true)
      match firstId hintNewId random with
      | none => .fatal
      | some eventId =>
        Outcome.check (eventId.value ≠ 0)
        Outcome.check (eventId.next.isSome = true)
        pure ({ q with tailId := eventId, events := work.events, totalEventLength := work.totalEventLength },
          work.callback)

def push (queueId : Int) (data : Bytes) (expiresAt extra : Int) (hintNewId : EventId) (random : RandomId)
    (t : TQueue σ) :
    Outcome (Except String EventId × TQueue σ) :=
  if data = [] then pure (.error "Data is empty", t)
  else if data.length > maxEventLength then pure (.error "Data is too big", t)
  else if queueId = 0 then pure (.error "Queue identifier is invalid", t)
  else
    let q := (t.queues queueId).getD {}
    match pushError q data expiresAt with
    | some error => pure (.error error, { t with queues := Function.update t.queues queueId (some q) })
    | none => do
      let prepared ← prepare S queueId hintNewId random q t.callback
      let eventId := prepared.1.tailId
      let added ← doPush S queueId { eventId, expiresAt, data, extra }
        { t with queues := Function.update t.queues queueId (some prepared.1), callback := prepared.2 }
      Outcome.check (added.1 = true)
      pure (.ok eventId, added.2)

def getTail (queueId : Int) (t : TQueue σ) : EventId := ((t.queues queueId).map (·.tailId)).getD .zero

def getSize (queueId : Int) (t : TQueue σ) : Nat := ((t.queues queueId).map (·.size)).getD 0

def forget (queueId : Int) (eventId : EventId) (t : TQueue σ) : Outcome (TQueue σ) :=
  match t.queues queueId with
  | none => pure t
  | some q => do
    let work ← popId S queueId q.tailId eventId q.events q.totalEventLength t.callback
    pure (t.finish queueId q work)

/-- The part of `clear` that keeps the last event of a queue for its id: the
events, their length and the storage, and how many events stay. -/
def keepLast (queueId : Int) (q : Queue) (callback : Option σ) : Work σ × Nat :=
  match q.events.getLast?, callback with
  | some event, some s =>
    if event.logEventId = 0 then (⟨q.events, q.totalEventLength, some s⟩, 0)
    else if event.data ≠ [] then
      let cleared := { event with data := [] }
      (⟨q.events.dropLast ++ [cleared], sizeSub q.totalEventLength event.data.length,
        some (S.push queueId cleared s).2⟩, 1)
    else (⟨q.events, q.totalEventLength, some s⟩, 1)
  | _, _ => (⟨q.events, q.totalEventLength, callback⟩, 0)

/-- `clear`, with the events that are deleted. -/
def clear (queueId : Int) (keepCount : Nat) (t : TQueue σ) : Outcome (List RawEvent × TQueue σ) :=
  match t.queues queueId with
  | none => pure ([], t)
  | some q =>
    if q.size ≤ keepCount then pure ([], t)
    else
      let kept := if keepCount = 0 then keepLast S queueId q t.callback
        else (⟨q.events, q.totalEventLength, t.callback⟩, keepCount)
      let events := kept.1.events
      let deleted := events.take (events.length - kept.2)
      let rest := events.drop (events.length - kept.2)
      let callback := kept.1.callback.map fun s => S.popBatch ((deleted.map (·.logEventId)).filter (· ≠ 0)) s
      let total :=
        if keepCount > q.size / 2 then deleted.foldl (fun total event => sizeSub total event.data.length) kept.1.totalEventLength
        else rest.foldl (fun total event => sizeAdd total event.data.length) 0
      pure (deleted, t.finish queueId q ⟨rest, total, callback⟩)

/-- `do_get`, with the events it gives. -/
def doGet (queueId : Int) (q : Queue) (fromId : EventId) (forgetPrevious : Bool) (unixTimeNow : Int) (room : Nat)
    (callback : Option σ) : Outcome (Work σ × List RawEvent) := do
  let work ←
    if forgetPrevious then popBefore S queueId q.tailId fromId q.events q.totalEventLength callback
    else pure ⟨q.events, q.totalEventLength, callback⟩
  let before := work.events.takeWhile (·.key < fromId.value)
  let ready ← popReady S queueId q.tailId fromId unixTimeNow room (work.events.dropWhile (·.key < fromId.value))
    work.totalEventLength work.callback
  pure ({ ready.1 with events := before ++ ready.1.events }, ready.2)

/-- `get`, with the events it gives. -/
def get (queueId : Int) (fromId : EventId) (forgetPrevious : Bool) (unixTimeNow : Int) (room : Nat) (t : TQueue σ) :
    Outcome (Except String Nat × List RawEvent × TQueue σ) :=
  match t.queues queueId with
  | none => pure (.ok 0, [], t)
  | some q =>
    if fromId.value > q.tailId.value + 10 then pure (.error "Specified from_id is in the future", [], t)
    else if (fromId.value : Int) < q.head.value - maxQueueEvents then
      pure (.error "Specified from_id is in the past", [], t)
    else do
      let done ← doGet S queueId q fromId forgetPrevious unixTimeNow room t.callback
      let t := t.finish queueId q done.1
      pure (.ok (t.getSize queueId), done.2, t)

/-- One round of `run_gc`, for the queue `queueId`, with the number of deleted
events. -/
def gcQueue (unixTimeNow gcAt : Int) (queueId : Int) (clock : Clock) (t : TQueue σ) :
    Outcome (Nat × Clock × TQueue σ) := do
  let q := (t.queues queueId).getD {}
  Outcome.check (q.gcAt = gcAt)
  let work ← popExpired S queueId q.tailId unixTimeNow q.events 0 clock q.totalEventLength t.callback
  let swept := { q with events := work.1.events, totalEventLength := work.1.totalEventLength }
  Outcome.check (swept.size ≤ q.size)
  let scheduled ← scheduleQueueGc queueId swept work.2.1 t.queueGcAt
  pure (q.size - swept.size, work.2.2,
    { queues := Function.update t.queues queueId (some scheduled.1), queueGcAt := scheduled.2
      callback := work.1.callback })

/-- The loop of `run_gc`. -/
def gcLoop (unixTimeNow : Int) : Nat → Nat → Clock → TQueue σ → Outcome (Nat × Bool × TQueue σ)
  | 0, _, _, _ => .fatal
  | fuel + 1, deletedEvents, clock, t =>
    match t.queueGcAt with
    | [] => pure (deletedEvents, true, t)
    | (gcAt, queueId) :: _ =>
      if gcAt ≥ unixTimeNow then pure (deletedEvents, true, t)
      else do
        let round ← gcQueue S unixTimeNow gcAt queueId clock t
        if round.2.1.late then pure (deletedEvents + round.1, false, round.2.2)
        else gcLoop unixTimeNow fuel (deletedEvents + round.1) round.2.1.read round.2.2

/-- `run_gc`, with what it returns. Every round but the last one leaves one queue
less to look at. -/
def runGc (unixTimeNow : Int) (deadline : Nat) (t : TQueue σ) : Outcome (Nat × Bool × TQueue σ) :=
  gcLoop S unixTimeNow (t.queueGcAt.length + 1) 0 { deadline } t

end TQueue

/-! ## `TQueueMemoryStorage` -/

/-- What the storage has under an id. -/
structure Stored where
  logEventId : Nat
  queueId : Int
  event : RawEvent
  deriving DecidableEq, Repr

structure MemoryStorage where
  nextLogEventId : Nat := 1
  events : List Stored := []
  deriving DecidableEq, Repr

namespace MemoryStorage

def push (queueId : Int) (event : RawEvent) (s : MemoryStorage) : Nat × MemoryStorage :=
  if event.logEventId = 0 then
    (s.nextLogEventId, ⟨s.nextLogEventId + 1,
      assign Stored.logEventId ⟨s.nextLogEventId, queueId, event⟩ s.events⟩)
  else
    (event.logEventId, { s with
      events := assign Stored.logEventId ⟨event.logEventId, queueId, event⟩ s.events })

def pop (logEventId : Nat) (s : MemoryStorage) : MemoryStorage :=
  { s with events := erase Stored.logEventId logEventId s.events }

/-- `TQueueMemoryStorage` as a callback, with the `pop_batch` of
`StorageCallback`. -/
def callback : StorageCallback MemoryStorage :=
  ⟨push, pop, fun logEventIds s => logEventIds.foldl (fun s logEventId => s.pop logEventId) s⟩

/-- `replay` -/
def replay {σ : Type} (S : StorageCallback σ) (s : MemoryStorage) (t : TQueue σ) : Outcome (TQueue σ) :=
  s.events.foldlM (fun t x => do
    let added ← t.doPush S x.queueId { x.event with logEventId := x.logEventId }
    Outcome.check (added.1 = true)
    pure added.2) t

end MemoryStorage

end Tdlib.Db
