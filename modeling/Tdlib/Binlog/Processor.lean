/-
`BinlogEventsProcessor`: the events the log holds at the moment, in id
order, with erased ones left in place until a compaction.

The two parallel vectors of the source, `event_ids_` and `events_`, are one
list of slots. A slot's `eventId` is twice the id of the event, plus one
once the event is erased, on 64 bits.
-/
import Tdlib.Binlog.Event

namespace Tdlib.Db

structure Slot where
  eventId : Nat
  event : BinlogEvent
  deriving DecidableEq, Repr

/-- `(event_id & 1) == 0`: the event is not erased. -/
def Slot.isLive (s : Slot) : Bool := s.eventId % 2 == 0

structure BinlogEventsProcessor where
  slots : List Slot := []
  totalEvents : Nat := 0
  emptyEvents : Nat := 0
  lastEventId : Nat := 0
  offset : Int := 0
  totalRawEventsSize : Int := 0
  deriving DecidableEq, Repr

namespace BinlogEventsProcessor

/-- The position `std::lower_bound` finds: the first id not below `id`. -/
def lowerBound (slots : List Slot) (id : Nat) : Nat := slots.findIdx fun s => id ≤ s.eventId

/-- `event_ids_.back() >= id`, of a vector that is not empty. -/
def backGe (slots : List Slot) (id : Nat) : Bool :=
  match slots.getLast? with
  | none => false
  | some s => id ≤ s.eventId

def compactify (p : BinlogEventsProcessor) : BinlogEventsProcessor :=
  let slots := p.slots.filter Slot.isLive
  { p with slots, totalEvents := slots.length, emptyEvents := 0 }

/-- The end of `do_event`. -/
def maybeCompactify (p : BinlogEventsProcessor) : BinlogEventsProcessor :=
  if p.totalEvents > 10 && p.emptyEvents * 4 > p.totalEvents * 3 then p.compactify else p

/-- `do_event`, with whether the status is OK. -/
def doEvent (p : BinlogEventsProcessor) (event : BinlogEvent) : BinlogEventsProcessor × Bool :=
  let p := { p with offset := event.offset }
  let fixedEventId := event.id * 2 % 2 ^ 64
  if hasFlag event.flags rewriteFlag && backGe p.slots fixedEventId then
    let pos := lowerBound p.slots fixedEventId
    match p.slots[pos]? with
    | none => (p, false)
    | some s =>
      if s.eventId ≠ fixedEventId then (p, false)
      else
        let size := p.totalRawEventsSize - s.event.rawEvent.length
        if event.type = ServiceTypes.empty then
          (maybeCompactify { p with
            slots := p.slots.set pos ⟨s.eventId + 1, {}⟩
            emptyEvents := p.emptyEvents + 1
            totalRawEventsSize := size }, true)
        else
          let event := { event with flags := clearFlag event.flags rewriteFlag }
          (maybeCompactify { p with
            slots := p.slots.set pos ⟨s.eventId, event⟩
            totalRawEventsSize := size + event.rawEvent.length }, true)
  else if event.type < 0 then
    (maybeCompactify p, true)
  else if backGe p.slots fixedEventId then (p, false)
  else
    (maybeCompactify { p with
      slots := p.slots ++ [⟨fixedEventId, event⟩]
      totalEvents := p.totalEvents + 1
      lastEventId := event.id
      totalRawEventsSize := p.totalRawEventsSize + event.rawEvent.length }, true)

/-- The events that are not erased, in order. -/
def live (p : BinlogEventsProcessor) : List BinlogEvent := (p.slots.filter Slot.isLive).map (·.event)

/-- `for_each`: the events its callback gets. -/
def forEach (p : BinlogEventsProcessor) : Outcome (List BinlogEvent) := do
  Outcome.check ((p.slots.map (·.eventId)).IsChain (· < ·))
  pure p.live

end BinlogEventsProcessor

end Tdlib.Db
