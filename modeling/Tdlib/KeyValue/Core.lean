/-
`BinlogKeyValue` over a `ConcurrentBinlog`: a map that keeps itself in a
binlog. Clients change the map and take sequence numbers under a lock; the
events they post reach the `BinlogActor`, which owns the binlog, in any order.
-/
import Tdlib.Binlog.Load
import Tdlib.OrderedEventsProcessor
import Mathlib.Data.List.AList

namespace Tdlib.Db

/-! ## Stored values -/

/-- `magic_`: a type of events that is no service type. -/
abbrev Magic := { magic : Int // 0 ≤ magic ∧ magic < 2 ^ 31 }

/-- `map_`: the value of a key and the id of its event. -/
abbrev KvMap := AList fun _ : Bytes => Bytes × Nat

/-- What an `Event` stores. -/
def storeKv (key value : Bytes) : Outcome Bytes := do
  let key ← storeString key
  let value ← storeString value
  pure (key ++ value)

/-- What the callback of `init` does with an event of the log. -/
def KvMap.handle (map : KvMap) (event : BinlogEvent) : Outcome KvMap :=
  let key := (TlParser.new event.getData).fetchString
  let value := key.2.fetchString
  if value.2.fetchEnd.error = none then
    -- An event with an empty key is reported and left out.
    if key.1 = [] then pure map else pure (map.insert key.1 (value.1, event.id))
  else .fatal

/-- `remove_if`, of the keys that begin with `pfx`. -/
def KvMap.removePrefix (map : KvMap) (pfx : Bytes) : KvMap :=
  ⟨map.entries.filter fun x => !pfx.isPrefixOf x.1, map.nodupKeys.sublist List.filter_sublist⟩

/-- The event that erases an id. -/
def eraseRaw (c : Crypto) (eventId : Nat) : Outcome Bytes :=
  BinlogEvent.createRaw c eventId ServiceTypes.empty rewriteFlag []

/-! ## `BinlogActor` -/

inductive Message
  | addRawEvent (seqNo : Nat) (rawEvent : Bytes)
  | eraseBatch (seqNo : Nat) (eventIds : List Nat)
  deriving DecidableEq, Repr

/-- `BinlogActor`. The promises it sets are left out; `added` are the events
it has given to the binlog. -/
structure BinlogActor where
  binlog : Binlog
  processor : OrderedEventsProcessor Bytes
  added : List Bytes := []
  deriving DecidableEq, Repr

namespace BinlogActor

/-- What `add_raw_event` does with an event whose turn it is. A reindex draws
new bytes. -/
def doAddRawEvent (c : Crypto) (r : Nat → Entropy) (s : Binlog × List Bytes) (seqNo : Nat) (rawEvent : Bytes) :
    Outcome (Binlog × List Bytes) :=
  if rawEvent = [] then pure s
  else do
    let b ← s.1.addRawEvent c (r seqNo) rawEvent
    pure (b, s.2 ++ [rawEvent])

def addRawEvent (c : Crypto) (r : Nat → Entropy) (seqNo : Nat) (rawEvent : Bytes) (a : BinlogActor) :
    Outcome BinlogActor := do
  let ran ← a.processor.add seqNo rawEvent (doAddRawEvent c r) (a.binlog, a.added)
  pure ⟨ran.2.1, ran.1, ran.2.2⟩

def eraseBatch (c : Crypto) (r : Nat → Entropy) : Nat → List Nat → BinlogActor → Outcome BinlogActor
  | _, [], a => pure a
  | seqNo, eventId :: eventIds, a => do
    let rawEvent ← eraseRaw c eventId
    let a ← a.addRawEvent c r seqNo rawEvent
    eraseBatch c r (seqNo + 1) eventIds a

def receive (c : Crypto) (r : Nat → Entropy) (a : BinlogActor) : Message → Outcome BinlogActor
  | .addRawEvent seqNo rawEvent => a.addRawEvent c r seqNo rawEvent
  | .eraseBatch seqNo eventIds => a.eraseBatch c r seqNo eventIds

end BinlogActor

/-! ## `BinlogKeyValue` -/

/-- The key value store and the binlog it is over. `lastEventId` is that of
`ConcurrentBinlog`; `messages` were posted and have not reached the actor;
`posted` are all events with the numbers they took, in the order of those. -/
structure KeyValue where
  map : KvMap
  magic : Magic
  lastEventId : Nat
  messages : List Message := []
  actor : BinlogActor
  posted : List (Nat × Bytes) := []

namespace KeyValue

/-- `init`, with the files it finds. -/
def init (c : Crypto) (r : Entropy) (disk : Disk) (dbKey : DbKey) (magic : Magic) : Outcome KeyValue := do
  let opened ← Binlog.init c r disk dbKey .empty
  let map ← opened.2.foldlM KvMap.handle ∅
  -- `peek_next_event_id`
  let seqNo := (opened.1.lastEventId + 1) % 2 ^ 64
  pure { map, magic, lastEventId := seqNo, actor := { binlog := opened.1, processor := .new seqNo } }

/-- `next_event_id(shift)` and the posting of the events that take the
numbers. -/
def post (kv : KeyValue) (map : KvMap) (rawEvents : List Bytes) (messages : List Message) : KeyValue :=
  { kv with
    map
    lastEventId := (kv.lastEventId + rawEvents.length) % 2 ^ 64
    messages := kv.messages ++ messages
    posted := kv.posted ++ (List.range' kv.lastEventId rawEvents.length).zip rawEvents }

def set (c : Crypto) (key value : Bytes) (kv : KeyValue) : Outcome KeyValue := do
  Outcome.check (key ≠ [])
  let it := (kv.map.lookup key).getD ([], 0)
  if it.2 ≠ 0 ∧ it.1 = value then pure kv
  else do
    let eventId := if it.2 ≠ 0 then it.2 else kv.lastEventId
    let data ← storeKv key value
    let rawEvent ← BinlogEvent.createRaw c eventId kv.magic.1 (if it.2 ≠ 0 then rewriteFlag else 0) data
    pure (kv.post (kv.map.insert key (value, eventId)) [rawEvent] [.addRawEvent kv.lastEventId rawEvent])

def erase (c : Crypto) (key : Bytes) (kv : KeyValue) : Outcome KeyValue :=
  match kv.map.lookup key with
  | none => pure kv
  | some it => do
    let rawEvent ← eraseRaw c it.2
    pure (kv.post (kv.map.erase key) [rawEvent] [.addRawEvent kv.lastEventId rawEvent])

/-- The loop of `erase_batch`: the ids of the keys that are found, and the map
without the keys. -/
def collect : List Bytes → KvMap → List Nat × KvMap
  | [], map => ([], map)
  | key :: keys, map =>
    match map.lookup key with
    | none => collect keys map
    | some it => (it.2 :: (collect keys (map.erase key)).1, (collect keys (map.erase key)).2)

/-- `erase_batch`. The events are made by the actor. -/
def eraseBatch (c : Crypto) (keys : List Bytes) (kv : KeyValue) : Outcome KeyValue :=
  let collected := collect keys kv.map
  if collected.1 = [] then pure kv
  else do
    -- `narrow_cast<int32>`
    Outcome.check (collected.1.length < 2 ^ 31)
    let rawEvents ← collected.1.mapM (eraseRaw c)
    pure (kv.post collected.2 rawEvents [.eraseBatch kv.lastEventId collected.1])

/-- The entries `erase_by_prefix` removes. -/
def withPrefix (map : KvMap) (pfx : Bytes) : List (Sigma fun _ : Bytes => Bytes × Nat) :=
  map.entries.filter fun x => pfx.isPrefixOf x.1

/-- `erase_by_prefix`, where the hash table has the entries in the order
`order`. -/
def eraseByPrefix (c : Crypto) (pfx : Bytes) (order : List (Sigma fun _ : Bytes => Bytes × Nat)) (kv : KeyValue) :
    Outcome KeyValue := do
  -- `narrow_cast<int32>`
  Outcome.check (order.length < 2 ^ 31)
  let rawEvents ← order.mapM fun x => eraseRaw c x.2.2
  pure (kv.post (kv.map.removePrefix pfx) rawEvents
    (((List.range' kv.lastEventId rawEvents.length).zip rawEvents).map fun x => .addRawEvent x.1 x.2))

/-- The messages reach the actor, in the order `order`. -/
def deliver (c : Crypto) (r : Nat → Entropy) (order : List Message) (kv : KeyValue) : Outcome KeyValue := do
  let actor ← order.foldlM (BinlogActor.receive c r) kv.actor
  pure { kv with messages := [], actor }

/-! ## Clients -/

inductive Call
  | set (key value : Bytes)
  | erase (key : Bytes)
  | eraseBatch (keys : List Bytes)
  | eraseByPrefix (pfx : Bytes) (order : List (Sigma fun _ : Bytes => Bytes × Nat))

def Call.run (c : Crypto) (kv : KeyValue) : Call → Outcome KeyValue
  | set key value => kv.set c key value
  | erase key => kv.erase c key
  | eraseBatch keys => kv.eraseBatch c keys
  | eraseByPrefix pfx order => kv.eraseByPrefix c pfx order

/-- The order of entries is one the hash table can have. -/
def Call.Possible (kv : KeyValue) : Call → Prop
  | eraseByPrefix pfx order => order.Perm (withPrefix kv.map pfx)
  | _ => True

/-- The event of the call is no bigger than `MAX_SIZE`. -/
def Call.Fits : Call → Prop
  | set key value => ∀ data, storeKv key value = .ok data → data.length + minSize ≤ maxSize
  | _ => True

/-- A call of a client, under the lock; a message that reaches the actor; or a
flush of the binlog, which happens at any time. -/
inductive Step (c : Crypto) : KeyValue → KeyValue → Prop
  | call {kv kv' : KeyValue} (call : Call) : call.Possible kv → call.Fits → call.run c kv = .ok kv' →
    kv'.lastEventId ≤ 2 ^ 63 → Step c kv kv'
  | deliver {kv : KeyValue} {actor : BinlogActor} {l l' : List Message} {m : Message} (r : Nat → Entropy) :
    kv.messages = l ++ m :: l' → kv.actor.receive c r m = .ok actor →
    Step c kv { kv with messages := l ++ l', actor }
  | flush {kv : KeyValue} : Step c kv { kv with actor := { kv.actor with binlog := kv.actor.binlog.flush c } }

/-- What clients can reach, from no files on, over any number of restarts. -/
inductive Reachable (c : Crypto) (dbKey : DbKey) (magic : Magic) : KeyValue → Prop
  | start {r : Entropy} {kv : KeyValue} : init c r {} dbKey magic = .ok kv → Reachable c dbKey magic kv
  | step {kv kv' : KeyValue} : Reachable c dbKey magic kv → Step c kv kv' → Reachable c dbKey magic kv'
  | restart {r : Entropy} {kv kv' : KeyValue} : Reachable c dbKey magic kv → kv.messages = [] →
    init c r (kv.actor.binlog.close c) dbKey magic = .ok kv' → Reachable c dbKey magic kv'

end KeyValue

end Tdlib.Db
