/-
`Binlog`: the append-only log of events, its optional encryption, and its
rewriting into a file of the live events alone.

The model has the two files the log lives in, `path` and `path.new`, and the
steps it takes on them, in order: the process may stop between any two.
Calls to the operating system succeed. `events_buffer_` is not there, since
`init` leaves it turned off.
-/
import Tdlib.Binlog.Processor

namespace Tdlib.Db

open Outcome ServiceTypes

/-! ## Keys and encryption events -/

inductive DbKey
  | empty
  | rawKey (data : Bytes)
  | password (data : Bytes)
  deriving DecidableEq, Repr

namespace DbKey

def isEmpty : DbKey → Bool
  | empty => true
  | _ => false

def isRawKey : DbKey → Bool
  | rawKey _ => true
  | _ => false

def data : DbKey → Bytes
  | empty => []
  | rawKey d => d
  | password d => d

end DbKey

structure AesCtrEncryptionEvent where
  keySalt : Bytes
  iv : Bytes
  keyHash : Bytes
  deriving DecidableEq, Repr

namespace AesCtrEncryptionEvent

def kdfIterationCount : Nat := 60002
def kdfFastIterationCount : Nat := 2

def generateKey (c : Crypto) (event : AesCtrEncryptionEvent) (dbKey : DbKey) : Outcome Bytes := do
  check (dbKey.isEmpty = false)
  let iterationCount := if dbKey.isRawKey then kdfFastIterationCount else kdfIterationCount
  pure (c.pbkdf2Sha256 dbKey.data event.keySalt iterationCount)

/-- The bytes of "cucumbers everywhere". -/
def hashMessage : Bytes := "cucumbers everywhere".toList.map fun ch => UInt8.ofNat ch.toNat

def generateHash (c : Crypto) (key : Bytes) : Bytes := c.hmacSha256 key hashMessage

def store (event : AesCtrEncryptionEvent) : Outcome Bytes := do
  let keySalt ← storeString event.keySalt
  let iv ← storeString event.iv
  let keyHash ← storeString event.keyHash
  pure (leBytes 4 0 ++ (keySalt ++ (iv ++ keyHash)))

/-- `parse`, then `fetch_end`. -/
def parse (data : Bytes) : AesCtrEncryptionEvent × TlParser :=
  let (flags, parser) := (TlParser.new data).fetchInt
  let parser :=
    if flags ≠ 0 then parser.setError ("Invalid flags " ++ toString flags ++ " left, current bit is 0") parser.data.length
    else parser
  let (keySalt, parser) := parser.fetchString
  let (iv, parser) := parser.fetchString
  let (keyHash, parser) := parser.fetchString
  (⟨keySalt, iv, keyHash⟩, parser.fetchEnd)

end AesCtrEncryptionEvent

/-- What `Random::secure_bytes` fills a salt and an initialization vector
with. -/
structure Entropy where
  salt : Bytes
  iv : Bytes
  length_salt : salt.length = 32
  length_iv : iv.length = 16

/-! ## Files -/

/-- The files `path` and `path.new`, where they exist. -/
structure Disk where
  path : Option Bytes := none
  pathNew : Option Bytes := none
  deriving DecidableEq, Repr

/-- A call that changes a file. `write` appends, `isNew` says to which. -/
inductive FileStep
  | create
  | createNew
  | write (isNew : Bool) (bytes : Bytes)
  | truncate (size : Nat)
  | unlinkPath
  | unlinkNew
  | renameNew
  deriving DecidableEq, Repr

def Disk.apply (d : Disk) : FileStep → Disk
  | .create => { d with path := some (d.path.getD []) }
  | .createNew => { d with pathNew := some [] }
  | .write false bytes => { d with path := d.path.map (· ++ bytes) }
  | .write true bytes => { d with pathNew := d.pathNew.map (· ++ bytes) }
  | .truncate size => { d with path := d.path.map (·.take size) }
  | .unlinkPath => { d with path := none }
  | .unlinkNew => { d with pathNew := none }
  | .renameNew =>
    match d.pathNew with
    | some bytes => { path := some bytes, pathNew := none }
    | none => d

/-- `file_size` of `path`. -/
def Disk.size (d : Disk) : Nat := (d.path.getD []).length

/-! ## The log -/

inductive State
  | empty
  | load
  | reindex
  | run
  deriving DecidableEq, Repr

inductive EncryptionType
  | none
  | aesCtr
  deriving DecidableEq, Repr

/-- A key stream and how much of it is used. -/
structure AesCtrState where
  key : Bytes := []
  iv : Bytes := []
  pos : Nat := 0
  deriving DecidableEq, Repr

def AesCtrState.encrypt (c : Crypto) (s : AesCtrState) (bytes : Bytes) : Bytes :=
  xorStream (c.aesCtr s.key s.iv) s.pos bytes

def AesCtrState.advance (s : AesCtrState) (n : Nat) : AesCtrState := { s with pos := s.pos + n }

/-- What `load_binlog` reads from: the bytes of the file `fd_` has not read
yet, those in `buffer_reader_`, those decrypted into `byte_flow_sink_`, and
the state of the `BinlogReader`, with the size it waits for in `ReadEvent`. -/
structure Input where
  unread : Bytes := []
  bufferReader : Bytes := []
  sink : Bytes := []
  readEvent : Option Nat := none
  offset : Nat := 0
  deriving DecidableEq, Repr

/-- The fields of `Binlog`. `buffer` is what `buffer_writer_` holds while it
is used for writing, `fdNew` whether `fd_` is `path.new`; `steps` are the
calls made on the files so far. -/
structure Binlog where
  disk : Disk := {}
  steps : List FileStep := []
  fdNew : Bool := false
  buffer : Bytes := []
  input : Input := {}
  wrongPassword : Bool := false
  dbKey : DbKey := .empty
  dbKeyUsed : Bool := false
  oldDbKey : DbKey := .empty
  encryptionType : EncryptionType := .none
  aesCtrKeySalt : Bytes := []
  aesCtrKey : Bytes := List.replicate 32 0
  aesCtrState : AesCtrState := {}
  byteFlowFlag : Bool := false
  fdSize : Int := 0
  fdEvents : Nat := 0
  pendingEvents : List BinlogEvent := []
  processor : BinlogEventsProcessor := {}
  lastEventId : Nat := 0
  state : State := .empty
  deriving DecidableEq, Repr

namespace Binlog

def file (step : FileStep) (b : Binlog) : Binlog :=
  { b with disk := b.disk.apply step, steps := b.steps ++ [step] }

/-- Whether `debug_get_binlog_data` returns an empty string. -/
def debugGetBinlogDataEmpty (b : Binlog) (beginOffset endOffset : Int) : Bool :=
  if beginOffset > endOffset then false
  else if beginOffset = endOffset then true
  else
    let endOffset := if endOffset - beginOffset > 512 then beginOffset + 512 else endOffset
    let expectedDataLength := (endOffset - beginOffset).toNat
    let data := ((b.disk.path.getD []).drop beginOffset.toNat).take expectedDataLength
    if data.length < expectedDataLength then false
    else b.encryptionType = .aesCtr && data.all (· = 0)

/-- `flush`. The encryption happens here. -/
def flush (c : Crypto) (b : Binlog) : Binlog :=
  if b.state = .load then b
  else if b.byteFlowFlag then
    { b.file (.write b.fdNew (b.aesCtrState.encrypt c b.buffer)) with
      buffer := [], aesCtrState := b.aesCtrState.advance b.buffer.length }
  else { b.file (.write b.fdNew b.buffer) with buffer := [] }

def lazyFlush (c : Crypto) (b : Binlog) : Binlog :=
  if b.buffer.length > 2 ^ 14 then b.flush c else b

/-- `update_read_encryption`. Decryption starts at the bytes `buffer_reader_`
still has. -/
def updateReadEncryption (b : Binlog) : Binlog :=
  match b.encryptionType with
  | .none => { b with byteFlowFlag := false }
  | .aesCtr => { b with byteFlowFlag := true, input := { b.input with sink := [] } }

def updateWriteEncryption (b : Binlog) : Binlog :=
  { b with byteFlowFlag := b.encryptionType = .aesCtr }

def updateEncryption (key iv : Bytes) (b : Binlog) : Outcome Binlog := do
  check (key.length ≤ 32)
  let aesCtrKey := key ++ b.aesCtrKey.drop key.length
  check (iv.length ≤ 16)
  let aesCtrIv := iv ++ List.replicate (16 - iv.length) 0
  pure { b with aesCtrKey, aesCtrState := ⟨aesCtrKey, aesCtrIv, 0⟩ }

/-- The key `do_event` tries first for an encryption event. -/
def eventKey (c : Crypto) (event : AesCtrEncryptionEvent) (b : Binlog) : Outcome Bytes :=
  if b.aesCtrKeySalt = event.keySalt then pure b.aesCtrKey
  else if b.dbKey.isEmpty = false then event.generateKey c b.dbKey
  else pure []

/-- The key `do_event` uses for an encryption event. A key that does not
have the event's hash may be the old one. -/
def chooseKey (c : Crypto) (event : AesCtrEncryptionEvent) (b : Binlog) : Outcome (Bytes × Binlog) := do
  let key ← b.eventKey c event
  if AesCtrEncryptionEvent.generateHash c key ≠ event.keyHash then do
    check (b.state = .load)
    if b.oldDbKey.isEmpty = false then do
      let key ← event.generateKey c b.oldDbKey
      if AesCtrEncryptionEvent.generateHash c key ≠ event.keyHash then
        pure (key, { b with wrongPassword := true })
      else pure (key, b)
    else pure (key, { b with wrongPassword := true })
  else pure (key, { b with dbKeyUsed := true })

/-- `do_event` of an encryption event, once it has the key. -/
def switchEncryption (c : Crypto) (key : Bytes) (event : AesCtrEncryptionEvent) (b : Binlog) : Outcome Binlog := do
  let b ← updateEncryption key event.iv { b with encryptionType := .aesCtr, aesCtrKeySalt := event.keySalt }
  if b.state = .load then pure b.updateReadEncryption
  else do
    check (b.state = .reindex)
    pure (b.flush c).updateWriteEncryption

/-- `do_event` of an encryption event, up to the processor. -/
def doEncryptionEvent (c : Crypto) (event : BinlogEvent) (b : Binlog) : Outcome Binlog := do
  let (encryptionEvent, parser) := AesCtrEncryptionEvent.parse event.getData
  check (parser.error = none)
  let (key, b) ← b.chooseKey c encryptionEvent
  b.switchEncryption c key encryptionEvent

/-- The events counters of `do_event`. -/
def count (event : BinlogEvent) (b : Binlog) : Binlog :=
  { b with fdEvents := b.fdEvents + 1, fdSize := b.fdSize + event.rawEvent.length }

/-- `do_event` from the processor on. -/
def processEvent (event : BinlogEvent) (b : Binlog) : Outcome Binlog :=
  if b.state = .reindex then pure (b.count event)
  else
    let (processor, isOk) := b.processor.doEvent event
    let b := { b with processor }
    if isOk then pure (b.count event)
    else
      -- The event is refused. A log that is being loaded is cut there.
      let dataEmpty := b.debugGetBinlogDataEmpty b.fdSize b.disk.size
      if b.state = .load && dataEmpty then
        pure { b.file (.truncate b.fdSize.toNat) with input := { b.input with unread := [] } }
      else .fatal

/-- The beginning of `do_event`: what goes to the file goes to the buffer. -/
def writeEvent (c : Crypto) (event : BinlogEvent) (b : Binlog) : Outcome Binlog :=
  if b.state = .run ∨ b.state = .reindex then do
    check (event.validate c = true)
    pure { b with buffer := b.buffer ++ event.rawEvent }
  else pure b

/-- The part of `do_event` for service events. -/
def serviceEvent (c : Crypto) (event : BinlogEvent) (b : Binlog) : Outcome Binlog :=
  if event.type = aesCtrEncryption then b.doEncryptionEvent c event else pure b

def doEvent (c : Crypto) (event : BinlogEvent) (b : Binlog) : Outcome Binlog := do
  let b ← b.writeEvent c event
  let b ← b.serviceEvent c event
  b.processEvent event

def doAddEvent (c : Crypto) (event : BinlogEvent) (b : Binlog) : Outcome Binlog :=
  if hasFlag event.flags partialFlag then
    pure { b with pendingEvents := b.pendingEvents ++ [{ event with flags := clearFlag event.flags partialFlag }] }
  else do
    let b ← b.pendingEvents.foldlM (fun b e => b.doEvent c e) b
    { b with pendingEvents := [] }.doEvent c event

/-- The salt `reset_encryption` uses: a new one if none is kept. -/
def resetSalt (r : Entropy) (b : Binlog) : Bytes := if b.aesCtrKeySalt = [] then r.salt else b.aesCtrKeySalt

def resetKey (c : Crypto) (event : AesCtrEncryptionEvent) (b : Binlog) : Outcome Bytes :=
  if b.aesCtrKeySalt = event.keySalt then pure b.aesCtrKey else event.generateKey c b.dbKey

def resetEncryption (c : Crypto) (r : Entropy) (b : Binlog) : Outcome Binlog :=
  if b.dbKey.isEmpty then pure { b with encryptionType := .none }
  else do
    let event : AesCtrEncryptionEvent := ⟨b.resetSalt r, r.iv, []⟩
    let key ← b.resetKey c event
    let data ← { event with keyHash := AesCtrEncryptionEvent.generateHash c key }.store
    let raw ← BinlogEvent.createRaw c 0 aesCtrEncryption 0 data
    let event ← BinlogEvent.init raw
    b.doEvent c event

/-- `do_reindex` up to the writing of the first event. -/
def startReindex (b : Binlog) : Binlog :=
  { b.file .createNew with
    state := .reindex, fdNew := true, buffer := [], encryptionType := .none, byteFlowFlag := false,
    fdSize := 0, fdEvents := 0 }

/-- `do_reindex` after the last write. -/
def finishReindex (b : Binlog) : Outcome Binlog := do
  check (b.disk.path ≠ none)
  let b := b.file .unlinkPath
  let b : Binlog := { b.file .renameNew with fdNew := false }
  check (b.fdSize = b.disk.size)
  pure { b with state := .run, buffer := [] }.updateWriteEncryption

def doReindex (c : Crypto) (r : Entropy) (b : Binlog) : Outcome Binlog := do
  check (b.state = .run)
  let b ← b.startReindex.resetEncryption c r
  let events ← b.processor.forEach
  let b ← events.foldlM (fun b e => b.doEvent c e) b
  (b.flush c).finishReindex

/-- Whether the log is longer than `minSize`, and than `rate` times what it
would be after a reindex. -/
def needReindex (b : Binlog) (minSize rate : Int) : Bool :=
  b.fdSize > minSize && b.fdSize.tdiv rate > b.processor.totalRawEventsSize

/-- `add_event` up to its reindex. -/
def takeEvent (c : Crypto) (event : BinlogEvent) (b : Binlog) : Outcome Binlog := do
  check (event.size % 4 = 0)
  let b ← b.doAddEvent c event
  pure (b.lazyFlush c)

/-- The reindex of `add_event`. -/
def autoReindex (c : Crypto) (r : Entropy) (b : Binlog) : Outcome Binlog :=
  if b.state = .run &&
      (b.needReindex 50000 5 || b.needReindex 100000 4 || b.needReindex 300000 3 || b.needReindex 500000 2) then
    b.doReindex c r
  else pure b

def addEvent (c : Crypto) (r : Entropy) (event : BinlogEvent) (b : Binlog) : Outcome Binlog := do
  let b ← b.takeEvent c event
  b.autoReindex c r

/-! ## What callers use -/

def addRawEvent (c : Crypto) (r : Entropy) (rawEvent : Bytes) (b : Binlog) : Outcome Binlog := do
  let event ← BinlogEvent.init rawEvent
  b.addEvent c r event

/-- `next_event_id()`, on 64 bits. -/
def nextEventId (b : Binlog) : Nat × Binlog :=
  let id := (b.lastEventId + 1) % 2 ^ 64
  (id, { b with lastEventId := id })

/-- `add_raw_event` of what `create_raw` makes. -/
def addCreated (c : Crypto) (r : Entropy) (eventId : Nat) (type : Int) (flags : Nat) (data : Bytes) (b : Binlog) :
    Outcome Binlog := do
  let raw ← BinlogEvent.createRaw c eventId type flags data
  b.addRawEvent c r raw

def add (c : Crypto) (r : Entropy) (type : Int) (data : Bytes) (b : Binlog) : Outcome (Binlog × Nat) := do
  let (eventId, b) := b.nextEventId
  let b ← b.addCreated c r eventId type 0 data
  pure (b, eventId)

def rewrite (c : Crypto) (r : Entropy) (eventId : Nat) (type : Int) (data : Bytes) (b : Binlog) :
    Outcome (Binlog × Nat) := do
  let (seqNo, b) := b.nextEventId
  let b ← b.addCreated c r eventId type rewriteFlag data
  pure (b, seqNo)

def erase (c : Crypto) (r : Entropy) (eventId : Nat) (b : Binlog) : Outcome (Binlog × Nat) := do
  let (seqNo, b) := b.nextEventId
  let b ← b.addCreated c r eventId empty rewriteFlag []
  pure (b, seqNo)

def changeKey (c : Crypto) (r : Entropy) (newDbKey : DbKey) (b : Binlog) : Outcome Binlog :=
  { b with dbKey := newDbKey, aesCtrKeySalt := [] }.doReindex c r

/-- `close`: the files it leaves. -/
def close (c : Crypto) (b : Binlog) : Disk := (b.flush c).disk

/-- The steps of `destroy`. -/
def destroySteps : List FileStep := [.unlinkNew, .unlinkPath]

end Binlog

end Tdlib.Db
