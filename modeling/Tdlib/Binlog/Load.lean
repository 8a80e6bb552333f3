/-
Reading a binlog back: `BinlogReader`, `load_binlog` and `init`.
-/
import Tdlib.Binlog.Core

namespace Tdlib.Db

/-- What `read_next` returns: how much input it needs, an event, the error
with code -2 for a size that is not aligned, or another error. -/
inductive ReadNext
  | need (size : Nat)
  | event (event : BinlogEvent)
  | misaligned
  | error
  deriving DecidableEq, Repr

namespace Binlog

/-- The bytes in the reader's `input_`. -/
def available (b : Binlog) : Bytes := if b.byteFlowFlag then b.input.sink else b.input.bufferReader

/-- `cut_head` of the reader's `input_`. -/
def cutHead (size : Nat) (b : Binlog) : Binlog :=
  if b.byteFlowFlag then { b with input := { b.input with sink := b.input.sink.drop size } }
  else { b with input := { b.input with bufferReader := b.input.bufferReader.drop size } }

/-- `read_next` in the state `ReadEvent`. -/
def readEvent (c : Crypto) (size : Nat) (b : Binlog) : Outcome (ReadNext × Binlog) :=
  if b.available.length < size then pure (.need size, b)
  else do
    let event ← BinlogEvent.init (b.available.take size)
    let b := b.cutHead size
    if event.validate c then
      let offset := b.input.offset + size
      pure (.event { event with offset }, { b with input := { b.input with offset, readEvent := none } })
    else pure (.error, b)

def readNext (c : Crypto) (b : Binlog) : Outcome (ReadNext × Binlog) :=
  match b.input.readEvent with
  | some size => b.readEvent c size
  | none =>
    if b.available.length < 4 then pure (.need 4, b)
    else
      -- A negative size is above `MAX_SIZE` as a `size_t`, and as a bit pattern.
      let size := leNat (b.available.take 4)
      if size > maxSize then pure (.error, b)
      else if size < minSize then pure (.error, b)
      else if size % 4 ≠ 0 then pure (.misaligned, b)
      else { b with input := { b.input with readEvent := some size } }.readEvent c size

/-- `flush_read`, and the decryption of what was read. -/
def flushRead (c : Crypto) (maxRead : Nat) (b : Binlog) : Binlog :=
  let bytes := b.input.bufferReader ++ b.input.unread.take maxRead
  let unread := b.input.unread.drop maxRead
  if b.byteFlowFlag then
    { b with
      input := { b.input with unread, bufferReader := [], sink := b.input.sink ++ b.aesCtrState.encrypt c bytes }
      aesCtrState := b.aesCtrState.advance bytes.length }
  else { b with input := { b.input with unread, bufferReader := bytes } }

/-- The loop of `load_binlog`. -/
def loadLoop (c : Crypto) : Nat → Binlog → Outcome Binlog
  | 0, _ => .fatal
  | fuel + 1, b => do
    let (next, b) ← b.readNext c
    match next with
    | .misaligned =>
      let dataEmpty := b.debugGetBinlogDataEmpty b.input.offset b.disk.size
      let b := b.file (.truncate b.input.offset)
      if dataEmpty then pure b else .fatal
    | .error => pure b
    | .event event =>
      let b ← b.doAddEvent c event
      if b.wrongPassword then pure b else loadLoop c fuel b
    | .need size =>
      let b := b.flushRead c (max size 4096)
      if b.available.length < size then pure b else loadLoop c fuel b

/-- `load_binlog` before its loop. -/
def startLoad (b : Binlog) : Binlog :=
  { b with
    state := .load, buffer := []
    input := { unread := b.disk.path.getD [] }, wrongPassword := false }.updateReadEncryption

/-- `load_binlog` after its loop. -/
def finishLoad (b : Binlog) : Outcome (Binlog × List BinlogEvent) := do
  let offset := b.processor.offset
  Outcome.check (0 ≤ offset)
  let events ← b.processor.forEach
  let b : Binlog :=
    if offset ≠ b.disk.size then { b.file (.truncate offset.toNat) with dbKeyUsed := false } else b
  Outcome.check (b.fdSize = offset)
  pure ({ b with state := .run, buffer := [], input := {} }.updateWriteEncryption, events)

/-- `load_binlog`, with the events its callback gets. An iteration of the
loop that reads no event is followed by one that does or is the last one, so
that the fuel suffices. -/
def loadBinlog (c : Crypto) (b : Binlog) : Outcome (Binlog × List BinlogEvent) := do
  let b ← loadLoop c (b.disk.size + 8) b.startLoad
  if b.wrongPassword then pure (b, []) else b.finishLoad

/-- `init` before `load_binlog`: a regenerated log is restored if the log is
missing, and the file is opened. -/
def openBinlog (b : Binlog) : Binlog :=
  (if b.disk.path = none then b.file .renameNew else b).file .create

/-- Whether the log is not under `dbKey` yet. -/
def needRekey (b : Binlog) : Bool :=
  (!b.dbKey.isEmpty && !b.dbKeyUsed) || (b.dbKey.isEmpty && b.encryptionType ≠ .none)

/-- `init` after `load_binlog`. -/
def finishInit (c : Crypto) (r : Entropy) (b : Binlog) : Outcome Binlog :=
  if b.wrongPassword then .error "Wrong password"
  else
    let b : Binlog := { b with lastEventId := b.processor.lastEventId }
    if b.needRekey then { b with aesCtrKeySalt := [] }.doReindex c r else pure b

/-- `init` of a new `Binlog`, with the events its callback gets. -/
def init (c : Crypto) (r : Entropy) (disk : Disk) (dbKey oldDbKey : DbKey) : Outcome (Binlog × List BinlogEvent) := do
  let b : Binlog := { disk, dbKey, oldDbKey }
  let (b, events) ← b.openBinlog.loadBinlog c
  let b ← b.finishInit c r
  pure (b, events)

end Binlog

end Tdlib.Db
