/-
The parts of a file that is transferred (`td/telegram/files/PartsManager.h`,
`PartsManager.cpp`).

The size of the file is given, or it is found out while parts of fixed size come
back: a short part bounds it from above, every byte bounds it from below.
Streaming moves the place from which parts are requested and limits how much is
requested from there on, around the end of the file.

Sums and products of an `int64` are exact. A failed assertion is `fatal`. After an
error the transfer is given up; what `on_part_ok` leaves of the manager then is in
`onPartOkStatus`, and what the other calls leave is not looked at.
-/
import Tdlib.Files.Bitmask

namespace Tdlib.Files

open Outcome

structure Part where
  id : Int
  offset : Nat
  size : Nat
  deriving DecidableEq, Repr

inductive PartStatus
  | empty
  | pending
  | ready
  deriving DecidableEq, Repr

/-- The fields of `PartsManager`, for files whose size is final: the prefix of a
file that is still being generated is not modelled. -/
structure PartsManager where
  isUpload : Bool
  needCheck : Bool
  checkedPrefixSize : Nat
  size : Nat
  expectedSize : Nat
  minSize : Nat
  maxSize : Nat
  unknownSizeFlag : Bool
  readySize : Nat
  streamingReadySize : Nat
  partSize : Nat
  partCount : Nat
  pendingCount : Int
  firstEmptyPart : Nat
  firstNotReadyPart : Nat
  streamingOffset : Nat
  streamingLimit : Int
  firstStreamingEmptyPart : Nat
  firstStreamingNotReadyPart : Nat
  partStatus : List PartStatus
  bitmask : Bitmask
  usePartCountLimit : Bool
  deriving DecidableEq

namespace PartsManager

def maxPartCount : Nat := 4000
def maxPartCountPremium : Nat := 8000
def maxPartSize : Nat := 512 * 1024
def maxFileSize : Nat := maxPartSize * maxPartCountPremium

/-- `std::numeric_limits<int64>::max()`, the bound of a size that nothing is known of. -/
def noMaxSize : Nat := 2 ^ 63 - 1

/-- `calc_part_count`, of a `part_size` that is not zero. -/
def calcPartCount (size partSize : Nat) : Nat := (size + partSize - 1) / partSize

variable (s : PartsManager)

/-! ## Parts -/

def getEmptyPart : Part := ⟨-1, 0, 0⟩

/-- What is known of the end of the file. -/
def totalSize : Nat := if s.unknownSizeFlag then s.maxSize else s.size

def getPart (partId : Nat) : Part :=
  let offset := s.partSize * partId
  ⟨partId, offset, if s.totalSize < offset then 0 else min s.partSize (s.totalSize - offset)⟩

/-- `part_status_[part_id]`. -/
def status (partId : Nat) : PartStatus := s.partStatus.getD partId .empty

def setStatus (partId : Nat) (status : PartStatus) : PartsManager :=
  { s with partStatus := s.partStatus.set partId status }

def getSize : Outcome Nat := do
  check (s.unknownSizeFlag = false)
  pure s.size

/-! ## The first part that is not there -/

/-- Where `while (i < part_count_ && p(part_status_[i])) i++` stops. -/
def skipParts (p : PartStatus → Bool) (i : Nat) : Nat :=
  i + (((s.partStatus.take s.partCount).drop i).takeWhile p).length

def updateFirstEmptyPart : PartsManager :=
  let firstEmptyPart := s.skipParts (· != .empty) s.firstEmptyPart
  { s with
    firstEmptyPart := firstEmptyPart
    firstStreamingEmptyPart :=
      if s.streamingOffset = 0 then firstEmptyPart else s.skipParts (· != .empty) s.firstStreamingEmptyPart }

def updateFirstNotReadyPart : PartsManager :=
  let firstNotReadyPart := s.skipParts (· == .ready) s.firstNotReadyPart
  { s with
    firstNotReadyPart := firstNotReadyPart
    firstStreamingNotReadyPart :=
      if s.streamingOffset = 0 then firstNotReadyPart else s.skipParts (· == .ready) s.firstStreamingNotReadyPart }

def getUncheckedReadyPrefixCount : Nat × PartsManager :=
  let s := s.updateFirstNotReadyPart
  (s.firstNotReadyPart, s)

/-- The parts in the checked prefix, as an `int32`. -/
def getCheckedParts : Outcome Nat := do
  let checkedParts := s.checkedPrefixSize / s.partSize
  check (checkedParts < 2 ^ 31)
  pure checkedParts

def getReadyPrefixCount : Outcome (Nat × PartsManager) := do
  let (res, s) := s.getUncheckedReadyPrefixCount
  if s.needCheck then do
    let checkedParts ← s.getCheckedParts
    pure (if checkedParts < res then checkedParts else res, s)
  else pure (res, s)

def getUncheckedReadyPrefixSize : Nat × PartsManager :=
  let s := s.updateFirstNotReadyPart
  let count := s.firstNotReadyPart
  if count = 0 then (0, s)
  else
    let part := s.getPart (count - 1)
    (if s.unknownSizeFlag then part.offset else min (part.offset + part.size) s.size, s)

def getBitmask : Outcome (Bytes × Bitmask) :=
  if s.needCheck then do
    let prefixCount ← s.getCheckedParts
    s.bitmask.encode prefixCount
  else s.bitmask.encode (-1)

/-! ## Streaming -/

/-- `is_part_in_streaming_limit`, without its assertion. -/
def inStreamingLimit (partId : Nat) : Bool :=
  let part := s.getPart partId
  let offsetBegin : Int := part.offset
  let offsetEnd : Int := part.offset + part.size
  let streamingBegin : Int := s.streamingOffset
  let streamingEnd : Int := s.streamingOffset + s.streamingLimit
  let isIntersectWith (first last : Int) : Bool := max first offsetBegin < min last offsetEnd
  s.streamingLimit = 0 || isIntersectWith streamingBegin streamingEnd ||
    -- the limit goes on at the beginning of the file
    (!s.unknownSizeFlag && decide ((s.size : Int) < streamingEnd) && isIntersectWith 0 (streamingEnd - s.size))

def isPartInStreamingLimit (partId : Nat) : Outcome Bool := do
  check (partId < s.partCount)
  pure (s.inStreamingLimit partId)

/-- The loops of `set_streaming_limit` and of `get_estimated_extra`: how much of
what the limit asks for is there. -/
def sumStreamingReady : Outcome Nat :=
  (List.range s.partCount).foldlM (fun sum partId => do
    let isInLimit ← s.isPartInStreamingLimit partId
    pure (if isInLimit && s.status partId == .ready then sum + (s.getPart partId).size else sum)) 0

def setStreamingLimit (limit : Int) : Outcome PartsManager :=
  let s := { s with streamingLimit := limit, streamingReadySize := 0 }
  if s.streamingLimit = 0 then pure s
  else do
    let sum ← s.sumStreamingReady
    pure { s with streamingReadySize := sum }

/-- The end of `set_streaming_offset`. -/
def finishStreamingOffset (limit : Int) : Outcome (Nat × PartsManager) := do
  let s ← s.setStreamingLimit limit
  let s := s.updateFirstNotReadyPart
  pure (s.firstStreamingNotReadyPart, s)

/-- `set_streaming_offset`. The message about an offset that is ignored shows the
size, which `get_size` has to know. -/
def setStreamingOffset (offset limit : Int) : Outcome (Nat × PartsManager) :=
  if offset < 0 ∨ s.needCheck ∨ (s.unknownSizeFlag = false ∧ (s.size : Int) < offset) then do
    check (offset = 0 ∨ s.unknownSizeFlag = false)
    { s with streamingOffset := 0 }.finishStreamingOffset limit
  else
    let partId := offset.toNat / s.partSize
    if s.usePartCountLimit ∧ maxPartCountPremium ≤ partId then
      { s with streamingOffset := 0 }.finishStreamingOffset limit
    else do
      check (partId < 2 ^ 31)
      finishStreamingOffset
        { s with
          streamingOffset := offset.toNat
          firstStreamingEmptyPart := partId
          firstStreamingNotReadyPart := partId
          partCount := max s.partCount partId
          partStatus := s.partStatus ++ List.replicate (partId - s.partCount) .empty } limit

/-! ## Sizes -/

def getExpectedSize : Nat :=
  if s.unknownSizeFlag then min (max (s.minSize + 512 * 1024) (s.readySize * 2)) s.maxSize else s.size

def roundUp (size : Nat) : Nat := (size + s.partSize - 1) / s.partSize * s.partSize

/-- `streaming_size` of `get_estimated_extra`: how much the limit asks for. -/
def streamingSize : Int :=
  let streamingBegin := s.streamingOffset / s.partSize * s.partSize
  let streamingEnd := s.streamingOffset + s.streamingLimit.toNat
  if s.unknownSizeFlag then
    ((min (s.roundUp streamingEnd) s.maxSize : Nat) : Int) - (min streamingBegin s.maxSize : Nat)
  else if streamingEnd ≤ s.size then ((min (s.roundUp streamingEnd) s.size : Nat) : Int) - streamingBegin
  else if s.streamingOffset < s.size then
    let first : Int := (min (s.roundUp (streamingEnd - s.size)) s.size : Nat)
    let last : Int := (s.size : Int) - streamingBegin
    min (s.size : Int) (first + last)
  else 0

/-- `get_estimated_extra`, for a limit that is not negative. -/
def getEstimatedExtra : Outcome Int :=
  if s.streamingLimit ≠ 0 then do
    let sub ← s.sumStreamingReady
    check (sub = s.streamingReadySize)
    let res := s.streamingSize - s.streamingReadySize
    check (0 ≤ res)
    pure res
  else pure ((s.getExpectedSize : Int) - s.readySize)

/-! ## The end of the transfer -/

def uncheckedReady : Bool := !s.unknownSizeFlag && s.readySize == s.size

def ready : Bool := s.uncheckedReady && (!s.needCheck || s.checkedPrefixSize == s.size)

/-- The part `is_streaming_limit_reached` looks at: the first one behind the offset
that is not there, or else the first one of the file. -/
def nextNotReadyPart : Nat :=
  if s.unknownSizeFlag = false ∧ s.firstStreamingNotReadyPart = s.partCount then s.firstNotReadyPart
  else s.firstStreamingNotReadyPart

def isPartOutsideLimit (partId : Nat) : Outcome Bool :=
  if partId = s.partCount then pure true
  else do
    let isInLimit ← s.isPartInStreamingLimit partId
    pure (!isInLimit)

def isStreamingLimitReached : Outcome (Bool × PartsManager) :=
  if s.streamingLimit = 0 then pure (false, s)
  else do
    let s := s.updateFirstNotReadyPart
    let partId := s.nextNotReadyPart
    let isOutside ← s.isPartOutsideLimit partId
    if isOutside then do
      let extra ← s.getEstimatedExtra
      pure (extra == 0, s)
    else pure (false, s)

def mayFinish : Outcome (Bool × PartsManager) := do
  let (isReached, s) ← s.isStreamingLimitReached
  pure (isReached || s.ready, s)

def finish : Outcome PartsManager :=
  if s.ready then pure s
  else do
    let (isReached, _) ← s.isStreamingLimitReached
    .error (if isReached then "FILE_DOWNLOAD_LIMIT" else "File transferring not finished")

/-! ## Transfer of a part -/

/-- How many parts a file of unknown size may have. -/
def partLimit : Nat := maxPartCountPremium + (if s.usePartCountLimit then 0 else 64)

/-- The part `start_part` is about, with an empty one added behind the others if
that may be there. -/
def choosePart : Outcome (Option Nat × PartsManager) :=
  let s := s.updateFirstEmptyPart
  let partId := s.firstStreamingEmptyPart
  if partId = s.partCount then
    if s.unknownSizeFlag then
      let s := { s with partCount := s.partCount + 1 }
      if s.partLimit < s.partCount then
        .error (if s.isUpload then "Too big file with unknown size" else "FILE_DOWNLOAD_RESTART_INCREASE_PART_SIZE")
      else .ok (some partId, { s with partStatus := s.partStatus ++ [.empty] })
    else if s.firstEmptyPart < s.partCount then .ok (some s.firstEmptyPart, s)
    else .ok (none, s)
  else .ok (some partId, s)

def onPartStart (partId : Nat) : Outcome PartsManager := do
  check (s.status partId = .empty)
  pure { s.setStatus partId .pending with pendingCount := s.pendingCount + 1 }

def startPart : Outcome (Part × PartsManager) := do
  let (choice, s) ← s.choosePart
  match choice with
  | none => pure (getEmptyPart, s)
  | some partId =>
    let isInLimit ← s.isPartInStreamingLimit partId
    if !isInLimit || decide (s.totalSize ≤ partId * s.partSize) then pure (getEmptyPart, s)
    else do
      check (s.status partId = .empty)
      let s ← s.onPartStart partId
      pure (s.getPart partId, s)

/-- The mask with a part that has come, unless there was nothing in it. -/
def markPart (partId actualSize : Nat) : Outcome Bitmask :=
  if actualSize ≠ 0 then s.bitmask.set partId else pure s.bitmask

def countsForLimit (partId : Nat) : Outcome Bool :=
  if 0 < s.streamingLimit then s.isPartInStreamingLimit partId else pure false

/-- How `on_part_ok` counts a part that has come. -/
def countPart (partId actualSize : Nat) : Outcome PartsManager := do
  check (partId < s.partStatus.length)
  check (s.status partId = .pending)
  let s := { s.setStatus partId .ready with pendingCount := s.pendingCount - 1 }
  let bitmask ← s.markPart partId actualSize
  let s := { s with bitmask := bitmask, readySize := s.readySize + actualSize }
  let isInLimit ← s.countsForLimit partId
  pure (if isInLimit then { s with streamingReadySize := s.streamingReadySize + actualSize } else s)

def tag (name : String) (value : Nat) : String := "[" ++ name ++ ":" ++ toString value ++ "]"

/-- A short part is the last one, unless an earlier end is known. -/
def isShortPart (partId actualSize : Nat) : Bool :=
  decide (actualSize < s.partSize ∧ s.partSize * partId + actualSize < s.maxSize)

def newMaxSize (partId actualSize : Nat) : Nat :=
  if s.isShortPart partId actualSize then s.partSize * partId + actualSize else s.maxSize

def newMinSize (partId actualSize : Nat) : Nat :=
  if actualSize ≠ 0 then max s.minSize (s.partSize * partId + actualSize) else s.minSize

/-- The size is found when its bounds meet. -/
def meetBounds : PartsManager :=
  if s.minSize = s.maxSize then { s with unknownSizeFlag := false, size := s.minSize } else s

/-- The end of `on_part_ok`, while the size is not known. -/
def boundSize (partId partSize actualSize : Nat) : Outcome (Option String × PartsManager) := do
  check (partSize = s.partSize)
  let isShort := s.isShortPart partId actualSize
  let s := { s with minSize := s.newMinSize partId actualSize, maxSize := s.newMaxSize partId actualSize }
  if s.maxSize < s.minSize then
    pure (some ("Failed to transfer file: " ++ tag "min_size" s.minSize ++ tag "max_size" s.maxSize), s)
  else if (isShort || s.minSize == s.maxSize) && s.streamingLimit != 0 then do
    let s ← s.meetBounds.setStreamingLimit s.streamingLimit
    pure (none, s)
  else pure (none, s.meetBounds)

/-- `on_part_ok`: the error that it returns, if any, and the manager that it leaves. A part
is counted before its size is looked at. -/
def onPartOkStatus (partId partSize actualSize : Nat) : Outcome (Option String × PartsManager) := do
  let s ← s.countPart partId actualSize
  let offset := s.partSize * partId
  if s.unknownSizeFlag then s.boundSize partId partSize actualSize
  else if (actualSize < partSize ∧ offset < s.size) ∨ (s.size ≤ offset ∧ 0 < actualSize) then
    pure (some ("Failed to transfer file: " ++ tag "size" s.size ++ tag "offset" offset ++
      tag "transferred size" actualSize ++ tag "part size" partSize), s)
  else pure (none, s)

/-- `on_part_ok` in a transfer that an error ends. -/
def onPartOk (partId partSize actualSize : Nat) : Outcome PartsManager := do
  let (status, s) ← s.onPartOkStatus partId partSize actualSize
  match status with
  | none => pure s
  | some message => .error message

def onPartFailed (partId : Nat) : Outcome PartsManager := do
  check (s.status partId = .pending)
  let s := { s.setStatus partId .empty with
    pendingCount := s.pendingCount - 1
    firstEmptyPart := if partId < s.firstEmptyPart then partId else s.firstEmptyPart }
  if s.streamingOffset = 0 then pure { s with firstStreamingEmptyPart := partId }
  else do
    let offsetPartId := s.streamingOffset / s.partSize
    check (offsetPartId < 2 ^ 31)
    pure (if offsetPartId ≤ partId ∧ partId < s.firstStreamingEmptyPart then
        { s with firstStreamingEmptyPart := partId }
      else s)

/-! ## The beginning -/

/-- The loops that look for a part size. Five sizes are tried, so that there is
always enough of `fuel`. -/
def growPartSize (expectedSize : Nat) : Nat → Nat → Nat
  | 0, partSize => partSize
  | fuel + 1, partSize =>
    if partSize < maxPartSize ∧ maxPartCount < calcPartCount expectedSize partSize then
      growPartSize expectedSize fuel (partSize * 2)
    else partSize

/-- A part that is there at the beginning. -/
def restorePart (partId : Nat) : Outcome PartsManager := do
  ensure (¬ (s.isUpload ∧ s.partCount ≤ partId)) "FILE_UPLOAD_RESTART"
  check (partId < s.partCount)
  let bitmask ← s.bitmask.set partId
  pure { s.setStatus partId .ready with bitmask := bitmask, readySize := s.readySize + (s.getPart partId).size }

/-- `init_common`. The count of parts is an `int`, and so many are made. -/
def initCommon (readyParts : List Nat) : Outcome PartsManager := do
  check (s.partCount < 2 ^ 31)
  let s := { s with partStatus := List.replicate s.partCount .empty }
  let s ← readyParts.foldlM (fun s partId => s.restorePart partId) s
  let (count, s) ← s.getReadyPrefixCount
  pure { s with checkedPrefixSize := count * s.partSize }

def initNoSize (partSize : Nat) (readyParts : List Nat) : Outcome PartsManager :=
  let default :=
    let partSize := growPartSize s.expectedSize 4 (32 * 1024)
    -- just in case the expected size is wrong
    if partSize < maxPartSize then partSize * 2 else partSize
  initCommon
    { s with
      unknownSizeFlag := true
      maxSize := noMaxSize
      partSize := if partSize ≠ 0 then partSize else default
      partCount := readyParts.foldl (fun count partId => max count (partId + 1)) 0 } readyParts

/-- The end of `init`, for a size that is known. -/
def initSize (partSize : Nat) (readyParts : List Nat) : Outcome PartsManager := do
  if partSize ≠ 0 ∧ s.usePartCountLimit ∧ partSize < maxPartSize ∧
      maxPartCount < calcPartCount s.expectedSize partSize then do
    check s.isUpload
    .error "FILE_UPLOAD_RESTART"
  else do
    let partSize := if partSize ≠ 0 then partSize else growPartSize s.expectedSize 3 (64 * 1024)
    check (s.usePartCountLimit = false ∨ calcPartCount s.expectedSize partSize ≤ maxPartCountPremium)
    { s with partSize := partSize, partCount := calcPartCount s.size partSize }.initCommon readyParts

/-- A manager before `init`. -/
def fresh : PartsManager :=
  { isUpload := false, needCheck := false, checkedPrefixSize := 0, size := 0, expectedSize := 0, minSize := 0,
    maxSize := 0, unknownSizeFlag := false, readySize := 0, streamingReadySize := 0, partSize := 0, partCount := 0,
    pendingCount := 0, firstEmptyPart := 0, firstNotReadyPart := 0, streamingOffset := 0, streamingLimit := 0,
    firstStreamingEmptyPart := 0, firstStreamingNotReadyPart := 0, partStatus := [], bitmask := ⟨[]⟩,
    usePartCountLimit := false }

/-- `init`, with `is_size_final`. -/
def init (size expectedSize partSize : Nat) (readyParts : List Nat) (usePartCountLimit isUpload : Bool) :
    Outcome PartsManager := do
  check (size ≤ expectedSize)
  let s := { fresh with isUpload := isUpload, usePartCountLimit := usePartCountLimit, expectedSize := expectedSize }
  ensure (expectedSize ≤ maxFileSize) "Too big file"
  if size = 0 then s.initNoSize partSize readyParts
  else initSize { s with size := size } partSize readyParts

end PartsManager

end Tdlib.Files
