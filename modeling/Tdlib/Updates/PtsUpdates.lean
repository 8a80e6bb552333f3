/-
Updates with a PTS (`td/telegram/UpdatesManager.h`, `UpdatesManager.cpp`):
`add_pending_pts_update` and what it does with the updates that wait for a gap to be
filled.

An update brings the PTS from `pts - pts_count` to `pts`. Whether the updates that
wait fill the gap is not looked up among them, but told from two running totals:
the greatest PTS seen and the sum of the counts.

Times are left out: of the timer for a gap only whether it runs is kept. An update
is what the checks say of it; what is done with it is recorded. An `int32` is an
integer here; with the values of a server (below `2^30`) sums do not overflow.
-/
import Tdlib.Lib.Outcome

namespace Tdlib.Updates

open Outcome

/-- An update, with what `check_pts_update` and `is_acceptable_update` say of it. -/
structure Update where
  id : Nat
  isPtsUpdate : Bool
  isAcceptable : Bool
  deriving DecidableEq, Repr

structure PendingPtsUpdate where
  update : Update
  pts : Int
  ptsCount : Int
  promise : Nat
  deriving DecidableEq, Repr

/-- `operator<`. Of two updates with one PTS, the one with the greater count comes first. -/
def PendingPtsUpdate.before (u v : PendingPtsUpdate) : Bool :=
  if u.pts ≠ v.pts then decide (u.pts < v.pts) else decide (v.ptsCount < u.ptsCount)

/-- Where a call comes from, as far as it is asked for. -/
inductive Source
  | afterGetDifference
  | other
  deriving DecidableEq, Repr

/-- What is done outside. -/
inductive Action
  | processPtsUpdate (u : PendingPtsUpdate)
  | skipOldPendingPtsUpdate (u : PendingPtsUpdate)
  | setPts (pts : Int)
  | setValue (promise : Nat)
  deriving DecidableEq, Repr

/-- The fields of `UpdatesManager` that are about the PTS, and what was done so far. -/
structure PtsUpdates where
  pts : Int
  runningGetDifference : Bool
  pending : List PendingPtsUpdate
  postponed : List PendingPtsUpdate
  accumulatedPtsCount : Int
  accumulatedPts : Int
  hasPtsGapTimeout : Bool
  skippedPostponedUpdatesAfterStart : Nat
  sessionCount : Int
  actions : List Action
  deriving DecidableEq, Repr

/-- `emplace` of a multiset. -/
def insertUpdate (u : PendingPtsUpdate) : List PendingPtsUpdate → List PendingPtsUpdate
  | [] => [u]
  | v :: rest => if u.before v then u :: v :: rest else v :: insertUpdate u rest

namespace PtsUpdates

/-- `1 << 30`: a PTS this far ahead is an old one. -/
def oldPtsDistance : Int := 1073741824

/-- `1 << 21`: updates this far ahead are not kept after getDifference. -/
def maxPostponedDistance : Int := 2097152

def maxPts : Int := 2147483647

variable (s : PtsUpdates)

def act (action : Action) : PtsUpdates := { s with actions := s.actions ++ [action] }

def setPtsGapTimeout : PtsUpdates := { s with hasPtsGapTimeout := true }

def dropAllPendingPtsUpdates : PtsUpdates :=
  { s with accumulatedPtsCount := 0, accumulatedPts := -1, hasPtsGapTimeout := false, pending := [] }

def canPostponeUpdates : Bool × PtsUpdates :=
  if s.skippedPostponedUpdatesAfterStart = 0 then (true, s)
  else (false, { s with skippedPostponedUpdatesAfterStart := s.skippedPostponedUpdatesAfterStart - 1 })

def postponePtsUpdate (u : PendingPtsUpdate) : PtsUpdates :=
  let (canPostpone, s) := s.canPostponeUpdates
  if canPostpone = false ∨ (1 < u.ptsCount ∧ s.sessionCount ≤ 1) then s.act (.setValue u.promise)
  else { s with postponed := insertUpdate u s.postponed }

/-- `before_get_difference`: what waits is postponed. -/
def beforeGetDifference : PtsUpdates :=
  let pending := s.pending
  let (canPostpone, s) := s.canPostponeUpdates
  let s :=
    if canPostpone then { s with postponed := pending.foldl (fun postponed u => insertUpdate u postponed) s.postponed }
    else { s with actions := s.actions ++ pending.map fun u => .setValue u.promise }
  s.dropAllPendingPtsUpdates

/-- `add_pts` of `PtsManager`. -/
def addPts (pts : Int) : PtsUpdates := if 0 < pts then { s with pts := pts } else s

/-- `init_state` after the saved PTS was dropped. -/
def initState : PtsUpdates :=
  if s.runningGetDifference then s else { s with runningGetDifference := true }.beforeGetDifference

/-- `set_pts`. The PTS goes up, or drops far. -/
def setPts (pts : Int) : PtsUpdates :=
  let s := s.act (.setPts pts)
  if pts = maxPts then (s.addPts pts).initState
  else if s.pts < pts ∨ (0 < pts ∧ pts < s.pts - 1000009) then s.addPts pts
  else s

/-- The loop of `process_all_pending_pts_updates`. -/
def processAll : List PendingPtsUpdate → PtsUpdates → PtsUpdates
  | [], s => s
  | u :: rest, s => processAll rest ((s.act (.processPtsUpdate u)).act (.setValue u.promise))

def processAllPendingPtsUpdates : PtsUpdates :=
  ((processAll s.pending s).setPts s.accumulatedPts).dropAllPendingPtsUpdates

/-- What `process_pending_pts_updates` does with an update that begins at the PTS. -/
def applyPending (u : PendingPtsUpdate) : Outcome PtsUpdates :=
  if 0 < u.ptsCount then
    let s := (s.act (.processPtsUpdate u)).setPts u.pts
    if s.accumulatedPts ≠ -1 then do
      check (u.pts ≤ s.accumulatedPts)
      check (u.ptsCount ≤ s.accumulatedPtsCount)
      pure ({ s with accumulatedPtsCount := s.accumulatedPtsCount - u.ptsCount }.act (.setValue u.promise))
    else pure (s.act (.setValue u.promise))
  else pure (s.act (.setValue u.promise))

/-- The loop of `process_pending_pts_updates` over the updates that wait, and whether
it took any of them. -/
def processPending : List PendingPtsUpdate → PtsUpdates → Outcome (Bool × PtsUpdates)
  | [], s => pure (false, { s with pending := [] })
  | u :: rest, s =>
    if s.pts ≠ u.pts - u.ptsCount then pure (false, { s with pending := u :: rest })
    else do
      let s ← s.applyPending u
      let (_, s) ← processPending rest s
      pure (true, s)

def processPendingPtsUpdates : Outcome PtsUpdates := do
  let (isApplied, s) ← processPending s.pending s
  let s := if isApplied then { s with hasPtsGapTimeout := false } else s
  pure (if s.pending ≠ [] then s.setPtsGapTimeout else s)

/-- The totals with one more update. -/
def accumulate (u : PendingPtsUpdate) : PtsUpdates :=
  { s with
    accumulatedPtsCount := s.accumulatedPtsCount + u.ptsCount
    accumulatedPts := if s.accumulatedPts < u.pts then u.pts else s.accumulatedPts }

/-- An update that cannot be applied at once. -/
def addToPending (u : PendingPtsUpdate) : Outcome PtsUpdates := do
  let s := { s with pending := insertUpdate u s.pending }
  if s.pts < s.accumulatedPts - s.accumulatedPtsCount then
    -- some of the updates can be applied, if this one begins at the PTS
    if s.pts = u.pts - u.ptsCount then s.processPendingPtsUpdates else pure s.setPtsGapTimeout
  else do
    check (s.pts = s.accumulatedPts - s.accumulatedPtsCount)
    pure s.processAllPendingPtsUpdates

/-- An update that is counted in the totals. -/
def addCounted (u : PendingPtsUpdate) : Outcome PtsUpdates :=
  if s.accumulatedPts - s.accumulatedPtsCount < s.pts then pure (s.postponePtsUpdate u).setPtsGapTimeout
  else if s.pending = [] ∧ s.pts = s.accumulatedPts - s.accumulatedPtsCount ∧ s.hasPtsGapTimeout = false then
    if 0 < u.ptsCount then
      let s := (s.act (.processPtsUpdate u)).setPts s.accumulatedPts
      pure ({ s with accumulatedPtsCount := 0, accumulatedPts := -1 }.act (.setValue u.promise))
    else pure (s.act (.setValue u.promise))
  else s.addToPending u

/-- An update that is not old. -/
def addNew (u : PendingPtsUpdate) (source : Source) : Outcome PtsUpdates :=
  if s.runningGetDifference ∨ s.postponed ≠ [] then pure (s.postponePtsUpdate u)
  else if source = .afterGetDifference ∧ u.update.isAcceptable = false then pure (s.postponePtsUpdate u).setPtsGapTimeout
  else if u.pts - u.ptsCount < s.pts then pure (s.postponePtsUpdate u).setPtsGapTimeout
  else (s.accumulate u).addCounted u

/-- An update that passed the checks. -/
def addChecked (u : PendingPtsUpdate) (source : Source) : Outcome PtsUpdates :=
  let isFarBehind := decide (u.pts < s.pts - 99) && source != .afterGetDifference
  if isFarBehind ∧ s.pts = 2100000000 ∧ u.pts < 1100000000 ∧ u.ptsCount ≤ 10000 ∧ 1 < s.sessionCount then
    pure ((s.setPts 1).setPtsGapTimeout.act (.setValue u.promise))
  else
    let s := if isFarBehind ∧ u.pts < s.pts - 19999 then s.setPtsGapTimeout else s
    if u.pts ≤ s.pts ∨ (1 ≤ s.pts ∧ s.pts < u.pts - oldPtsDistance) then
      pure ((s.act (.skipOldPendingPtsUpdate u)).act (.setValue u.promise))
    else if source = .afterGetDifference ∧ 1 ≤ s.pts ∧ s.pts < u.pts - maxPostponedDistance then
      pure (s.act (.setValue u.promise))
    else s.addNew u source

def addPendingPtsUpdate (u : PendingPtsUpdate) (source : Source) : Outcome PtsUpdates :=
  if u.ptsCount < 0 ∨ u.pts ≤ u.ptsCount then pure (s.act (.setValue u.promise))
  else if u.update.isPtsUpdate = false then pure (s.act (.setValue u.promise))
  else s.addChecked u source

/-- Call after call. -/
def run : List (PendingPtsUpdate × Source) → PtsUpdates → Outcome PtsUpdates
  | [], s => pure s
  | (u, source) :: calls, s => do
    let s ← s.addPendingPtsUpdate u source
    run calls s

end PtsUpdates

end Tdlib.Updates
