/-
Updates with a QTS (`td/telegram/UpdatesManager.h`, `UpdatesManager.cpp`):
`add_pending_qts_update`, `process_pending_qts_updates`, and the ends of getDifference
that call it.

Each update brings the QTS up by one. One that comes early, or while getDifference
runs, waits in a map from its number; another with that number replaces it, and adds
its promise to those of the first.

Times are left out: of the timer for a gap only whether it runs is kept. The counters
that are only written to the log are left out too.
-/
import Tdlib.Updates.PtsUpdates

namespace Tdlib.Updates

open Outcome

structure PendingQtsUpdate where
  update : Update
  promises : List Nat
  deriving DecidableEq, Repr

/-- What is done outside. `processQtsUpdate` also sets the QTS, by `add_qts`. -/
inductive QtsAction
  | processQtsUpdate (update : Update) (qts : Int)
  | addQts (qts : Int)
  | confirmPtsQts (qts : Int)
  | scheduleGetDifference
  | setValue (promise : Nat)
  deriving DecidableEq, Repr

/-- The fields of `UpdatesManager` that are about the QTS, and what was done so far. -/
structure QtsUpdates where
  qts : Int
  runningGetDifference : Bool
  pending : List (Int × PendingQtsUpdate)
  hasQtsGapTimeout : Bool
  lastConfirmedQts : Int
  skippedPostponedUpdatesAfterStart : Nat
  actions : List QtsAction
  deriving DecidableEq, Repr

/-- `pending_qts_updates_[qts]`, with the update and the promise put there. -/
def park (update : Update) (qts : Int) (promise : Nat) :
    List (Int × PendingQtsUpdate) → List (Int × PendingQtsUpdate)
  | [] => [(qts, ⟨update, [promise]⟩)]
  | (key, p) :: rest =>
    if qts < key then (qts, ⟨update, [promise]⟩) :: (key, p) :: rest
    else if qts = key then (key, ⟨update, p.promises ++ [promise]⟩) :: rest
    else (key, p) :: park update qts promise rest

namespace QtsUpdates

def forcedGetDifferencePtsDiff : Int := 100000

/-- `1 << 30`: a QTS this far ahead is an old one. -/
def oldQtsDistance : Int := 1073741824

variable (s : QtsUpdates)

def act (action : QtsAction) : QtsUpdates := { s with actions := s.actions ++ [action] }

def setPromises (promises : List Nat) : QtsUpdates := { s with actions := s.actions ++ promises.map .setValue }

/-- `add_pts` of `PtsManager`. -/
def setQts (qts : Int) : QtsUpdates := if 0 < qts then { s with qts := qts } else s

def addQts (qts : Int) : QtsUpdates := (s.act (.addQts qts)).setQts qts

def confirmPtsQts (qts : Int) : QtsUpdates := { s.act (.confirmPtsQts qts) with lastConfirmedQts := qts }

def processQtsUpdate (update : Update) (qts : Int) (promises : List Nat) : QtsUpdates :=
  let s :=
    if s.lastConfirmedQts < qts - forcedGetDifferencePtsDiff ∧ s.lastConfirmedQts ≠ 0 then s.confirmPtsQts qts else s
  ((s.act (.processQtsUpdate update qts)).setQts qts).setPromises promises

/-- The loop of `process_pending_qts_updates`. -/
def processPending : List (Int × PendingQtsUpdate) → QtsUpdates → Outcome QtsUpdates
  | [], s => pure { s with pending := [] }
  | (qts, p) :: rest, s => do
    check (s.runningGetDifference = false)
    if s.qts < qts - 1 ∧ qts - oldQtsDistance ≤ s.qts then
      -- the update will be applied later
      pure { s with pending := (qts, p) :: rest }
    else if qts = s.qts + 1 then processPending rest (s.processQtsUpdate p.update qts p.promises)
    else processPending rest (s.setPromises p.promises)

def processPendingQtsUpdates : Outcome QtsUpdates :=
  if s.pending = [] then pure s
  else do
    let s' ← processPending s.pending s
    let appliedUpdateCount := s.pending.length - s'.pending.length
    let hasTimeout := if 0 < appliedUpdateCount then false else s'.hasQtsGapTimeout
    check (s'.runningGetDifference = false)
    pure { s' with hasQtsGapTimeout := if s'.pending = [] then hasTimeout else true }

/-- A QTS that is much smaller: the server has begun anew. -/
def restoreQts (qts : Int) : Outcome QtsUpdates :=
  if qts < s.qts - 1000009 then do
    let s := s.addQts (qts - 1)
    check (s.qts = qts - 1)
    pure { s with lastConfirmedQts := s.qts }
  else pure s

def postponeQtsUpdate (update : Update) (qts : Int) (promise : Nat) : QtsUpdates :=
  let s :=
    { s with hasQtsGapTimeout := s.hasQtsGapTimeout || (!s.runningGetDifference && s.pending.isEmpty) }
  -- `can_postpone_updates`
  if s.skippedPostponedUpdatesAfterStart = 0 then { s with pending := park update qts promise s.pending }
  else
    { s with skippedPostponedUpdatesAfterStart := s.skippedPostponedUpdatesAfterStart - 1 }.act (.setValue promise)

def addPendingQtsUpdate (update : Update) (qts : Int) (promise : Nat) : Outcome QtsUpdates :=
  if qts ≤ 1 then pure ((s.act .scheduleGetDifference).act (.setValue promise))
  else do
    let s ← s.restoreQts qts
    if qts ≤ s.qts then pure (s.act (.setValue promise))
    else if s.runningGetDifference = true ∨ (s.qts < qts - 1 ∧ 0 < s.qts) then
      pure (s.postponeQtsUpdate update qts promise)
    else (s.processQtsUpdate update qts [promise]).processPendingQtsUpdates

/-! ## getDifference -/

/-- An update with its QTS and its promise. -/
structure Arrival where
  update : Update
  qts : Int
  promise : Nat
  deriving DecidableEq, Repr

/-- The `other_updates` of a difference. -/
def processUpdates : List Arrival → QtsUpdates → Outcome QtsUpdates
  | [], s => pure s
  | a :: rest, s => do
    let s ← s.addPendingQtsUpdate a.update a.qts a.promise
    processUpdates rest s

/-- The QTS of a state, if it is used: it is not when the PTS is restored. -/
def setState (qts : Option Int) : QtsUpdates :=
  match qts with
  | some qts => s.addQts qts
  | none => s

def afterGetDifference : Outcome QtsUpdates := do
  check (s.runningGetDifference = false)
  { s with skippedPostponedUpdatesAfterStart := 0 }.processPendingQtsUpdates

/-- What a getDifference can end with. `again` is whether the next one was begun. -/
inductive Difference
  | empty
  | difference (updates : List Arrival) (qts : Option Int)
  /-- The next getDifference was begun while the updates of this one were processed. -/
  | interrupted (updates : List Arrival)
  | slice (updates : List Arrival) (qts : Option Int) (again : Bool)
  | tooLong (again : Bool)
  deriving DecidableEq, Repr

/-- The `switch` of `on_get_difference`. -/
def applyDifference : Difference → Outcome QtsUpdates
  | .empty => do
    let s ← s.processPendingQtsUpdates
    pure { s.setPromises (s.pending.flatMap fun p => p.2.promises) with pending := [] }
  | .difference updates qts => do
    let s ← processUpdates updates s
    pure (s.setState qts)
  | .interrupted updates => do
    let s ← processUpdates updates s
    pure { s with runningGetDifference := true }
  | .slice updates qts again => do
    let s ← processUpdates updates s
    let s ← (s.setState qts).processPendingQtsUpdates
    pure { s with runningGetDifference := again }
  | .tooLong again => pure { s with runningGetDifference := again }

def onGetDifference (difference : Difference) : Outcome QtsUpdates := do
  let s ← { s with runningGetDifference := false }.applyDifference difference
  if s.runningGetDifference = true then pure s else s.afterGetDifference

/-- `on_get_updates_state` when called from `getUpdatesState`. -/
def onGetUpdatesState (qts : Option Int) : Outcome QtsUpdates :=
  let s := s.setState qts
  if s.runningGetDifference = true then { s with runningGetDifference := false }.afterGetDifference else pure s

inductive Event
  | update (arrival : Arrival)
  | runGetDifference
  | onGetDifference (difference : Difference)
  | onGetUpdatesState (qts : Option Int)
  deriving DecidableEq, Repr

/-- One event. The answers of getDifference and getUpdatesState come while one of them runs. -/
def step : Event → Outcome QtsUpdates
  | .update a => s.addPendingQtsUpdate a.update a.qts a.promise
  | .runGetDifference => pure { s with runningGetDifference := true }
  | .onGetDifference difference => if s.runningGetDifference = true then s.onGetDifference difference else pure s
  | .onGetUpdatesState qts => if s.runningGetDifference = true then s.onGetUpdatesState qts else pure s

def run : List Event → QtsUpdates → Outcome QtsUpdates
  | [], s => pure s
  | event :: events, s => do
    let s ← s.step event
    run events s

end QtsUpdates

end Tdlib.Updates
