/-
Runs of the QTS updates: updates are processed in turn, no promise is lost, and when no
getDifference runs nothing waits that could be processed (`qts_updates_in_turn`).

The QTS moves by the updates processed, by the states of getDifference, and back when the
server begins anew. As long as it does not move back (`NotSetBack`), no number is
processed twice.
-/
import Tdlib.Updates.QtsUpdates

namespace Tdlib.Updates

open QtsUpdates
open List hiding getD
open Outcome

/-- The QTS after an action. -/
def QtsAction.next (qts : Int) : QtsAction → Int
  | .processQtsUpdate _ next => if 0 < next then next else qts
  | .addQts next => if 0 < next then next else qts
  | _ => qts

/-- The QTS after some actions. -/
def counter (qts : Int) (actions : List QtsAction) : Int := actions.foldl QtsAction.next qts

/-- The numbers of the updates that were processed. -/
def processed (actions : List QtsAction) : List Int :=
  actions.filterMap fun
    | .processQtsUpdate _ qts => some qts
    | _ => none

/-- The promises that were completed. -/
def completed (actions : List QtsAction) : List Nat :=
  actions.filterMap fun
    | .setValue promise => some promise
    | _ => none

/-- The promises of the updates that wait. -/
def attached (pending : List (Int × PendingQtsUpdate)) : List Nat := pending.flatMap fun p => p.2.promises

/-- Each update is processed when the QTS is just below it. -/
def InTurn (qts : Int) : List QtsAction → Prop
  | [] => True
  | action :: actions => (∀ update next, action = .processQtsUpdate update next → qts = next - 1) ∧
    InTurn (action.next qts) actions

/-- The QTS is not set back: no state of getDifference is behind it, and the server does
not begin anew. -/
def Forward (qts : Int) : List QtsAction → Prop
  | [] => True
  | action :: actions => (∀ next, action = .addQts next → 0 < next → qts ≤ next) ∧ Forward (action.next qts) actions

variable {first : Int} {actions more : List QtsAction}

theorem inTurn_append :
    InTurn first (actions ++ more) ↔ InTurn first actions ∧ InTurn (counter first actions) more := by
  induction actions generalizing first with
  | nil => simp [InTurn, counter]
  | cons action actions ih => simp [InTurn, counter, ih, and_assoc]

theorem forward_append :
    Forward first (actions ++ more) ↔ Forward first actions ∧ Forward (counter first actions) more := by
  induction actions generalizing first with
  | nil => simp [Forward, counter]
  | cons action actions ih => simp [Forward, counter, ih, and_assoc]

/-- The numbers of a map go up. -/
def Sorted (pending : List (Int × PendingQtsUpdate)) : Prop := pending.Pairwise fun p r => p.1 < r.1

variable {update : Update} {qts : Int} {promise : Nat} {pending : List (Int × PendingQtsUpdate)}

theorem key_of_mem_park {p : Int × PendingQtsUpdate} (hp : p ∈ park update qts promise pending) :
    p.1 = qts ∨ ∃ r ∈ pending, r.1 = p.1 := by
  induction pending with
  | nil => simp_all [park]
  | cons r rest ih =>
    rw [park] at hp
    split at hp
    · grind
    · split at hp <;> grind

theorem sorted_park (h : Sorted pending) : Sorted (park update qts promise pending) := by
  induction pending with
  | nil => simp [park, Sorted]
  | cons r rest ih =>
    obtain ⟨hfirst, hrest⟩ := pairwise_cons.mp h
    rw [park]
    split
    · exact pairwise_cons.mpr ⟨by grind, h⟩
    · split
      · exact pairwise_cons.mpr ⟨hfirst, hrest⟩
      · refine pairwise_cons.mpr ⟨?_, ih hrest⟩
        intro p hp
        have := key_of_mem_park hp
        grind

theorem attached_park : (attached (park update qts promise pending)).Perm (promise :: attached pending) := by
  induction pending with
  | nil => exact List.Perm.refl _
  | cons r rest ih =>
    rw [park]
    split
    · exact List.Perm.refl _
    · split
      · simp [attached]
      · exact (ih.append_left r.2.promises).trans perm_middle

namespace QtsUpdates

variable {s s' : QtsUpdates} {passed : List Nat} {fwd : Prop}

/-! ## What every call keeps -/

/-- What holds when `pending` waits and the promises `passed` have come; `fwd` is that
the QTS is not set back. -/
structure Inv (first : Int) (fwd : Prop) (s : QtsUpdates) (pending : List (Int × PendingQtsUpdate))
    (passed : List Nat) : Prop where
  pos : 0 < s.qts
  qts_eq : s.qts = counter first s.actions
  inTurn : InTurn first s.actions
  forward : fwd → Forward first s.actions
  sorted : Sorted pending
  promises : passed.Perm (completed s.actions ++ attached pending)

/-- Nothing waits that could be processed. -/
def Drained (s : QtsUpdates) : Prop := ∀ p ∈ s.pending, s.qts + 1 < p.1

/-- **Some actions**, with which promises come or are completed. -/
theorem Inv.acts (h : s.Inv first fwd pending passed) {rest : List (Int × PendingQtsUpdate)} {came : List Nat}
    (hactions : s'.actions = s.actions ++ actions) (hqts : s'.qts = counter s.qts actions) (hpos : 0 < s'.qts)
    (hturn : InTurn s.qts actions) (hforward : fwd → Forward s.qts actions) (hsorted : Sorted rest)
    (hperm : (attached pending ++ came).Perm (completed actions ++ attached rest)) :
    s'.Inv first fwd rest (passed ++ came) where
  pos := hpos
  qts_eq := by rw [hqts, hactions, h.qts_eq, counter, counter, counter, foldl_append]
  inTurn := by
    rw [hactions, inTurn_append, ← h.qts_eq]
    exact ⟨h.inTurn, hturn⟩
  forward := by
    intro hfwd
    rw [hactions, forward_append, ← h.qts_eq]
    exact ⟨h.forward hfwd, hforward hfwd⟩
  sorted := hsorted
  promises := by
    rw [hactions, completed, filterMap_append, append_assoc]
    exact (h.promises.append_right came).trans (by rw [append_assoc]; exact hperm.append_left _)

theorem completed_setValue (promises : List Nat) : completed (promises.map .setValue) = promises := by
  rw [completed, filterMap_map]
  exact filterMap_some

theorem idle_setValue (qts : Int) (promises : List Nat) :
    counter qts (promises.map .setValue) = qts ∧ InTurn qts (promises.map .setValue) ∧
      Forward qts (promises.map .setValue) := by
  induction promises with
  | nil => exact ⟨rfl, trivial, trivial⟩
  | cons promise promises ih => exact ⟨ih.1, ⟨by simp, ih.2.1⟩, by simp, ih.2.2⟩

section

variable (h : s.Inv first fwd pending passed)

include h

theorem Inv.setPromises {rest : List (Int × PendingQtsUpdate)} (promises came : List Nat) (hsorted : Sorted rest)
    (hperm : (attached pending ++ came).Perm (promises ++ attached rest)) :
    (s.setPromises promises).Inv first fwd rest (passed ++ came) := by
  obtain ⟨hcounter, hturn, hforward⟩ := idle_setValue s.qts promises
  exact h.acts rfl hcounter.symm h.pos hturn (fun _ => hforward) hsorted (by rwa [completed_setValue])

theorem Inv.setValue (promise : Nat) : (s.act (.setValue promise)).Inv first fwd pending (passed ++ [promise]) :=
  h.setPromises [promise] [promise] h.sorted perm_append_comm

theorem Inv.park (update : Update) (qts : Int) (promise : Nat) :
    s.Inv first fwd (park update qts promise pending) (passed ++ [promise]) :=
  h.acts (append_nil _).symm rfl h.pos trivial (fun _ => trivial) (sorted_park h.sorted)
    ((perm_append_singleton _ _).trans attached_park.symm)

theorem Inv.act (action : QtsAction) (hturn : InTurn s.qts [action])
    (hpos : 0 < action.next s.qts) (hforward : fwd → Forward s.qts [action]) (hcompleted : completed [action] = []) :
    Inv first fwd { s with qts := action.next s.qts, actions := s.actions ++ [action] } pending passed := by
  have hacts : Inv first fwd { s with qts := action.next s.qts, actions := s.actions ++ [action] } pending
      (passed ++ []) := h.acts rfl rfl hpos hturn hforward h.sorted (by simp [hcompleted])
  simpa using hacts

theorem Inv.addQts (qts : Int) (hforward : fwd → 0 < qts → s.qts ≤ qts) :
    (s.addQts qts).Inv first fwd pending passed := by
  have hpos := h.pos
  have hinv := h.act (.addQts qts) ⟨by simp, trivial⟩ (by simp only [QtsAction.next]; split <;> omega)
    (fun hfwd => ⟨by grind, trivial⟩) rfl
  unfold QtsUpdates.addQts setQts
  split <;> simp_all [QtsAction.next, QtsUpdates.act]

end

/-- `process_qts_update` up to its promises. -/
def begun (s : QtsUpdates) (update : Update) (qts : Int) : QtsUpdates :=
  let s :=
    if s.lastConfirmedQts < qts - forcedGetDifferencePtsDiff ∧ s.lastConfirmedQts ≠ 0 then s.confirmPtsQts qts else s
  (s.act (.processQtsUpdate update qts)).setQts qts

/-- The update in turn is processed; its promises are still to be completed. -/
theorem Inv.begun (h : s.Inv first fwd pending passed) (update : Update) (hnext : qts = s.qts + 1) :
    (s.begun update qts).Inv first fwd pending passed ∧
      (s.begun update qts).runningGetDifference = s.runningGetDifference ∧
      (s.begun update qts).pending = s.pending := by
  have hpos : 0 < qts := by have := h.pos; omega
  have hprocess : ∀ t : QtsUpdates, t.Inv first fwd pending passed → t.qts = s.qts →
      ((t.act (.processQtsUpdate update qts)).setQts qts).Inv first fwd pending passed := by
    intro t ht hqts
    have hinv := ht.act (.processQtsUpdate update qts) ⟨by grind, trivial⟩ (by simp [QtsAction.next, hpos])
      (fun _ => ⟨by simp, trivial⟩) rfl
    simpa [QtsAction.next, setQts, QtsUpdates.act, hpos] using hinv
  unfold QtsUpdates.begun
  split
  · have hact := h.act (.confirmPtsQts qts) ⟨by simp, trivial⟩ h.pos (fun _ => ⟨by simp, trivial⟩) rfl
    exact ⟨hprocess (s.confirmPtsQts qts) { hact with } rfl, by simp [setQts, hpos]; exact ⟨rfl, rfl⟩⟩
  · exact ⟨hprocess s h rfl, by simp [setQts, hpos]; exact ⟨rfl, rfl⟩⟩

/-- What a drain leaves. -/
structure Idle (first : Int) (fwd : Prop) (s : QtsUpdates) (passed : List Nat) : Prop where
  inv : s.Inv first fwd s.pending passed
  idle : s.runningGetDifference = false
  drained : s.Drained

/-- **The loop**: what can be processed is, and what waits is further than one ahead. -/
theorem Inv.processPending (h : s.Inv first fwd pending passed) (hidle : s.runningGetDifference = false) :
    ∃ s', processPending pending s = .ok s' ∧ s'.Idle first fwd passed := by
  induction pending generalizing s with
  | nil => exact ⟨{ s with pending := [] }, rfl, { h with }, hidle, by simp [Drained]⟩
  | cons p rest ih =>
    obtain ⟨hfirst, hrest⟩ := pairwise_cons.mp h.sorted
    rw [processPending, check_true hidle, ok_bind]
    split
    next hlater =>
      refine ⟨_, rfl, { h with }, hidle, forall_mem_cons.mpr ⟨by dsimp only; omega, ?_⟩⟩
      intro r hr
      have := hfirst r hr
      dsimp only
      omega
    next =>
      split
      next hnext =>
        obtain ⟨hinv, hrunning, -⟩ := h.begun p.2.update hnext
        have hdone := hinv.setPromises p.2.promises [] hrest (by simp [attached])
        rw [append_nil] at hdone
        exact ih hdone (hrunning.trans hidle)
      next =>
        have hdone := h.setPromises p.2.promises [] hrest (by simp [attached])
        rw [append_nil] at hdone
        exact ih hdone hidle

theorem Inv.processPendingQtsUpdates (h : s.Inv first fwd s.pending passed) (hidle : s.runningGetDifference = false) :
    ∃ s', s.processPendingQtsUpdates = .ok s' ∧ s'.Idle first fwd passed := by
  unfold QtsUpdates.processPendingQtsUpdates
  split
  next hnil => exact ⟨s, rfl, h, hidle, by simp [Drained, hnil]⟩
  next =>
    obtain ⟨s', hok, hdone⟩ := h.processPending hidle
    simp only [hok, ok_bind, check_true hdone.idle]
    exact ⟨_, rfl, { hdone.inv with }, hdone.idle, hdone.drained⟩

/-! ## One update -/

/-- The QTS is not restored: the number is ignored, or not far behind. -/
def NoRestore (s : QtsUpdates) (qts : Int) : Prop := qts ≤ 1 ∨ s.qts - 1000009 ≤ qts

theorem Inv.restoreQts (h : s.Inv first fwd s.pending passed) (hqts : 1 < qts) (hnew : fwd → s.NoRestore qts) :
    ∃ s', s.restoreQts qts = .ok s' ∧ s'.Inv first fwd s'.pending passed ∧
      s'.runningGetDifference = s.runningGetDifference ∧ s'.pending = s.pending ∧ s'.qts ≤ s.qts := by
  have hadd : s.addQts (qts - 1) = { s.act (.addQts (qts - 1)) with qts := qts - 1 } := if_pos (by omega)
  unfold QtsUpdates.restoreQts
  split
  next hold =>
    have hinv := h.addQts (qts - 1) (by intro hfwd; have := hnew hfwd; unfold NoRestore at this; omega)
    rw [hadd] at hinv ⊢
    simp only [check_true, ok_bind]
    exact ⟨_, rfl, { hinv with }, rfl, rfl, by dsimp only; omega⟩
  next => exact ⟨s, rfl, h, rfl, rfl, Int.le_refl _⟩

/-- What a call with one update does: it takes the promise, and leaves nothing that could be
processed if nothing was left before. -/
structure Took (first : Int) (fwd : Prop) (s s' : QtsUpdates) (passed : List Nat) : Prop where
  inv : s'.Inv first fwd s'.pending passed
  running : s'.runningGetDifference = s.runningGetDifference
  drained : s.runningGetDifference = false → s.Drained → s'.Drained

theorem Inv.postponeQtsUpdate (h : s.Inv first fwd s.pending passed)
    (hgap : s.runningGetDifference = false → s.qts + 1 < qts) (update : Update) (promise : Nat) :
    Took first fwd s (s.postponeQtsUpdate update qts promise) (passed ++ [promise]) := by
  have hpark := h.park update qts promise
  have hdrained : s.runningGetDifference = false → s.Drained → ∀ p ∈ Updates.park update qts promise s.pending,
      s.qts + 1 < p.1 := by
    intro hidle hdrained p hp
    rcases key_of_mem_park hp with heq | ⟨r, hr, heq⟩
    · rw [heq]
      exact hgap hidle
    · rw [← heq]
      exact hdrained r hr
  unfold QtsUpdates.postponeQtsUpdate
  dsimp only
  split
  · exact ⟨{ hpark with }, rfl, hdrained⟩
  · exact ⟨{ h.setValue promise with }, rfl, fun _ hd => hd⟩

/-- **One update** is skipped, waits, or is processed with what waits for it. -/
theorem Inv.addPendingQtsUpdate (h : s.Inv first fwd s.pending passed) (update : Update) (qts : Int) (promise : Nat)
    (hnew : fwd → s.NoRestore qts) :
    ∃ s', s.addPendingQtsUpdate update qts promise = .ok s' ∧ Took first fwd s s' (passed ++ [promise]) := by
  unfold QtsUpdates.addPendingQtsUpdate
  split
  next =>
    have hact := h.act .scheduleGetDifference ⟨by simp, trivial⟩ h.pos (fun _ => ⟨by simp, trivial⟩) rfl
    exact ⟨_, rfl, { hact.setValue promise with }, rfl, fun _ hdrained => hdrained⟩
  next hqts =>
    obtain ⟨t, hok, hinv, hrunning, hpending, hle⟩ := h.restoreQts (by omega : 1 < qts) hnew
    have hdrained : s.Drained → t.Drained := by
      intro hdrained p hp
      have := hdrained p (hpending ▸ hp)
      omega
    rw [hok, ok_bind]
    split
    next => exact ⟨_, rfl, hinv.setValue promise, hrunning, fun _ hd => hdrained hd⟩
    next hnew =>
      split
      next hgap =>
        have htook := hinv.postponeQtsUpdate (by intro hidle; grind : _ → t.qts + 1 < qts) update promise
        refine ⟨_, rfl, htook.inv, htook.running.trans hrunning, ?_⟩
        intro hidle hd
        exact htook.drained (hrunning.trans hidle) (hdrained hd)
      next hturn =>
        have hidle : t.runningGetDifference = false := by simpa using fun hrunning => hturn (.inl hrunning)
        have hnext : qts = t.qts + 1 := by
          have := hinv.pos
          omega
        obtain ⟨hbegun, hrunning', hpending'⟩ := hinv.begun update hnext
        have hvalue := hbegun.setValue promise
        rw [← hpending'] at hvalue
        obtain ⟨s', hok', hdone⟩ := hvalue.processPendingQtsUpdates (hrunning'.trans hidle)
        exact ⟨s', hok', hdone.inv, by rw [hdone.idle, ← hrunning, hidle], fun _ _ => hdone.drained⟩

/-! ## Whole runs -/

/-- The promises of the updates of a difference. -/
def Difference.promises : Difference → List Nat
  | .empty => []
  | .difference updates _ => updates.map Arrival.promise
  | .interrupted updates => updates.map Arrival.promise
  | .slice updates _ _ => updates.map Arrival.promise
  | .tooLong _ => []

/-- The promises that come with an event, if its answer is awaited. -/
def Event.promises (s : QtsUpdates) : Event → List Nat
  | .update a => [a.promise]
  | .onGetDifference difference => if s.runningGetDifference = true then difference.promises else []
  | _ => []

/-- No update of a difference has the QTS restored. -/
def NoRestores : List Arrival → QtsUpdates → Prop
  | [], _ => True
  | a :: rest, s => s.NoRestore a.qts ∧ NoRestores rest ((s.addPendingQtsUpdate a.update a.qts a.promise).getD s)

/-- The QTS of a state is not behind. -/
def NotBehind (s : QtsUpdates) (qts : Option Int) : Prop := ∀ next, qts = some next → 0 < next → s.qts ≤ next

/-- The QTS is not set back by a difference: its state comes after its updates. -/
def Difference.NotBack (s : QtsUpdates) : Difference → Prop
  | .empty => True
  | .difference updates qts => NoRestores updates s ∧ NotBehind ((QtsUpdates.processUpdates updates s).getD s) qts
  | .interrupted updates => NoRestores updates s
  | .slice updates qts _ => NoRestores updates s ∧ NotBehind ((QtsUpdates.processUpdates updates s).getD s) qts
  | .tooLong _ => True

/-- The QTS is not set back by an event. -/
def Event.NotBack (s : QtsUpdates) : Event → Prop
  | .update a => s.NoRestore a.qts
  | .runGetDifference => True
  | .onGetDifference difference =>
    s.runningGetDifference = true → difference.NotBack { s with runningGetDifference := false }
  | .onGetUpdatesState qts => s.runningGetDifference = true → s.NotBehind qts

section

variable (h : s.Inv first fwd s.pending passed)

include h

theorem Inv.processUpdates (updates : List Arrival) (hnew : fwd → NoRestores updates s) :
    ∃ s', processUpdates updates s = .ok s' ∧
      s'.Inv first fwd s'.pending (passed ++ updates.map Arrival.promise) ∧
      s'.runningGetDifference = s.runningGetDifference := by
  induction updates generalizing s passed with
  | nil => exact ⟨s, rfl, by simpa using h, rfl⟩
  | cons a rest ih =>
    obtain ⟨t, hok, htook⟩ := h.addPendingQtsUpdate a.update a.qts a.promise fun hfwd => (hnew hfwd).1
    obtain ⟨s', hok', hinv, hrunning⟩ := ih htook.inv (by simpa [NoRestores, hok, getD] using fun hfwd => (hnew hfwd).2)
    refine ⟨s', ?_, by simpa using hinv, hrunning.trans htook.running⟩
    rw [processUpdates, hok, ok_bind, hok']

theorem Inv.setState (qts : Option Int) (hnew : fwd → s.NotBehind qts) :
    (s.setState qts).Inv first fwd (s.setState qts).pending passed ∧
      (s.setState qts).runningGetDifference = s.runningGetDifference := by
  cases qts with
  | none => exact ⟨h, rfl⟩
  | some qts =>
    have hadd := h.addQts qts fun hfwd => hnew hfwd qts rfl
    have hsame : (s.addQts qts).pending = s.pending ∧ (s.addQts qts).runningGetDifference = s.runningGetDifference := by
      unfold QtsUpdates.addQts setQts
      split <;> exact ⟨rfl, rfl⟩
    rw [← hsame.1] at hadd
    exact ⟨hadd, hsame.2⟩

theorem Inv.afterGetDifference (hidle : s.runningGetDifference = false) :
    ∃ s', s.afterGetDifference = .ok s' ∧ s'.Idle first fwd passed := by
  rw [QtsUpdates.afterGetDifference, check_true hidle, ok_bind]
  exact Inv.processPendingQtsUpdates { h with } hidle

theorem Inv.applyDifference (hidle : s.runningGetDifference = false) (difference : Difference)
    (hnew : fwd → difference.NotBack s) :
    ∃ s', s.applyDifference difference = .ok s' ∧ s'.Inv first fwd s'.pending (passed ++ difference.promises) := by
  cases difference with
  | empty =>
    obtain ⟨t, hok, hdone⟩ := h.processPendingQtsUpdates hidle
    have hdropped := hdone.inv.setPromises (attached t.pending) [] List.Pairwise.nil (by simp [attached])
    rw [QtsUpdates.applyDifference, hok, ok_bind]
    exact ⟨_, rfl, { hdropped with }⟩
  | difference updates qts =>
    obtain ⟨t, hok, hinv, -⟩ := h.processUpdates updates fun hfwd => (hnew hfwd).1
    simp only [Difference.NotBack, hok, getD] at hnew
    rw [QtsUpdates.applyDifference, hok, ok_bind]
    exact ⟨_, rfl, (hinv.setState qts fun hfwd => (hnew hfwd).2).1⟩
  | interrupted updates =>
    obtain ⟨t, hok, hinv, -⟩ := h.processUpdates updates hnew
    rw [QtsUpdates.applyDifference, hok, ok_bind]
    exact ⟨_, rfl, { hinv with }⟩
  | slice updates qts again =>
    obtain ⟨t, hok, hinv, hrunning⟩ := h.processUpdates updates fun hfwd => (hnew hfwd).1
    simp only [Difference.NotBack, hok, getD] at hnew
    obtain ⟨hstate, hrunning'⟩ := hinv.setState qts fun hfwd => (hnew hfwd).2
    obtain ⟨t', hok', hdone⟩ := hstate.processPendingQtsUpdates (by rw [hrunning', hrunning, hidle])
    rw [QtsUpdates.applyDifference, hok, ok_bind, hok', ok_bind]
    exact ⟨_, rfl, { hdone.inv with }⟩
  | tooLong again =>
    rw [Difference.promises, append_nil]
    exact ⟨_, rfl, { h with }⟩

end

/-- What holds between the events. -/
structure Good (first : Int) (fwd : Prop) (s : QtsUpdates) (passed : List Nat) : Prop where
  inv : s.Inv first fwd s.pending passed
  drained : s.runningGetDifference = false → s.Drained

theorem Inv.onGetDifference (h : s.Inv first fwd s.pending passed) (difference : Difference)
    (hnew : fwd → difference.NotBack { s with runningGetDifference := false }) :
    ∃ s', s.onGetDifference difference = .ok s' ∧ s'.Good first fwd (passed ++ difference.promises) := by
  have hidle : Inv first fwd { s with runningGetDifference := false } s.pending passed := { h with }
  obtain ⟨t, hok, hinv⟩ := hidle.applyDifference rfl difference hnew
  rw [QtsUpdates.onGetDifference, hok, ok_bind]
  split
  next hrunning => exact ⟨t, rfl, hinv, by simp [hrunning]⟩
  next hrunning =>
    obtain ⟨s', hok', hdone⟩ := hinv.afterGetDifference (by simpa using hrunning)
    exact ⟨s', hok', hdone.inv, fun _ => hdone.drained⟩

/-- **One event.** -/
theorem Good.step (h : s.Good first fwd passed) (event : Event) (hnew : fwd → event.NotBack s) :
    ∃ s', s.step event = .ok s' ∧ s'.Good first fwd (passed ++ event.promises s) := by
  cases event with
  | update a =>
    obtain ⟨s', hok, htook⟩ := h.inv.addPendingQtsUpdate a.update a.qts a.promise hnew
    refine ⟨s', hok, htook.inv, ?_⟩
    intro hidle
    rw [htook.running] at hidle
    exact htook.drained hidle (h.drained hidle)
  | runGetDifference =>
    simp only [Event.promises, append_nil]
    exact ⟨_, rfl, { h.inv with }, by simp⟩
  | onGetDifference difference =>
    rw [QtsUpdates.step, Event.promises]
    split
    next hrunning => exact h.inv.onGetDifference difference fun hfwd => hnew hfwd hrunning
    next => exact ⟨s, rfl, by simpa using h⟩
  | onGetUpdatesState qts =>
    simp only [QtsUpdates.step, Event.promises, append_nil]
    split
    next hrunning =>
      obtain ⟨hinv, hrunning'⟩ := h.inv.setState qts fun hfwd => hnew hfwd hrunning
      have hidle : Inv first fwd { s.setState qts with runningGetDifference := false } (s.setState qts).pending
          passed :=
        { hinv with }
      obtain ⟨s', hok, hdone⟩ := hidle.afterGetDifference rfl
      refine ⟨s', ?_, hdone.inv, fun _ => hdone.drained⟩
      rw [QtsUpdates.onGetUpdatesState, if_pos (hrunning'.trans hrunning), hok]
    next => exact ⟨s, rfl, h⟩

/-- The promises that come in a run. -/
def passedIn : List Event → QtsUpdates → List Nat
  | [], _ => []
  | event :: events, s => event.promises s ++ passedIn events ((s.step event).getD s)

/-- The QTS is not set back in a run: no update that comes is so far behind that the
server must have begun anew, and no state of getDifference is behind the QTS. -/
def NotSetBack : List Event → QtsUpdates → Prop
  | [], _ => True
  | event :: events, s => event.NotBack s ∧ NotSetBack events ((s.step event).getD s)

/-- **Every run.** -/
theorem Good.run (h : s.Good first fwd passed) (events : List Event) (hnew : fwd → NotSetBack events s) :
    ∃ s', run events s = .ok s' ∧ s'.Good first fwd (passed ++ passedIn events s) := by
  induction events generalizing s passed with
  | nil => exact ⟨s, rfl, by simpa [passedIn] using h⟩
  | cons event events ih =>
    obtain ⟨t, hok, hgood⟩ := h.step event fun hfwd => (hnew hfwd).1
    obtain ⟨s', hok', hgood'⟩ := ih hgood (by simpa [NotSetBack, hok, getD] using fun hfwd => (hnew hfwd).2)
    refine ⟨s', by rw [run, hok, ok_bind, hok'], ?_⟩
    simpa [passedIn, hok, getD] using hgood'

/-- A manager before the first event: nothing waits. -/
structure Begins (first : Int) (s : QtsUpdates) : Prop where
  qts_eq : s.qts = first
  pos : 0 < first
  pending : s.pending = []
  actions : s.actions = []

theorem Begins.good (h : s.Begins first) : s.Good first fwd [] := by
  obtain ⟨hqts, hpos, hpending, hactions⟩ := h
  refine ⟨⟨by omega, ?_, ?_, ?_, ?_, ?_⟩, ?_⟩ <;>
    simp [hactions, hpending, hqts, counter, InTurn, Forward, Sorted, completed, attached, Drained]

/-- 3 comes twice and waits for 2; 6 comes while getDifference runs, which ends with the QTS 5. -/
def sampleEvents (u : Update) : List Event :=
  [.update ⟨u, 3, 0⟩, .update ⟨u, 3, 1⟩, .update ⟨u, 2, 2⟩, .runGetDifference, .update ⟨u, 6, 3⟩,
    .onGetDifference (.difference [] (some 5))]

end QtsUpdates

end Tdlib.Updates
