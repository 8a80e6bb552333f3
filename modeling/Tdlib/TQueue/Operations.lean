/-
Every operation of a `TQueue` is a sequence of changes of queues. From states
with the invariant no operation aborts, apart from additions of ids that are
none.
-/
import Tdlib.TQueue.Changes

namespace Tdlib.Db

open Outcome Function List

/-- A queue with the storage, as changes see them. -/
def Queue.state {σ : Type} (q : Queue) (callback : Option σ) : EventId × TQueue.Work σ :=
  (q.tailId, ⟨q.events, q.totalEventLength, callback⟩)

namespace TQueue

variable {σ : Type} {S : StorageCallback σ} {adds : EventId × Work σ → RawEvent → Prop} {queueId : Int}
  {tailId tailId' fromId : EventId} {event : RawEvent} {events : List RawEvent} {total : Nat}
  {callback : Option σ} {work : Work σ} {q q' : Queue} {t t' : TQueue σ}

/-! ## Effects -/

/-- The queue that `queues_[queue_id]` gives. -/
def queueOf (t : TQueue σ) (queueId : Int) : Queue := (t.queues queueId).getD {}

/-- One queue is changed. -/
inductive Effect (S : StorageCallback σ) (adds : EventId × Work σ → RawEvent → Prop) (t : TQueue σ) :
    TQueue σ → Prop
  | mk {queueId : Int} {q : Queue} {queueGcAt : List (Int × Int)} {callback : Option σ} :
    Changes S adds queueId ((t.queueOf queueId).state t.callback) (q.state callback) →
    Scheduled queueGcAt (update t.gcAtOf queueId q.gcAt) →
    ((∃ e ∈ q.events, e.data ≠ []) → q.gcAt ≠ 0) →
    Effect S adds t { queues := update t.queues queueId (some q), queueGcAt, callback }

def Effects (S : StorageCallback σ) (adds : EventId × Work σ → RawEvent → Prop) : TQueue σ → TQueue σ → Prop :=
  Relation.ReflTransGen (Effect S adds)

theorem queueOf_eq (h : t.queues queueId = some q) : t.queueOf queueId = q := by
  unfold queueOf
  rw [h]
  rfl

theorem queueOf_update (t : TQueue σ) (queueId : Int) (q : Queue) (queueGcAt : List (Int × Int)) (callback : Option σ) :
    queueOf { queues := update t.queues queueId (some q), queueGcAt, callback } = update t.queueOf queueId q := by
  funext queueId'
  by_cases hid : queueId' = queueId
  · subst hid; simp [queueOf]
  · simp [queueOf, hid]

theorem gcAtOf_eq (t : TQueue σ) (queueId : Int) : t.gcAtOf queueId = (t.queueOf queueId).gcAt := by
  unfold gcAtOf queueOf
  cases t.queues queueId <;> rfl

section

variable (h : Valid t)

include h

theorem Valid.queueOf (queueId : Int) :
    EventsValid (t.queueOf queueId).tailId (t.queueOf queueId).events (t.queueOf queueId).totalEventLength := by
  unfold TQueue.queueOf
  cases hid : t.queues queueId with
  | none => exact .nil _
  | some q => exact h.events hid

theorem Valid.looked_queueOf (hmem : ∃ e ∈ (t.queueOf queueId).events, e.data ≠ []) : (t.queueOf queueId).gcAt ≠ 0 := by
  cases hid : t.queues queueId with
  | none =>
    rw [show t.queueOf queueId = {} by unfold TQueue.queueOf; rw [hid]; rfl] at hmem
    obtain ⟨e, he, _⟩ := hmem
    cases he
  | some q =>
    rw [queueOf_eq hid] at hmem ⊢
    exact h.looked hid hmem

theorem Valid.effect (heffect : Effect S adds t t') : Valid t' := by
  cases heffect with
  | @mk queueId q _ callback hchanges hset hlooked =>
    exact h.update (hchanges.eventsValid (h.queueOf queueId)) hset hlooked callback

theorem Valid.effects (heffects : Effects S adds t t') : Valid t' := by
  induction heffects with
  | refl => exact h
  | tail _ heffect ih => exact ih.effect heffect

theorem Effect.touch (queueId : Int) :
    Effect S adds t { t with queues := update t.queues queueId (some (t.queueOf queueId)) } := by
  refine .mk .refl ?_ h.looked_queueOf
  rw [← gcAtOf_eq, update_eq_self]
  exact h.scheduled

/-- A change that makes no event with data leaves the time of the queue. -/
theorem Effect.finish (hq : t.queues queueId = some q)
    (hchanges : Changes S adds queueId (q.state t.callback) (q.tailId, work))
    (hmem : ∀ e ∈ work.events, e.data ≠ [] → e ∈ q.events) : Effect S adds t (t.finish queueId q work) := by
  refine .mk (q := { q with events := work.events, totalEventLength := work.totalEventLength }) ?_ ?_ ?_
  · rw [queueOf_eq hq]
    exact hchanges
  · rw [show q.gcAt = t.gcAtOf queueId by rw [gcAtOf_eq, queueOf_eq hq], update_eq_self]
    exact h.scheduled
  · intro ⟨e, he, hdata⟩
    exact h.looked (q := q) hq ⟨e, hmem e he hdata, hdata⟩

theorem Effect.finish_pops (hq : t.queues queueId = some q)
    (hpops : Pops S queueId q.tailId ⟨q.events, q.totalEventLength, t.callback⟩ work) :
    Effect S adds t (t.finish queueId q work) :=
  .finish h hq hpops.changes fun _ he hdata => hpops.mem_of_filled he hdata

/-! ## `forget`, `get` -/

theorem forget_spec (queueId : Int) (eventId : EventId) :
    ∃ t', forget S queueId eventId t = .ok t' ∧ Effects S adds t t' := by
  unfold forget
  cases hq : t.queues queueId with
  | none => exact ⟨t, rfl, .refl⟩
  | some q =>
    obtain ⟨work, hwork, hpops⟩ := popId_spec (S := S) queueId q.tailId (h.events hq).haveNext eventId
      q.totalEventLength t.callback
    refine ⟨_, ?_, .single (.finish_pops h hq hpops)⟩
    simp [hwork, ok_bind]

end

theorem popFrom_spec (h : EventsValid tailId work.events work.totalEventLength) (queueId : Int) (fromId : EventId)
    (now : Int)
    (room : Nat) :
    ∃ ready given, popReady S queueId tailId fromId now room (work.events.dropWhile (·.key < fromId.value))
        work.totalEventLength work.callback = .ok (ready, given) ∧
      Pops S queueId tailId work
        { ready with events := work.events.takeWhile (·.key < fromId.value) ++ ready.events } := by
  have hsub := dropWhile_sublist (fun e : RawEvent => e.key < fromId.value) (l := work.events)
  obtain ⟨ready, given, hready, hpops⟩ := popReady_spec (S := S) queueId tailId (h.of_sublist hsub).haveNext
    (fun e he => h.sorted.le_of_mem_dropWhile he) now room work.totalEventLength work.callback
  have hprepend := hpops.prepend (work.events.takeWhile fun e => e.key < fromId.value)
  simp_all

theorem doGet_spec (h : EventsValid q.tailId q.events q.totalEventLength) (queueId : Int) (fromId : EventId)
    (forgetPrevious : Bool) (now : Int) (room : Nat) (callback : Option σ) :
    ∃ work given, doGet S queueId q fromId forgetPrevious now room callback = .ok (work, given) ∧
      Pops S queueId q.tailId ⟨q.events, q.totalEventLength, callback⟩ work := by
  cases forgetPrevious with
  | true =>
    obtain ⟨work, hwork, hpops⟩ := popBefore_spec (S := S) queueId q.tailId h.haveNext
      fromId q.totalEventLength callback
    obtain ⟨ready, given, hready, hpops'⟩ := popFrom_spec (S := S)
      (hpops.eventsValid (.inl rfl) h) queueId fromId now room
    refine ⟨_, given, ?_, hpops.trans hpops'⟩
    simp [doGet, hwork, ok_bind, hready]
  | false =>
    obtain ⟨ready, given, hready, hpops⟩ := popFrom_spec (S := S)
      (show EventsValid q.tailId (Work.mk q.events q.totalEventLength callback).events _ from h) queueId fromId now room
    refine ⟨_, given, ?_, hpops⟩
    simp [doGet, hready]

theorem get_spec (h : Valid t) (queueId : Int) (fromId : EventId) (forgetPrevious : Bool) (now : Int) (room : Nat) :
    ∃ size given t', get S queueId fromId forgetPrevious now room t = .ok (size, given, t') ∧
      Effects S adds t t' := by
  unfold get
  cases hq : t.queues queueId with
  | none => exact ⟨_, _, t, rfl, .refl⟩
  | some q =>
    dsimp only
    split
    · exact ⟨_, _, t, rfl, .refl⟩
    split
    · exact ⟨_, _, t, rfl, .refl⟩
    obtain ⟨work, given, hget, hpops⟩ := doGet_spec (S := S) (h.events hq) queueId fromId forgetPrevious now room
      t.callback
    refine ⟨.ok ((t.finish queueId q work).getSize queueId), given, _, ?_, .single (.finish_pops h hq hpops)⟩
    simp only [hget, ok_bind]
    rfl

/-! ## `clear` -/

/-- What `clear` keeps: if it keeps nothing, the storage does not know the last
event. -/
structure Kept (S : StorageCallback σ) (adds : EventId × Work σ → RawEvent → Prop) (queueId : Int) (q : Queue)
    (callback : Option σ) (kept : Work σ × Nat) : Prop where
  changes : Changes S adds queueId (q.state callback) (q.tailId, kept.1)
  ne : kept.1.events ≠ []
  mem : ∀ e ∈ kept.1.events, e.data ≠ [] → e ∈ q.events
  none : kept.2 = 0 → ∀ s, kept.1.callback = some s → ∃ e ∈ kept.1.events, e.logEventId = 0

theorem keepLast_spec (hne : q.events ≠ []) (queueId : Int) (callback : Option σ) :
    Kept S adds queueId q callback (keepLast S queueId q callback) := by
  obtain ⟨event, hlast⟩ : ∃ event, q.events.getLast? = some event := by
    cases h : q.events.getLast? with
    | none => exact absurd (List.getLast?_eq_none_iff.1 h) hne
    | some event => exact ⟨event, rfl⟩
  obtain ⟨pre, hpre⟩ := List.getLast?_eq_some_iff.1 hlast
  unfold keepLast
  rw [hlast]
  cases callback with
  | none => exact ⟨.refl, hne, fun _ he _ => he, by simp⟩
  | some s =>
    dsimp only
    split
    next hlog => exact ⟨.refl, hne, fun _ he _ => he, fun _ _ _ => ⟨event, by rw [hpre]; simp, hlog⟩⟩
    next hlog =>
      split
      next hdata =>
        refine ⟨.single ?_, by simp, fun e he hfilled => ?_, by simp⟩
        · unfold Queue.state
          rw [hpre, dropLast_concat]
          exact .clearLast hlog hdata
        · rw [hpre] at he ⊢
          rw [dropLast_concat] at he
          rcases mem_append.1 he with he | he
          · exact mem_append_left _ he
          · simp [mem_singleton.1 he] at hfilled
      next => exact ⟨.refl, hne, fun _ he _ => he, by simp⟩

theorem clearedLength_eq (h : EventsValid tailId events total) (n : Nat) (few : Prop) [Decidable few] :
    (if few then (events.take n).foldl (fun total event => sizeSub total event.data.length) total
      else (events.drop n).foldl (fun total event => sizeAdd total event.data.length) 0) =
      dataLength (events.drop n) := by
  have htotal : dataLength (events.take n) + dataLength (events.drop n) = total := by
    rw [h.total_eq, ← dataLength_append, take_append_drop]
  have hle := h.total_le
  split
  · rw [foldl_sizeSub _ (by omega) hle]
    omega
  · rw [foldl_sizeAdd _ (by omega)]
    omega

theorem Kept.delete {kept : Work σ × Nat} (h : Kept S adds queueId q callback kept) :
    Changes S adds queueId (q.state callback) (q.tailId, ⟨kept.1.events.drop (kept.1.events.length - kept.2),
        dataLength (kept.1.events.drop (kept.1.events.length - kept.2)), kept.1.callback.map fun s => S.popBatch
          (((kept.1.events.take (kept.1.events.length - kept.2)).map (·.logEventId)).filter (· ≠ 0)) s⟩) := by
  have hnone : ∀ s, kept.1.callback = some s → kept.1.events.drop (kept.1.events.length - kept.2) = [] →
      ∃ e ∈ kept.1.events.take (kept.1.events.length - kept.2), e.logEventId = 0 := by
    intro s hs hnil
    have hpos := length_pos_iff.2 h.ne
    have hzero : kept.2 = 0 := by
      have := drop_eq_nil_iff.1 hnil
      omega
    simp [hzero, take_length, h.none, hs]
  have hdelete : Change S adds queueId (q.tailId, ⟨_, kept.1.totalEventLength, _⟩) _ := .delete hnone
  rw [take_append_drop] at hdelete
  exact h.changes.tail hdelete

theorem clear_spec (h : Valid t) (queueId : Int) (keepCount : Nat) :
    ∃ deleted t', clear S queueId keepCount t = .ok (deleted, t') ∧ Effects S adds t t' := by
  unfold clear
  cases hq : t.queues queueId with
  | none => exact ⟨_, t, rfl, .refl⟩
  | some q =>
    dsimp only
    split
    · exact ⟨_, t, rfl, .refl⟩
    next hsize =>
      have hne : q.events ≠ [] := by
        intro hnil
        grind [Queue.size]
      have hkept : Kept S adds queueId q t.callback
          (if keepCount = 0 then keepLast S queueId q t.callback
            else (⟨q.events, q.totalEventLength, t.callback⟩, keepCount)) := by
        split
        · exact keepLast_spec hne queueId t.callback
        next hpos => exact ⟨.refl, hne, fun _ he _ => he, fun hzero => absurd hzero hpos⟩
      refine ⟨_, _, rfl, .single ?_⟩
      rw [clearedLength_eq (hkept.changes.eventsValid (h.events hq))]
      exact .finish h hq hkept.delete fun e he hdata => hkept.mem e (mem_of_mem_drop he) hdata

/-! ## `do_push`, `push` -/

/-- What `append` makes of a queue, with the time it finds for it. -/
def appendedTo (S : StorageCallback σ) (queueId : Int) (event : RawEvent) (q : Queue) (tailId : EventId) (gcAt : Int)
    (queueGcAt : List (Int × Int)) (t : TQueue σ) : TQueue σ :=
  let work := appended S queueId event ⟨q.events, q.totalEventLength, t.callback⟩
  { queues := update t.queues queueId (some ⟨tailId, work.events, work.totalEventLength, gcAt⟩)
    queueGcAt
    callback := work.callback }

/-- The event comes last in the map, and the length does not overflow. -/
theorem appended_eq (queueId : Int) (hacc : Accepted tailId work event tailId')
    (h : EventsValid tailId work.events work.totalEventLength) : appended S queueId event work =
      ⟨OrderedMap.emplace RawEvent.key (stored S queueId event (dropEmptyLast S work.events work.callback).2).1
          (dropEmptyLast S work.events work.callback).1, sizeAdd work.totalEventLength event.data.length,
        (stored S queueId event (dropEmptyLast S work.events work.callback).2).2⟩ := by
  rw [OrderedMap.emplace_of_lt, sizeAdd_eq hacc.total_le]
  · rfl
  · intro e he
    have hkey : (stored S queueId event (dropEmptyLast S work.events work.callback).2).1.key = event.key :=
      congrArg EventId.value (stored_fields queueId event _).1
    rw [hkey]
    exact Nat.lt_of_lt_of_le ((h.dropEmptyLast work.callback).1.below e he) hacc.le

variable {g : Int → Int} {hintNewId : EventId} {data : Bytes} {expiresAt : Int}

theorem append_spec (hset : Scheduled t.queueGcAt g) (hgc : g queueId = q.gcAt)
    (hvalid : EventsValid q.tailId q.events q.totalEventLength) (hlooked : (∃ e ∈ q.events, e.data ≠ []) → q.gcAt ≠ 0)
    (hacc : Accepted q.tailId (q.state t.callback).2 event tailId') :
    ∃ gcAt queueGcAt, append S queueId event q t = .ok (appendedTo S queueId event q tailId' gcAt queueGcAt t) ∧
      Scheduled queueGcAt (update g queueId gcAt) ∧
      ((∃ e ∈ (appended S queueId event (q.state t.callback).2).events, e.data ≠ []) → gcAt ≠ 0) := by
  obtain ⟨-, hfilled, hsub⟩ := hvalid.dropEmptyLast (S := S) t.callback
  have heq := appended_eq (S := S) queueId hacc hvalid
  unfold append appendedTo
  rw [hacc.next, show (⟨q.events, q.totalEventLength, t.callback⟩ : Work σ) = (q.state t.callback).2 from rfl]
  dsimp only
  split
  next =>
    -- The queue had no events with data, so its time is that of the new event.
    obtain ⟨hschedule, hset'⟩ := scheduleQueueGc_spec hset hgc event.expiresAt
    refine ⟨event.expiresAt, _, ?_, hset', fun _ => Int.ne_of_gt hacc.expires⟩
    rw [hschedule, heq]
    rfl
  next hempty =>
    refine ⟨q.gcAt, t.queueGcAt, ?_, ?_, fun hmem => hlooked ?_⟩
    · rw [heq]
      rfl
    · rw [← hgc, update_eq_self]
      exact hset
    · obtain ⟨e, he, hdata⟩ := hmem
      rcases mem_append.1 he with he | he
      · exact ⟨e, hsub.subset he, hdata⟩
      · rw [mem_singleton.1 he, (stored_fields queueId event _).2.1] at hdata
        obtain ⟨e', he'⟩ := exists_mem_of_ne_nil _ fun hnil => hempty ⟨hnil, hdata⟩
        exact ⟨e', hsub.subset he', hfilled e' he'⟩

theorem accepted_iff (callback : Option σ) (hlength : event.data.length ≤ maxEventLength)
    (hid : event.eventId.value ≠ 0) (hnext : event.eventId.next = some tailId') :
    accepts q event = true ↔ Accepted q.tailId (q.state callback).2 event tailId' := by
  have hmax : maxEventLength ≤ maxTotalEventLength := by decide
  simp only [accepts, Bool.and_eq_true, decide_eq_true_eq]
  constructor
  · intro ⟨⟨⟨hcount, htotal⟩, hexpires⟩, hle⟩
    exact ⟨Nat.pos_of_ne_zero hid, hnext, hle, hexpires, hlength, hcount, show q.totalEventLength + _ ≤ _ by omega⟩
  · intro h
    have htotal : q.totalEventLength + event.data.length ≤ maxTotalEventLength := h.total_le
    exact ⟨⟨⟨h.count, by omega⟩, h.expires⟩, h.le⟩

theorem doPush_accepted (hq : t.queueOf queueId = q)
    (hqueue : queueId ≠ 0) (hset : Scheduled t.queueGcAt g) (hgc : g queueId = q.gcAt)
    (hvalid : EventsValid q.tailId q.events q.totalEventLength) (hlooked : (∃ e ∈ q.events, e.data ≠ []) → q.gcAt ≠ 0)
    (hacc : Accepted q.tailId (q.state t.callback).2 event tailId') :
    ∃ gcAt queueGcAt, doPush S queueId event t = .ok (true, appendedTo S queueId event q tailId' gcAt queueGcAt t) ∧
      Scheduled queueGcAt (update g queueId gcAt) ∧
      ((∃ e ∈ (appended S queueId event (q.state t.callback).2).events, e.data ≠ []) → gcAt ≠ 0) := by
  obtain ⟨gcAt, queueGcAt, happend, hset', hlooked'⟩ := append_spec (S := S) hset hgc hvalid hlooked hacc
  have hid : event.eventId.value ≠ 0 := Nat.pos_iff_ne_zero.1 hacc.positive
  refine ⟨gcAt, queueGcAt, ?_, hset', hlooked'⟩
  unfold queueOf at hq
  unfold doPush
  rw [check_true hid, ok_bind, if_neg (not_or.2 ⟨Nat.not_lt.2 hacc.length_le, hqueue⟩), hq]
  rw [if_pos ((accepted_iff t.callback hacc.length_le hid hacc.next).2 hacc), happend]
  rfl

/-- The id of the event is one, and has one after it. -/
def Addable (event : RawEvent) : Prop := event.eventId.value ≠ 0 ∧ event.eventId.next.isSome = true

/-- **`do_push`** aborts only for events that are not addable. -/
theorem doPush_spec (h : Valid t) (queueId : Int) (event : RawEvent) :
    (doPush S queueId event t = .fatal ∧ ¬ Addable event) ∨
      ∃ added t', doPush S queueId event t = .ok (added, t') ∧ Effects S (fun _ _ => True) t t' := by
  by_cases hid : event.eventId.value = 0
  · refine .inl ⟨?_, fun hadd => hadd.1 hid⟩
    unfold doPush
    simp [Outcome.check, hid]
  by_cases hok : event.data.length ≤ maxEventLength ∧ queueId ≠ 0
  · have hpush : doPush S queueId event t = if accepts (t.queueOf queueId) event then do
          let t ← t.append S queueId event (t.queueOf queueId)
          pure (true, t)
        else pure (false, { t with queues := update t.queues queueId (some (t.queueOf queueId)) }) := by
      unfold doPush
      rw [check_true hid, ok_bind, if_neg (not_or.2 ⟨Nat.not_lt.2 hok.1, hok.2⟩)]
      rfl
    by_cases haccepts : accepts (t.queueOf queueId) event = true
    · cases hnext : event.eventId.next with
      | none =>
        refine .inl ⟨?_, fun hadd => by rw [Addable, hnext] at hadd; cases hadd.2⟩
        obtain ⟨hschedule, -⟩ := scheduleQueueGc_spec h.scheduled (gcAtOf_eq t queueId) event.expiresAt
        rw [hpush, if_pos haccepts]
        unfold append
        simp only [hnext, hschedule]
        split <;> rfl
      | some tailId' =>
        have hacc := (accepted_iff t.callback hok.1 hid hnext).1 haccepts
        obtain ⟨gcAt, queueGcAt, hpush, hset, hlooked⟩ := doPush_accepted (S := S) rfl hok.2 h.scheduled
          (gcAtOf_eq t queueId) (h.queueOf queueId) h.looked_queueOf hacc
        exact .inr ⟨true, _, hpush, .single (.mk (.single (.append .ready hok.2 trivial hacc)) hset hlooked)⟩
    · exact .inr ⟨false, _, by rw [hpush, if_neg haccepts]; rfl, .single (.touch h queueId)⟩
  · refine .inr ⟨false, t, ?_, .refl⟩
    unfold doPush
    rw [check_true hid, ok_bind, if_pos]
    · rfl
    · by_contra hnot
      omega

theorem firstId_spec (random : RandomId) (h : hintNewId.next.isSome = true) :
    ∃ id, firstId hintNewId random = some id ∧ id.value ≠ 0 ∧ id.next.isSome = true := by
  unfold firstId
  split
  next =>
    have hge := random.ge
    have hle := random.le
    unfold maxId at hle
    refine ⟨⟨random.value, by unfold maxId; omega⟩, ?_, ?_, EventId.next_isSome.2 ?_⟩
    · unfold EventId.fromInt32
      rw [dif_pos]
    · dsimp only; omega
    · unfold maxId; dsimp only; omega
  next hne => exact ⟨hintNewId, rfl, hne, h⟩

theorem firstId_last (random : RandomId) (h : hintNewId.next.isSome = false) :
    firstId hintNewId random = some hintNewId ∧ hintNewId.value ≠ 0 := by
  have hne : hintNewId.value ≠ 0 := by
    intro hzero
    rw [EventId.next_isSome.2 (by rw [hzero]; decide)] at h
    cases h
  exact ⟨if_neg hne, hne⟩

/-- The loop of **`push`** aborts only if the hint has no id after it, and else
finds an id that has one. -/
theorem prepare_spec (h : EventsValid q.tailId q.events q.totalEventLength) (queueId : Int) (hintNewId : EventId)
    (random : RandomId) (callback : Option σ) :
    (prepare S queueId hintNewId random q callback = .fatal ∧ hintNewId.next.isSome = false) ∨
      ∃ eventId work, prepare S queueId hintNewId random q callback =
          .ok ({ q with tailId := eventId, events := work.events, totalEventLength := work.totalEventLength },
            work.callback) ∧
        Prepared S queueId (q.state callback) (eventId, work) ∧ eventId.value ≠ 0 ∧ eventId.next.isSome = true := by
  obtain ⟨work, hwork, hpops, hnil⟩ := popAll_spec (S := S) queueId h.haveNext q.totalEventLength callback
  unfold prepare
  rw [hwork]
  cases hhint : hintNewId.next.isSome with
  | true =>
    obtain ⟨id, hid, hne, hnext⟩ := firstId_spec random hhint
    rw [hid]
    by_cases hzero : q.tailId.value = 0
    · exact .inr ⟨id, (q.state callback).2, by simp [hzero, hne, hnext, Queue.state], .first hzero, hne, hnext⟩
    · cases hlast : q.tailId.next.isSome with
      | true => exact .inr ⟨q.tailId, (q.state callback).2, by simp [hzero, hlast, Queue.state], .ready, hzero, hlast⟩
      | false =>
        exact .inr ⟨id, work, by simp [hzero, hlast, hne, hnext], .wrapped (by simpa using hlast) hpops hnil, hne,
          hnext⟩
  | false =>
    obtain ⟨hfirst, hne⟩ := firstId_last random hhint
    rw [hfirst]
    by_cases hzero : q.tailId.value = 0
    · exact .inl ⟨by simp [hzero, hne, hhint, Outcome.check], rfl⟩
    · cases hlast : q.tailId.next.isSome with
      | true => exact .inr ⟨q.tailId, (q.state callback).2, by simp [hzero, hlast, Queue.state], .ready, hzero, hlast⟩
      | false => exact .inl ⟨by simp [hzero, hlast, Outcome.check], rfl⟩

theorem Prepared.room {start stop : EventId × Work σ} (h : Prepared S queueId start stop)
    (hvalid : EventsValid stop.1 stop.2.events stop.2.totalEventLength) :
    stop.2.events.length ≤ start.2.events.length ∧ stop.2.totalEventLength ≤ start.2.totalEventLength ∧
      ∀ e ∈ stop.2.events, e ∈ start.2.events := by
  cases h with
  | ready | first => exact ⟨Nat.le_refl _, Nat.le_refl _, fun _ he => he⟩
  | wrapped _ _ hnil =>
    have htotal := hvalid.total_eq
    rw [htotal, hnil]
    exact ⟨Nat.zero_le _, Nat.zero_le _, by simp⟩

theorem pushError_eq_none (hlength : data.length ≤ maxEventLength) :
    pushError q data expiresAt = none ↔ q.events.length < maxQueueEvents ∧
      q.totalEventLength + data.length ≤ maxTotalEventLength ∧ 0 < expiresAt := by
  have hmax : maxEventLength ≤ maxTotalEventLength := by decide
  unfold pushError
  split
  · simp; omega
  split
  · simp; omega
  split
  · simp; omega
  · simp; omega

/-- The state in which `push` calls `do_push`. -/
def setQueue (t : TQueue σ) (queueId : Int) (q : Queue) (callback : Option σ) : TQueue σ :=
  { t with queues := update t.queues queueId (some q), callback }

theorem push_prepared (h : Valid t)
    (hprepared : Prepared S queueId ((t.queueOf queueId).state t.callback) (q.state callback))
    (hgc : q.gcAt = (t.queueOf queueId).gcAt) (hlength : data.length ≤ maxEventLength) (hid : queueId ≠ 0)
    (herror : pushError (t.queueOf queueId) data expiresAt = none) (hne : q.tailId.value ≠ 0)
    (hnext : q.tailId.next = some tailId') (extra : Int)
    (hadds : adds ((t.queueOf queueId).state t.callback) ⟨0, q.tailId, expiresAt, data, extra⟩) :
    ∃ t', doPush S queueId ⟨0, q.tailId, expiresAt, data, extra⟩ (t.setQueue queueId q callback) = .ok (true, t') ∧
      Effect S adds t t' := by
  obtain ⟨hcount, htotal, hexpires⟩ := (pushError_eq_none hlength).1 herror
  have hvalid := hprepared.eventsValid (h.queueOf queueId)
  obtain ⟨hlen, hsum, hmem⟩ := hprepared.room hvalid
  have hacc : Accepted q.tailId (q.state callback).2 ⟨0, q.tailId, expiresAt, data, extra⟩ tailId' :=
    ⟨Nat.pos_of_ne_zero hne, hnext, Nat.le_refl _, hexpires, hlength, Nat.lt_of_le_of_lt hlen hcount,
      Nat.le_trans (Nat.add_le_add_right hsum _) htotal⟩
  have hlooked : (∃ e ∈ q.events, e.data ≠ []) → q.gcAt ≠ 0 := by
    intro ⟨e, he, hdata⟩
    rw [hgc]
    exact h.looked_queueOf ⟨e, hmem e he, hdata⟩
  obtain ⟨gcAt, queueGcAt, hpush, hset, hlooked'⟩ := doPush_accepted (S := S) (t := t.setQueue queueId q callback)
    (by simp [queueOf, setQueue]) hid h.scheduled ((gcAtOf_eq t queueId).trans hgc.symm) hvalid hlooked hacc
  refine ⟨_, hpush, ?_⟩
  unfold appendedTo setQueue
  dsimp only
  rw [update_idem]
  exact .mk (.single (.append hprepared hid hadds hacc)) hset hlooked'

/-- `push` does not refuse the event. -/
def Pushable (t : TQueue σ) (queueId : Int) (data : Bytes) (expiresAt : Int) : Prop :=
  data ≠ [] ∧ data.length ≤ maxEventLength ∧ queueId ≠ 0 ∧ pushError (t.queueOf queueId) data expiresAt = none

instance (t : TQueue σ) (queueId : Int) (data : Bytes) (expiresAt : Int) :
    Decidable (Pushable t queueId data expiresAt) :=
  inferInstanceAs (Decidable (_ ∧ _ ∧ _ ∧ _))

/-- **`push`** aborts only if the hint has no id after it. -/
theorem push_spec (h : Valid t) (queueId : Int) (data : Bytes) (expiresAt extra : Int) (hintNewId : EventId)
    (random : RandomId) (hadds : Pushable t queueId data expiresAt → ∀ event, event.logEventId = 0 →
      adds ((t.queueOf queueId).state t.callback) event) :
    (push S queueId data expiresAt extra hintNewId random t = .fatal ∧ hintNewId.next.isSome = false) ∨
      ∃ result t', push S queueId data expiresAt extra hintNewId random t = .ok (result, t') ∧ Effects S adds t t' := by
  unfold push
  split
  · exact .inr ⟨_, t, rfl, .refl⟩
  next hdata =>
  split
  · exact .inr ⟨_, t, rfl, .refl⟩
  next hlength =>
  split
  · exact .inr ⟨_, t, rfl, .refl⟩
  next hid =>
  dsimp only
  rw [show (t.queues queueId).getD {} = t.queueOf queueId from rfl]
  cases herror : pushError (t.queueOf queueId) data expiresAt with
  | some error =>
    exact .inr ⟨.error error, _, rfl, .single (.touch h queueId)⟩
  | none =>
    rcases prepare_spec (S := S) (h.queueOf queueId) queueId hintNewId random t.callback with
      ⟨hfatal, hhint⟩ | ⟨eventId, work, hprepare, hprepared, hne, hnext⟩
    · exact .inl ⟨by dsimp only; rw [hfatal]; rfl, hhint⟩
    · obtain ⟨tailId', htail⟩ := Option.isSome_iff_exists.1 hnext
      obtain ⟨t', hpush, heffect⟩ := push_prepared (q := { t.queueOf queueId with
        tailId := eventId, events := work.events, totalEventLength := work.totalEventLength }) h hprepared rfl
        (Nat.not_lt.1 hlength) hid herror hne htail extra
        (hadds ⟨hdata, Nat.not_lt.1 hlength, hid, herror⟩ _ rfl)
      unfold setQueue at hpush
      refine .inr ⟨.ok eventId, t', ?_, .single heffect⟩
      simp [hprepare, ok_bind, hpush]

/-! ## `run_gc` -/

/-- A round of **`run_gc`** does not abort, and the queue is not due any more
unless the time is over. -/
theorem gcQueue_spec {now gcAt : Int} (adds : EventId × Work σ → RawEvent → Prop) (h : Valid t)
    (hmem : (gcAt, queueId) ∈ t.queueGcAt) (hlt : gcAt < now) (clock : Clock) :
    ∃ deleted clock' t', gcQueue S now gcAt queueId clock t = .ok (deleted, clock', t') ∧ Effect S adds t t' ∧
      (clock'.late = true ∨ due now t'.queueGcAt < due now t.queueGcAt) := by
  obtain ⟨hne, hgc⟩ := (h.scheduled gcAt queueId).1 hmem
  rw [gcAtOf_eq] at hgc
  have hvalid := h.queueOf queueId
  obtain ⟨work, newGcAt, clock', hwork, hpops, hnext, -⟩ := popExpired_spec (S := S) queueId (t.queueOf queueId).tailId
    hvalid.haveNext hvalid.expires now 0 (.inl rfl) clock (t.queueOf queueId).totalEventLength t.callback
  have hswept := hpops.eventsValid (.inl rfl) hvalid
  generalize hq : ({ t.queueOf queueId with
    events := work.events, totalEventLength := work.totalEventLength } : Queue) = swept
  have hsize : swept.size ≤ (t.queueOf queueId).size := by
    rw [size_eq hvalid.filled, size_eq (by rw [← hq]; exact hswept.filled), ← hq]
    exact hpops.size_le
  have hgc' : t.gcAtOf queueId = swept.gcAt := by rw [gcAtOf_eq, ← hq]
  obtain ⟨hschedule, hset⟩ := scheduleQueueGc_spec (q := swept) h.scheduled hgc' newGcAt
  have hchanges : Changes S adds queueId ((t.queueOf queueId).state t.callback)
      (Queue.state { swept with gcAt := newGcAt } work.callback) := by
    rw [← hq]
    exact hpops.changes
  refine ⟨(t.queueOf queueId).size - swept.size, clock', _, ?_, .mk hchanges hset ?_, ?_⟩
  · unfold gcQueue
    unfold queueOf at hgc hwork hsize hq
    dsimp only
    rw [check_true hgc, ok_bind, hwork, ok_bind]
    rw [hq, check_true hsize, ok_bind, hschedule]
    rfl
  · intro ⟨e, he, hdata⟩ hzero
    rw [← hq] at he
    exact hdata (hnext.filled hzero e he)
  · refine hnext.later.imp_right fun hlater => ?_
    rw [due_rescheduled hlater]
    refine due_unscheduled ?_ ?_ ?_
    all_goals rw [← hgc', gcAtOf_eq, hgc]
    · exact hne
    · exact hmem
    · exact hlt

theorem gcLoop_spec {now : Int} {fuel : Nat} (h : Valid t) (hfuel : due now t.queueGcAt < fuel) (deleted : Nat)
    (clock : Clock) :
    ∃ deleted' done t', gcLoop S now fuel deleted clock t = .ok (deleted', done, t') ∧ Effects S adds t t' := by
  induction fuel generalizing t deleted clock with
  | zero => omega
  | succ fuel ih =>
    unfold gcLoop
    cases hset : t.queueGcAt with
    | nil => exact ⟨_, _, t, rfl, .refl⟩
    | cons x rest =>
      dsimp only
      split
      · exact ⟨_, _, t, rfl, .refl⟩
      next hlt =>
        obtain ⟨n, clock', t', hround, heffect, hdue⟩ := gcQueue_spec (S := S) adds h
          (by rw [hset]; exact mem_cons_self ..) (Int.not_le.1 hlt) clock
        rw [hround, ok_bind]
        split
        · exact ⟨_, _, t', rfl, .single heffect⟩
        next hlate =>
          have hless := hdue.resolve_left hlate
          obtain ⟨deleted', done, t'', hloop, heffects⟩ := ih (h.effect heffect) (by omega) (deleted + n) clock'.read
          exact ⟨deleted', done, t'', hloop, .head heffect heffects⟩

theorem runGc_spec (h : Valid t) (now : Int) (deadline : Nat) :
    ∃ deleted done t', runGc S now deadline t = .ok (deleted, done, t') ∧ Effects S adds t t' :=
  gcLoop_spec h (Nat.lt_succ_of_le (length_filter_le _ _)) 0 _

end TQueue

end Tdlib.Db
