/-
The invariant of a `TQueue`: what holds of the events of every queue, and that
`queue_gc_at_` has the queues that are to be looked at.
-/
import Tdlib.TQueue.Pops
import Mathlib.Algebra.Order.BigOperators.Group.List

namespace Tdlib.Db.TQueue

open OrderedMap List

variable {σ : Type} {S : StorageCallback σ} {queueId : Int} {tailId fromId : EventId} {event : RawEvent}
  {events events' : List RawEvent} {total : Nat} {callback : Option σ} {work work' : Work σ} {q : Queue}
  {t t' : TQueue σ}

/-! ## Lengths -/

def dataLength (events : List RawEvent) : Nat := (events.map (·.data.length)).sum

theorem dataLength_append (l r : List RawEvent) : dataLength (l ++ r) = dataLength l + dataLength r := by
  simp [dataLength]

theorem dataLength_cons (e : RawEvent) (l : List RawEvent) : dataLength (e :: l) = e.data.length + dataLength l := by
  simp [dataLength]

theorem dataLength_le_of_sublist (h : events'.Sublist events) : dataLength events' ≤ dataLength events :=
  (h.map _).sum_le_sum fun _ _ => Nat.zero_le _

theorem sizeSub_eq {a b : Nat} (h : b ≤ a) (ha : a ≤ maxTotalEventLength) : sizeSub a b = a - b := by
  unfold maxTotalEventLength at ha
  unfold sizeSub
  omega

theorem sizeAdd_eq {a b : Nat} (h : a + b ≤ maxTotalEventLength) : sizeAdd a b = a + b := by
  unfold maxTotalEventLength at h
  unfold sizeAdd
  omega

theorem foldl_sizeSub (l : List RawEvent) (h : dataLength l ≤ total) (hle : total ≤ maxTotalEventLength) :
    l.foldl (fun total e => sizeSub total e.data.length) total = total - dataLength l := by
  induction l generalizing total with
  | nil => rfl
  | cons e l ih =>
    rw [dataLength_cons] at h ⊢
    rw [foldl_cons, sizeSub_eq (by omega) hle, ih (by omega) (by omega)]
    omega

theorem foldl_sizeAdd (l : List RawEvent) (h : total + dataLength l ≤ maxTotalEventLength) :
    l.foldl (fun total e => sizeAdd total e.data.length) total = total + dataLength l := by
  induction l generalizing total with
  | nil => rfl
  | cons e l ih =>
    rw [dataLength_cons] at h ⊢
    rw [foldl_cons, sizeAdd_eq (by omega), ih (by omega)]
    omega

/-! ## The events of a queue -/

/-- Ids grow and are below the tail; only the last event may be without data. -/
structure EventsValid (tailId : EventId) (events : List RawEvent) (total : Nat) : Prop where
  sorted : OrderedMap.Sorted RawEvent.key events
  positive : ∀ e ∈ events, 0 < e.key
  below : ∀ e ∈ events, e.key < tailId.value
  filled : events.Pairwise fun e _ => e.data ≠ []
  expires : ∀ e ∈ events, 0 < e.expiresAt
  small : ∀ e ∈ events, e.data.length ≤ maxEventLength
  total_eq : total = dataLength events
  total_le : total ≤ maxTotalEventLength
  count : events.length ≤ maxQueueEvents

theorem EventsValid.nil (tailId : EventId) : EventsValid tailId [] 0 :=
  ⟨.nil, by simp, by simp, .nil, by simp, by simp, rfl, Nat.zero_le _, Nat.zero_le _⟩

theorem EventsValid.haveNext (h : EventsValid tailId events total) : HaveNext events := by
  intro e he
  have := h.below e he
  have := tailId.value_lt
  exact EventId.next_isSome.2 (by unfold RawEvent.key at *; omega)

theorem EventsValid.of_sublist (h : EventsValid tailId events total) (hsub : events'.Sublist events) :
    EventsValid tailId events' (dataLength events') := by
  have hle := dataLength_le_of_sublist hsub
  have := h.total_le
  rw [h.total_eq] at this
  exact ⟨h.sorted.of_sublist hsub, fun e he => h.positive e (hsub.subset he),
    fun e he => h.below e (hsub.subset he), h.filled.sublist hsub,
    fun e he => h.expires e (hsub.subset he), fun e he => h.small e (hsub.subset he), rfl, by omega,
      Nat.le_trans hsub.length_le h.count⟩

theorem EventsValid.clearLast {pre : List RawEvent} (h : EventsValid tailId (pre ++ [event]) total) :
    EventsValid tailId (pre ++ [{ event with data := [] }]) (sizeSub total event.data.length) := by
  have htotal := h.total_eq
  have hle := h.total_le
  rw [dataLength_append, dataLength_cons] at htotal
  obtain ⟨hpre, -, hcross⟩ := pairwise_append.1 h.filled
  have hall : ∀ {p : RawEvent → Prop}, (p event → p { event with data := [] }) → (∀ e ∈ pre ++ [event], p e) →
      ∀ e ∈ pre ++ [{ event with data := [] }], p e := by
    intro p hp hall e he
    rcases mem_append.1 he with he | he
    · exact hall e (by simp [he])
    · simp [mem_singleton.1 he, hp, hall]
  refine ⟨h.sorted.replace rfl, hall id h.positive, hall id h.below, ?_, hall id h.expires,
    hall (fun _ => Nat.zero_le _) h.small, ?_, ?_, ?_⟩
  · refine pairwise_append.2 ⟨hpre, pairwise_singleton _ _, fun e he _ _ => hcross e he event (by simp)⟩
  · rw [sizeSub_eq (by omega) hle, dataLength_append, dataLength_cons]
    simp only [length_nil]
    omega
  · rw [sizeSub_eq (by omega) hle]; omega
  · have := h.count
    simp_all

theorem EventsValid.remove {pre post : List RawEvent} (h : EventsValid tailId (pre ++ event :: post) total) :
    EventsValid tailId (pre ++ post) (sizeSub total event.data.length) := by
  have htotal := h.total_eq
  have hle := h.total_le
  have hsub : (pre ++ post).Sublist (pre ++ event :: post) := (sublist_cons_self event post).append_left pre
  rw [dataLength_append, dataLength_cons] at htotal
  have hrest : total - event.data.length = dataLength (pre ++ post) := by rw [dataLength_append]; omega
  rw [sizeSub_eq (by omega) hle, hrest]
  exact h.of_sublist hsub

variable {tailId' : EventId} {queueGcAt : List (Int × Int)}

/-- **`pop`** keeps it, for the tail of the queue or none. -/
theorem PopStep.eventsValid (hstep : PopStep S queueId tailId' work work')
    (htail : tailId' = tailId ∨ tailId'.value = 0) (h : EventsValid tailId work.events work.totalEventLength) :
    EventsValid tailId work'.events work'.totalEventLength := by
  cases hstep with
  | @mk pre post event total callback popped hpopped =>
    cases hpopped with
    | dropped | removed => exact h.remove
    | cleared _ hkey _ =>
      -- Only the last event is followed by the tail.
      have hpost : post = [] := by
        rcases htail with rfl | hzero
        · rw [eq_nil_iff_forall_not_mem]
          intro e he
          have hlt := h.sorted.lt_of_split.2 e he
          have := h.below e (by simp [he])
          omega
        · omega
      subst hpost
      exact h.clearLast
    | kept => exact h

theorem Pops.eventsValid (hpops : Pops S queueId tailId' work work')
    (htail : tailId' = tailId ∨ tailId'.value = 0) (h : EventsValid tailId work.events work.totalEventLength) :
    EventsValid tailId work'.events work'.totalEventLength :=
  hpops.inv (I := fun w => EventsValid tailId w.events w.totalEventLength)
    (fun hw hstep => hstep.eventsValid htail hw) h

theorem Pops.mem_of_filled (h : Pops S queueId tailId work work') (he : event ∈ work'.events)
    (hdata : event.data ≠ []) : event ∈ work.events := by
  refine h.inv (I := fun w => event ∈ w.events → event ∈ work.events) ?_ id he
  intro w w' hw hstep hmem
  refine hw ?_
  cases hstep with
  | mk hpopped =>
    rw [mem_append, mem_append] at hmem
    rcases hmem with hmem | hmem | hmem
    · simp [hmem]
    · exact absurd (hpopped.data_nil hmem) hdata
    · simp [hmem]

theorem size_eq (h : q.events.Pairwise fun e _ => e.data ≠ []) :
    q.size = (q.events.filter fun e => e.data ≠ []).length := by
  unfold Queue.size
  cases hlast : q.events.getLast? with
  | none => rw [List.getLast?_eq_none_iff.1 hlast]; rfl
  | some e =>
    obtain ⟨pre, hpre⟩ := List.getLast?_eq_some_iff.1 hlast
    rw [hpre] at h ⊢
    have hfilter : pre.filter (fun e => e.data ≠ []) = pre := by
      rw [filter_eq_self]
      intro x hx
      exact decide_eq_true ((pairwise_append.1 h).2.2 x hx e (by simp))
    rw [filter_append, hfilter]
    by_cases hdata : e.data = []
    · simp [hdata]
    · simp [hdata]

theorem Pops.size_le (h : Pops S queueId tailId work work') :
    (work'.events.filter fun e => e.data ≠ []).length ≤ (work.events.filter fun e => e.data ≠ []).length := by
  refine h.inv (I := fun w => (w.events.filter fun e => e.data ≠ []).length ≤ _) ?_ (Nat.le_refl _)
  intro w w' hw hstep
  refine Nat.le_trans ?_ hw
  cases hstep with
  | @mk pre post event total callback popped hpopped =>
    have hnil : popped.1.toList.filter (fun e => e.data ≠ []) = [] := by
      rw [filter_eq_nil_iff]
      intro e he
      simp [hpopped.data_nil he]
    simp only [filter_append, hnil, nil_append, length_append]
    have := ((sublist_cons_self event post).filter fun e => e.data ≠ []).length_le
    omega

/-! ## `queue_gc_at_` -/

/-- The time of a queue, or zero. -/
def gcAtOf (t : TQueue σ) (queueId : Int) : Int := ((t.queues queueId).map (·.gcAt)).getD 0

/-- The set has the queues with a time. -/
def Scheduled (queueGcAt : List (Int × Int)) (gcAtOf : Int → Int) : Prop :=
  ∀ gcAt queueId, (gcAt, queueId) ∈ queueGcAt ↔ gcAt ≠ 0 ∧ gcAtOf queueId = gcAt

/-- The set without a queue that has the time `gcAt`. -/
def unscheduled (queueId gcAt : Int) (queueGcAt : List (Int × Int)) : List (Int × Int) :=
  if gcAt ≠ 0 then erase toLex (toLex (gcAt, queueId)) queueGcAt else queueGcAt

/-- The set with a queue that gets the time `gcAt`. -/
def rescheduled (queueId gcAt : Int) (queueGcAt : List (Int × Int)) : List (Int × Int) :=
  if gcAt ≠ 0 then emplace toLex (gcAt, queueId) queueGcAt else queueGcAt

section

variable {queueGcAt : List (Int × Int)} {g : Int → Int} {gcAt now : Int}

theorem mem_unscheduled (h : Scheduled queueGcAt g) {x : Int × Int} :
    x ∈ unscheduled queueId (g queueId) queueGcAt ↔ x ∈ queueGcAt ∧ x.2 ≠ queueId := by
  have hx : x ∈ queueGcAt → (x.2 = queueId ↔ g queueId ≠ 0 ∧ x = (g queueId, queueId)) := by
    intro hmem
    obtain ⟨hne, heq⟩ := (h x.1 x.2).1 hmem
    constructor
    · intro h2
      rw [h2] at heq
      exact ⟨by rwa [heq], Prod.ext heq.symm h2⟩
    · intro ⟨_, h2⟩
      rw [h2]
  unfold unscheduled
  split
  next hne =>
    rw [mem_erase]
    refine and_congr_right fun hmem => not_congr ?_
    simp [hx hmem, and_iff_right hne]
  next hzero => exact (and_iff_left_of_imp fun hmem h2 => hzero ((hx hmem).1 h2).1).symm

theorem mem_rescheduled (h : (gcAt, queueId) ∉ queueGcAt) {x : Int × Int} :
    x ∈ rescheduled queueId gcAt queueGcAt ↔ (gcAt ≠ 0 ∧ x = (gcAt, queueId)) ∨ x ∈ queueGcAt := by
  unfold rescheduled
  split
  next hne =>
    rw [mem_emplace fun b hb heq => h (by rwa [← toLex.injective heq]), and_iff_right hne]
  next hzero => simp [hzero]

/-- **`schedule_queue_gc`** does not abort, and only the queue's time changes. -/
theorem scheduleQueueGc_spec (h : Scheduled queueGcAt g) (hq : g queueId = q.gcAt) (gcAt : Int) :
    scheduleQueueGc queueId q gcAt queueGcAt =
        .ok ({ q with gcAt }, rescheduled queueId gcAt (unscheduled queueId q.gcAt queueGcAt)) ∧
      Scheduled (rescheduled queueId gcAt (unscheduled queueId q.gcAt queueGcAt)) (Function.update g queueId gcAt) := by
  have hin : q.gcAt ≠ 0 → (q.gcAt, queueId) ∈ queueGcAt := fun hne => (h _ _).2 ⟨hne, hq⟩
  have hout : (gcAt, queueId) ∉ unscheduled queueId q.gcAt queueGcAt := by
    simp [← hq, mem_unscheduled h]
  constructor
  · simp only [scheduleQueueGc]
    rw [Outcome.check_true hin, Outcome.ok_bind, Outcome.check_true (fun _ => by exact hout)]
    rfl
  · intro gcAt' queueId'
    rw [mem_rescheduled hout, ← hq, mem_unscheduled h, h]
    by_cases hid : queueId' = queueId
    · subst hid
      rw [Function.update_self, Prod.mk.injEq]
      constructor
      · rintro (⟨hne, rfl, _⟩ | ⟨_, hne⟩)
        · exact ⟨hne, rfl⟩
        · exact absurd rfl hne
      · rintro ⟨hne, rfl⟩
        exact .inl ⟨hne, rfl, rfl⟩
    · simp [hid]

/-- How many queues are due. -/
def due (now : Int) (queueGcAt : List (Int × Int)) : Nat := (queueGcAt.filter fun x => x.1 < now).length

theorem due_unscheduled (hne : gcAt ≠ 0) (hmem : (gcAt, queueId) ∈ queueGcAt) (hlt : gcAt < now) :
    due now (unscheduled queueId gcAt queueGcAt) < due now queueGcAt := by
  unfold due unscheduled erase
  rw [if_pos hne, filter_comm, length_filter_lt_length_iff_exists]
  exact ⟨(gcAt, queueId), mem_filter.2 ⟨hmem, decide_eq_true hlt⟩, by simp⟩

theorem due_rescheduled (h : gcAt = 0 ∨ now ≤ gcAt) :
    due now (rescheduled queueId gcAt queueGcAt) = due now queueGcAt := by
  unfold rescheduled
  split
  next hne =>
    have hle : ¬ gcAt < now := by omega
    unfold due
    rw [filter_emplace (by simp [hle])]
  next => rfl

end

/-! ## The invariant -/

structure Valid (t : TQueue σ) : Prop where
  events : ∀ {queueId q}, t.queues queueId = some q → EventsValid q.tailId q.events q.totalEventLength
  scheduled : Scheduled t.queueGcAt t.gcAtOf
  looked : ∀ {queueId q}, t.queues queueId = some q → (∃ e ∈ q.events, e.data ≠ []) → q.gcAt ≠ 0

theorem Valid.empty (callback : Option σ) : Valid ({ callback } : TQueue σ) := by
  refine ⟨fun h => ?_, ?_, fun h => ?_⟩
  · cases h
  · intro gcAt queueId
    simp [gcAtOf, eq_comm]
  · cases h

theorem gcAtOf_update (callback : Option σ) :
    gcAtOf { queues := Function.update t.queues queueId (some q), queueGcAt, callback } =
      Function.update t.gcAtOf queueId q.gcAt := by
  funext queueId'
  by_cases hid : queueId' = queueId
  · subst hid; simp [gcAtOf]
  · simp [gcAtOf, hid]

/-- The queue `queueId` is now `q`, and is looked at as `q` says. -/
theorem Valid.update (h : Valid t) (hevents : EventsValid q.tailId q.events q.totalEventLength)
    (hset : Scheduled queueGcAt (Function.update t.gcAtOf queueId q.gcAt))
    (hlooked : (∃ e ∈ q.events, e.data ≠ []) → q.gcAt ≠ 0) (callback : Option σ) :
    Valid { queues := Function.update t.queues queueId (some q), queueGcAt, callback } := by
  have hsplit : ∀ {P : Int → Queue → Prop}, P queueId q → (∀ {id q'}, t.queues id = some q' → P id q') →
      ∀ {id q'}, Function.update t.queues queueId (some q) id = some q' → P id q' := by
    intro P hself hother id q' hid
    by_cases heq : id = queueId
    · subst heq
      rw [Function.update_self] at hid
      cases hid
      exact hself
    · simp_all
  exact ⟨hsplit (P := fun _ q => EventsValid q.tailId q.events q.totalEventLength) hevents h.events,
    by rwa [gcAtOf_update],
    hsplit (P := fun _ q => (∃ e ∈ q.events, e.data ≠ []) → q.gcAt ≠ 0) hlooked h.looked⟩

end Tdlib.Db.TQueue
