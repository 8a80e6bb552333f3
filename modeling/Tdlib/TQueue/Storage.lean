/-
What a `TQueueMemoryStorage` that is the callback of a `TQueue` holds: after
every change, for each queue its events, in their order. The last event of a
queue has the id before the tail of the queue.
-/
import Tdlib.TQueue.Runs

namespace Tdlib.Db

open Function List

/-! ## The events of a queue in the storage -/

/-- The event as `replay` gives it to `do_push`. -/
def Stored.raw (x : Stored) : RawEvent := { x.event with logEventId := x.logEventId }

def entries (l : List Stored) (queueId : Int) : List RawEvent :=
  (l.filter fun x => x.queueId = queueId).map Stored.raw

section

variable {l r : List Stored} {x : Stored} {queueId queueId' : Int} {pre post : List RawEvent} {e : RawEvent}

theorem entries_append (l r : List Stored) (queueId : Int) :
    entries (l ++ r) queueId = entries l queueId ++ entries r queueId := by
  simp [entries]

theorem entries_cons_self (x : Stored) (l : List Stored) :
    entries (x :: l) x.queueId = x.raw :: entries l x.queueId := by
  simp [entries]

theorem entries_cons_of_ne (h : x.queueId ≠ queueId) (l : List Stored) :
    entries (x :: l) queueId = entries l queueId := by
  simp [entries, h]

theorem entries_split (h : entries l queueId = pre ++ e :: post) :
    ∃ left x right, l = left ++ x :: right ∧ x.queueId = queueId ∧ x.raw = e ∧ entries left queueId = pre ∧
      entries right queueId = post := by
  obtain ⟨l1, l2, hfilter, hpre, htail⟩ := map_eq_append_iff.1 h
  obtain ⟨x, l3, rfl, hx, hpost⟩ := map_eq_cons_iff.1 htail
  obtain ⟨a, b, rfl, ha, hb⟩ := filter_eq_append_iff.1 hfilter
  obtain ⟨c, right, rfl, hc, hid, hright⟩ := filter_eq_cons_iff.1 hb
  refine ⟨a ++ c, x, right, by simp, of_decide_eq_true hid, hx, ?_, ?_⟩
  · unfold entries
    rw [filter_append, ha, filter_eq_nil_iff.2 hc, append_nil, hpre]
  · unfold entries
    rw [hright, hpost]

theorem entries_mid_of_ne (h : queueId' ≠ x.queueId) (left right : List Stored) :
    entries (left ++ x :: right) queueId' = entries left queueId' ++ entries right queueId' := by
  rw [entries_append, entries_cons_of_ne h.symm]

end

/-! ## What the storage holds -/

/-- The storage holds the events, under ids that it does not give again. -/
structure Stores (m : MemoryStorage) (events : Int → List RawEvent) : Prop where
  sorted : OrderedMap.Sorted Stored.logEventId m.events
  pos : ∀ x ∈ m.events, 0 < x.logEventId
  lt : ∀ x ∈ m.events, x.logEventId < m.nextLogEventId
  queueId_ne : ∀ x ∈ m.events, x.queueId ≠ 0
  next_pos : 0 < m.nextLogEventId
  entries_eq : ∀ queueId, entries m.events queueId = events queueId

namespace Stores

variable {m : MemoryStorage} {events : Int → List RawEvent} {queueId : Int} {pre post deleted rest : List RawEvent}
  {e : RawEvent}

theorem empty : Stores {} fun _ => [] :=
  ⟨.nil, by simp, by simp, by simp, Nat.one_pos, fun _ => rfl⟩

section

variable (h : Stores m events)

include h

theorem logEventId_pos (he : e ∈ events queueId) : 0 < e.logEventId := by
  rw [← h.entries_eq] at he
  obtain ⟨x, hx, rfl⟩ := mem_map.1 he
  exact h.pos x (mem_filter.1 hx).1

theorem pop (hsplit : events queueId = pre ++ e :: post) :
    Stores (m.pop e.logEventId) (update events queueId (pre ++ post)) := by
  obtain ⟨left, x, right, hm, hid, rfl, hpre, hpost⟩ := entries_split ((h.entries_eq queueId).trans hsplit)
  have hsorted := h.sorted
  rw [hm] at hsorted
  have herase : (m.pop x.raw.logEventId).events = left ++ right := by
    unfold MemoryStorage.pop
    rw [hm]
    exact OrderedMap.erase_mid hsorted
  have hsub : ∀ y ∈ left ++ right, y ∈ m.events := by
    intro y hy
    rw [hm]
    exact ((sublist_cons_self x right).append_left left).subset hy
  refine ⟨?_, ?_, ?_, ?_, h.next_pos, fun queueId' => ?_⟩
  · rw [herase]
    exact hsorted.of_sublist ((sublist_cons_self x right).append_left left)
  · rw [herase]; exact fun y hy => h.pos y (hsub y hy)
  · rw [herase]; exact fun y hy => h.lt y (hsub y hy)
  · rw [herase]; exact fun y hy => h.queueId_ne y (hsub y hy)
  · rw [herase, entries_append]
    by_cases hne : queueId' = queueId
    · subst hne
      rw [update_self, hpre, hpost]
    · rw [update_of_ne hne, ← h.entries_eq, hm, entries_mid_of_ne (by rwa [hid])]

theorem clear (hsplit : events queueId = pre ++ e :: post) : Stores (m.push queueId { e with data := [] }).2
      (update events queueId (pre ++ { e with data := [] } :: post)) := by
  have hpos : 0 < e.logEventId := h.logEventId_pos (show e ∈ events queueId by rw [hsplit]; simp)
  obtain ⟨left, x, right, hm, rfl, rfl, hpre, hpost⟩ := entries_split ((h.entries_eq queueId).trans hsplit)
  have hsorted := h.sorted
  rw [hm] at hsorted
  generalize hnew : (⟨x.logEventId, x.queueId, { x.raw with data := [] }⟩ : Stored) = new
  have hkey : new.logEventId = x.logEventId := by rw [← hnew]
  have hassign : (m.push x.queueId { x.raw with data := [] }).2 = { m with events := left ++ new :: right } := by
    unfold MemoryStorage.push
    rw [if_neg (show ¬ x.raw.logEventId = 0 by omega), hm]
    rw [show (⟨x.raw.logEventId, x.queueId, { x.raw with data := [] }⟩ : Stored) = new from hnew,
      OrderedMap.assign_mid hsorted hkey]
  have hall : ∀ {p : Stored → Prop}, (p x → p new) → (∀ y ∈ m.events, p y) → ∀ y ∈ left ++ new :: right, p y := by
    intro p hp hall y hy
    rw [hm] at hall
    rcases mem_append.1 hy with hy | hy
    · exact hall y (by simp [hy])
    · rcases mem_cons.1 hy with rfl | hy
      · exact hp (hall x (by simp))
      · exact hall y (by simp [hy])
  rw [hassign]
  refine ⟨hsorted.replace hkey, hall (fun hx => by rwa [hkey]) h.pos, hall (fun hx => by rwa [hkey]) h.lt,
    hall (fun hx => by rwa [← hnew]) h.queueId_ne, h.next_pos, fun queueId' => ?_⟩
  by_cases hne : queueId' = x.queueId
  · subst hne
    rw [update_self, entries_append, hpre, ← hpost, ← hnew]
    exact congrArg _ (entries_cons_self _ right)
  · rw [update_of_ne hne, ← h.entries_eq, hm, entries_mid_of_ne hne, entries_mid_of_ne (by rwa [← hnew])]

theorem add (hid : queueId ≠ 0) (hzero : e.logEventId = 0) : Stores (m.push queueId e).2
      (update events queueId (events queueId ++ [{ e with logEventId := (m.push queueId e).1 }])) := by
  have hassign : m.push queueId e =
      (m.nextLogEventId, ⟨m.nextLogEventId + 1, m.events ++ [⟨m.nextLogEventId, queueId, e⟩]⟩) := by
    unfold MemoryStorage.push
    rw [if_pos hzero, OrderedMap.assign_of_lt h.lt]
  have hall : ∀ {p : Stored → Prop}, (∀ y ∈ m.events, p y) → p ⟨m.nextLogEventId, queueId, e⟩ →
      ∀ y ∈ m.events ++ [⟨m.nextLogEventId, queueId, e⟩], p y := by
    intro p hold hnew y hy
    rcases mem_append.1 hy with hy | hy
    · exact hold y hy
    · rw [mem_singleton.1 hy]; exact hnew
  rw [hassign]
  refine ⟨h.sorted.append_of_lt h.lt, hall h.pos h.next_pos, hall (fun y hy => Nat.lt_succ_of_lt (h.lt y hy))
    (Nat.lt_succ_self _), hall h.queueId_ne hid, Nat.succ_pos _, fun queueId' => ?_⟩
  rw [entries_append, h.entries_eq]
  by_cases hne : queueId' = queueId
  · subst hne
    rw [update_self, entries_cons_self ⟨m.nextLogEventId, queueId', e⟩ []]
    rfl
  · rw [update_of_ne hne, entries_cons_of_ne (fun heq => hne heq.symm)]
    exact append_nil _

theorem popBatch (hsplit : events queueId = deleted ++ rest) :
    Stores ((deleted.map (·.logEventId)).foldl (fun m logEventId => m.pop logEventId) m)
      (update events queueId rest) := by
  induction deleted generalizing m events with
  | nil =>
    rw [show rest = events queueId from hsplit.symm, update_eq_self]
    exact h
  | cons e deleted ih =>
    have hpop := ih (h.pop (show events queueId = [] ++ e :: (deleted ++ rest) from hsplit)) (update_self ..)
    rwa [update_idem] at hpop

end

end Stores

/-! ## Storages that keep a `TQueueMemoryStorage` -/

/-- The storage does what the memory storage it keeps does. -/
structure MirrorsMemory {σ : Type} (S : StorageCallback σ) (mem : σ → MemoryStorage) : Prop where
  push : ∀ queueId event s, (S.push queueId event s).1 = ((mem s).push queueId event).1 ∧
    mem (S.push queueId event s).2 = ((mem s).push queueId event).2
  pop : ∀ logEventId s, mem (S.pop logEventId s) = (mem s).pop logEventId
  popBatch : ∀ logEventIds s, mem (S.popBatch logEventIds s) =
    logEventIds.foldl (fun m logEventId => m.pop logEventId) (mem s)

theorem MemoryStorage.mirrors : MirrorsMemory MemoryStorage.callback id :=
  ⟨fun _ _ _ => ⟨rfl, rfl⟩, fun _ _ => rfl, fun _ _ => rfl⟩

namespace TQueue

variable {σ : Type} {S : StorageCallback σ} {mem : σ → MemoryStorage} {events : Int → List RawEvent} {queueId : Int}
  {tailId tailId' : EventId} {event : RawEvent} {work work' : Work σ} {start stop : EventId × Work σ} {t t' : TQueue σ}

/-- The storage holds the queue that is worked on, and `events` of the others. -/
def Backed (mem : σ → MemoryStorage) (events : Int → List RawEvent) (queueId : Int) (work : Work σ) : Prop :=
  ∃ s, work.callback = some s ∧ Stores (mem s) (update events queueId work.events)

theorem Backed.logEventId_pos (h : Backed mem events queueId work) (he : event ∈ work.events) :
    0 < event.logEventId := by
  obtain ⟨s, -, hstores⟩ := h
  exact hstores.logEventId_pos (show event ∈ update events queueId work.events queueId by
    rwa [update_self])

section

variable (hm : MirrorsMemory S mem)

include hm

theorem PopStep.backed (hstep : PopStep S queueId tailId work work')
    (h : Backed mem events queueId work) : Backed mem events queueId work' := by
  have hpos := @h.logEventId_pos
  obtain ⟨s, hs, hstores⟩ := h
  cases hstep with
  | @mk pre post event total callback popped hpopped =>
    have hlog : event.logEventId ≠ 0 := Nat.pos_iff_ne_zero.1 (hpos event (by simp))
    have hself : update events queueId (pre ++ event :: post) queueId = pre ++ event :: post :=
      update_self ..
    cases hpopped with
    | dropped hzero => exact absurd (hzero s hs) hlog
    | removed =>
      cases hs
      refine ⟨_, rfl, ?_⟩
      have hpop := hstores.pop hself
      simpa [update_idem, hm.pop] using hpop
    | cleared =>
      cases hs
      refine ⟨_, rfl, ?_⟩
      have hpush := hstores.clear hself
      simpa [update_idem, (hm.push ..).2] using hpush
    | kept =>
      cases hs
      exact ⟨s, rfl, hstores⟩

theorem Pops.backed (hpops : Pops S queueId tailId work work')
    (h : Backed mem events queueId work) : Backed mem events queueId work' :=
  hpops.inv (fun hw hstep => hstep.backed hm hw) h

/-- `do_push` tells the storage of an event without data that it takes out. -/
theorem Backed.dropEmptyLast (h : Backed mem events queueId work) :
    Backed mem events queueId ⟨(dropEmptyLast S work.events work.callback).1, work.totalEventLength,
      (TQueue.dropEmptyLast S work.events work.callback).2⟩ := by
  have hpos := @h.logEventId_pos
  obtain ⟨s, hs, hstores⟩ := h
  rcases dropEmptyLast_eq (S := S) work.events work.callback with ⟨pre, event, hevents, -, heq⟩ | ⟨-, heq⟩
  · have hlog : event.logEventId ≠ 0 := Nat.pos_iff_ne_zero.1 (hpos event (by rw [hevents]; simp))
    rw [heq, hs]
    refine ⟨_, rfl, ?_⟩
    have hpop := hstores.pop (show update events queueId work.events queueId = pre ++ event :: [] by
      rw [update_self, hevents])
    simpa [update_idem, append_nil, hlog, hm.pop] using hpop
  · rw [heq]
    exact ⟨s, hs, hstores⟩

theorem Backed.appended (h : Backed mem events queueId work) (hid : queueId ≠ 0)
    (hzero : event.logEventId = 0) : Backed mem events queueId (appended S queueId event work) := by
  obtain ⟨s, hs, hstores⟩ := h.dropEmptyLast hm
  have hadd := hstores.add hid hzero
  rw [update_self, update_idem] at hadd
  have hstored : stored S queueId event (TQueue.dropEmptyLast S work.events work.callback).2 =
      ({ event with logEventId := ((mem s).push queueId event).1 }, some (S.push queueId event s).2) := by
    unfold stored
    rw [if_pos hzero, show (TQueue.dropEmptyLast S work.events work.callback).2 = some s from hs, ← (hm.push ..).1]
  unfold TQueue.appended
  dsimp only
  rw [hstored]
  exact ⟨_, rfl, by rw [(hm.push ..).2]; exact hadd⟩

/-- **Storage.** Every change keeps what the storage holds. -/
theorem Change.backed (hchange : Change S Op.Fresh queueId start stop)
    (h : Backed mem events queueId start.2) : Backed mem events queueId stop.2 := by
  cases hchange with
  | pop hstep => exact hstep.backed hm h
  | @clearLast tailId pre event total s =>
    obtain ⟨_, hs, hstores⟩ := h
    cases hs
    refine ⟨_, rfl, ?_⟩
    have hpush := hstores.clear (update_self ..)
    simpa [update_idem, (hm.push ..).2] using hpush
  | @delete tailId deleted rest total callback =>
    have hpos := @h.logEventId_pos
    obtain ⟨s, hs, hstores⟩ := h
    cases hs
    refine ⟨_, rfl, ?_⟩
    have hpop := hstores.popBatch (update_self ..)
    rw [update_idem] at hpop
    rw [hm.popBatch, filter_eq_self.2]
    · exact hpop
    · intro logEventId hmem
      obtain ⟨e, he, rfl⟩ := mem_map.1 hmem
      exact decide_eq_true (Nat.pos_iff_ne_zero.1 (hpos e (mem_append_left _ he)))
  | append hprep hid hfresh hacc =>
    refine Backed.appended hm ?_ hid hfresh
    cases hprep with
    | ready | first => exact h
    | wrapped _ hpops _ => exact hpops.backed hm h

end

/-! ## Tails -/

/-- The last event of a queue has the id before the tail. -/
def Linked (tailId : EventId) (events : List RawEvent) : Prop :=
  (events = [] ∧ tailId.value = 0) ∨ ∃ pre e, events = pre ++ [e] ∧ e.key + 1 = tailId.value

theorem Linked.key_last {pre : List RawEvent} {e : RawEvent} (h : Linked tailId (pre ++ [e])) :
    e.key + 1 = tailId.value := by
  rcases h with ⟨hnil, _⟩ | ⟨pre', e', heq, hkey⟩
  · simp at hnil
  · obtain ⟨-, heq⟩ := append_inj' heq rfl
    cases heq
    exact hkey

theorem Linked.of_suffix {pre post : List RawEvent} (h : Linked tailId (pre ++ post)) (hne : post ≠ [])
    (pre' : List RawEvent) : Linked tailId (pre' ++ post) := by
  obtain ⟨init, last, rfl⟩ := eq_nil_or_concat' post |>.resolve_left hne
  rw [← append_assoc] at h ⊢
  exact .inr ⟨_, last, rfl, h.key_last⟩

theorem PopStep.linked (hstep : PopStep S queueId tailId work work') (h : Backed mem events queueId work)
    (hlinked : Linked tailId work.events) : Linked tailId work'.events := by
  have hpos := @h.logEventId_pos
  obtain ⟨s, hs, -⟩ := h
  cases hstep with
  | @mk pre post event total callback popped hpopped =>
    cases hpopped with
    | dropped hzero => exact absurd (hzero s hs) (Nat.pos_iff_ne_zero.1 (hpos event (by simp)))
    | removed _ hne =>
      have hpost : post ≠ [] := by
        rintro rfl
        exact hne hlinked.key_last
      rw [append_cons] at hlinked
      exact hlinked.of_suffix hpost pre
    | cleared _ hkey =>
      rcases eq_nil_or_concat' post with rfl | ⟨init, last, rfl⟩
      · exact .inr ⟨pre, _, rfl, hkey⟩
      · rw [append_cons] at hlinked
        have := hlinked.of_suffix (by simp) (pre ++ [{ event with data := [] }])
        rwa [← append_cons] at this
    | kept => exact hlinked

theorem Change.linked (hchange : Change S Op.Fresh queueId start stop) (h : Backed mem events queueId start.2)
    (hlinked : Linked start.1 start.2.events) : Linked stop.1 stop.2.events := by
  cases hchange with
  | pop hstep => exact hstep.linked h hlinked
  | clearLast =>
    have hkey := Linked.key_last hlinked
    exact .inr ⟨_, _, rfl, hkey⟩
  | @delete tailId deleted rest total callback hlast =>
    refine Linked.of_suffix hlinked (fun hnil => ?_) []
    have hpos := @h.logEventId_pos
    obtain ⟨s, hs, -⟩ := h
    obtain ⟨e, he, hzero⟩ := hlast s hs hnil
    exact absurd hzero (Nat.pos_iff_ne_zero.1 (hpos e (mem_append_left _ he)))
  | append _ _ _ hacc =>
    refine .inr ⟨_, _, rfl, ?_⟩
    unfold RawEvent.key
    rw [(stored_fields ..).1]
    exact EventId.next_eq_some.1 hacc.next

end TQueue

end Tdlib.Db
