/-
`TQueueMemoryStorage::replay` into a fresh `TQueue`: the queues come back as
they are, whatever the operations were.
-/
import Tdlib.TQueue.Storage

namespace Tdlib.Db.TQueue

open Function

variable {σ : Type} {S : StorageCallback σ} {mem : σ → MemoryStorage} {queueId : Int} {tailId tailId' : EventId}
  {start stop : EventId × Work σ} {t t' : TQueue σ} {m : MemoryStorage} {x : Stored} {l r : List Stored}

/-! ## Replay -/

theorem Linked.tailId_eq {events : List RawEvent} (h : Linked tailId events) (h' : Linked tailId' events) :
    tailId = tailId' := by
  rcases h with ⟨rfl, hzero⟩ | ⟨pre, e, rfl, hkey⟩
  · rcases h' with ⟨_, hzero'⟩ | ⟨pre', e', heq, _⟩
    · exact EventId.ext (hzero.trans hzero'.symm)
    · simp at heq
  · exact EventId.ext (hkey.symm.trans h'.key_last)

/-- The queues are in the storage. -/
structure Restorable (m : MemoryStorage) (tails : Int → EventId) (events : Int → List RawEvent) : Prop where
  stores : Stores m events
  linked : ∀ queueId, Linked (tails queueId) (events queueId)
  valid : ∀ queueId, EventsValid (tails queueId) (events queueId) (dataLength (events queueId))

/-- The state once the events `l` are replayed. -/
structure Replayed (l : List Stored) (t : TQueue σ) : Prop where
  valid : Valid t
  events_eq : ∀ queueId, (t.queueOf queueId).events = entries l queueId
  linked : ∀ queueId, Linked (t.queueOf queueId).tailId (entries l queueId)

theorem Replayed.empty (callback : Option σ) : Replayed [] ({ callback } : TQueue σ) :=
  ⟨.empty callback, fun _ => rfl, fun _ => .inl ⟨rfl, rfl⟩⟩

/-- The next event of a queue is one that `do_push` takes. -/
theorem Replayed.accepted {pre post : List RawEvent} {e : RawEvent} {q : Queue} (hlinked : Linked q.tailId pre)
    (hq : q.events = pre) (hq' : EventsValid q.tailId q.events q.totalEventLength)
    (h : EventsValid tailId (pre ++ e :: post) (dataLength (pre ++ e :: post))) (callback : Option σ) :
    ∃ tailId', Accepted q.tailId (q.state callback).2 e tailId' := by
  have hmem : e ∈ pre ++ e :: post := by simp
  obtain ⟨tailId', hnext⟩ := Option.isSome_iff_exists.1 (h.haveNext e hmem)
  have hcount := h.count
  have htotal := h.total_le
  have hsum : q.totalEventLength = dataLength pre := by rw [hq'.total_eq, hq]
  rw [dataLength_append, dataLength_cons] at htotal
  rw [List.length_append, List.length_cons] at hcount
  refine ⟨tailId', h.positive e hmem, hnext, ?_, h.expires e hmem, h.small e hmem, ?_, ?_⟩
  · rcases hlinked with ⟨_, hzero⟩ | ⟨pre', last, rfl, hkey⟩
    · omega
    · have : last.key < e.key := h.sorted.lt_of_split.1 last (by simp)
      omega
  · rw [show (q.state callback).2.events = pre from hq]
    omega
  · rw [show (q.state callback).2.totalEventLength = dataLength pre from hsum]
    omega

theorem appended_of_filled {event : RawEvent} {work : Work σ} (hfilled : ∀ e ∈ work.events, e.data ≠ [])
    (hlog : event.logEventId ≠ 0) : (appended S queueId event work).events = work.events ++ [event] := by
  unfold appended stored
  dsimp only
  rw [dropEmptyLast_of_filled fun e he => hfilled e (List.mem_of_getLast? he), if_neg hlog]

variable {tails : Int → EventId} {events : Int → List RawEvent}

/-- **`replay`**, one event. -/
theorem Replayed.step (h : Replayed l t)
    (hm : Restorable m tails events) (hl : m.events = l ++ x :: r) (S : StorageCallback σ) :
    ∃ t', t.doPush S x.queueId x.raw = .ok (true, t') ∧ Replayed (l ++ [x]) t' := by
  have hmem : x ∈ m.events := by rw [hl]; simp
  have hsplit : events x.queueId = entries l x.queueId ++ x.raw :: entries r x.queueId := by
    rw [← hm.stores.entries_eq, hl, entries_append, entries_cons_self]
  have hvalid := hm.valid x.queueId
  rw [hsplit] at hvalid
  have hlog : x.raw.logEventId ≠ 0 := Nat.pos_iff_ne_zero.1 (hm.stores.pos x hmem)
  have hfilled : ∀ e ∈ (t.queueOf x.queueId).events, e.data ≠ [] := by
    rw [h.events_eq]
    intro e he
    exact (List.pairwise_append.1 hvalid.filled).2.2 e he x.raw (by simp)
  obtain ⟨tailId', hacc⟩ := Replayed.accepted (h.linked x.queueId) (h.events_eq x.queueId) (h.valid.queueOf x.queueId)
    hvalid t.callback
  obtain ⟨gcAt, queueGcAt, hpush, hset, hlooked⟩ := doPush_accepted (S := S) rfl (hm.stores.queueId_ne x hmem)
    h.valid.scheduled (gcAtOf_eq t x.queueId) (h.valid.queueOf x.queueId) h.valid.looked_queueOf hacc
  have happended : (appended S x.queueId x.raw ((t.queueOf x.queueId).state t.callback).2).events =
      entries (l ++ [x]) x.queueId := by
    rw [appended_of_filled hfilled hlog, entries_append, entries_cons_self, ← h.events_eq]
    rfl
  have hother : ∀ {queueId}, queueId ≠ x.queueId → entries (l ++ [x]) queueId = entries l queueId := by
    intro queueId hne
    rw [entries_append, entries_cons_of_ne hne.symm]
    exact List.append_nil _
  have heffect : Effect S (fun _ _ => True) t
      (appendedTo S x.queueId x.raw (t.queueOf x.queueId) tailId' gcAt queueGcAt t) :=
    .mk (.single (.append .ready (hm.stores.queueId_ne x hmem) trivial hacc)) hset hlooked
  refine ⟨_, hpush, h.valid.effect heffect, fun queueId => ?_, fun queueId => ?_⟩
  · unfold appendedTo
    rw [queueOf_update]
    by_cases hid : queueId = x.queueId
    · subst hid
      rw [update_self]
      exact happended
    · rw [update_of_ne hid, hother hid, h.events_eq]
  · unfold appendedTo
    rw [queueOf_update]
    by_cases hid : queueId = x.queueId
    · subst hid
      rw [update_self, entries_append, entries_cons_self]
      exact .inr ⟨_, x.raw, rfl, EventId.next_eq_some.1 hacc.next⟩
    · simp [update_of_ne hid, hother hid, h.linked]

/-- **`replay`** does not abort, and gives the queues that are in the storage. -/
theorem replay_spec (hm : Restorable m tails events) (S : StorageCallback σ) (callback : Option σ) :
    ∃ t, m.replay S { callback } = .ok t ∧ ∀ queueId, (t.queueOf queueId).tailId = tails queueId ∧
      (t.queueOf queueId).events = events queueId ∧
      (t.queueOf queueId).totalEventLength = dataLength (events queueId) := by
  obtain ⟨t, hreplay, l, hl, hreplayed⟩ := Outcome.foldlM_total
    (f := fun (t : TQueue σ) (x : Stored) => do
      let added ← t.doPush S x.queueId { x.event with logEventId := x.logEventId }
      Outcome.check (added.1 = true)
      pure added.2)
    (I := fun rest t => ∃ l, m.events = l ++ rest ∧ Replayed l t)
    (fun {x r t} ⟨l, hl, h⟩ => by
      obtain ⟨t', hpush, h'⟩ := h.step hm hl S
      refine ⟨t', ?_, l ++ [x], by rw [hl]; simp, h'⟩
      rw [show t.doPush S x.queueId { x.event with logEventId := x.logEventId } = .ok (true, t') from hpush]
      rfl)
    ⟨[], rfl, Replayed.empty callback⟩
  rw [List.append_nil] at hl
  subst hl
  refine ⟨t, hreplay, fun queueId => ?_⟩
  have hevents := (hreplayed.events_eq queueId).trans (hm.stores.entries_eq queueId)
  have hlinked := hreplayed.linked queueId
  rw [hm.stores.entries_eq] at hlinked
  exact ⟨hlinked.tailId_eq (hm.linked queueId), hevents, by rw [(hreplayed.valid.queueOf queueId).total_eq, hevents]⟩

/-! ## Runs with a storage -/

/-- The storage has the queues of `t`. -/
def Synced (mem : σ → MemoryStorage) (t : TQueue σ) : Prop :=
  ∃ s, t.callback = some s ∧ Stores (mem s) (fun queueId => (t.queueOf queueId).events) ∧
    ∀ queueId, Linked (t.queueOf queueId).tailId (t.queueOf queueId).events

theorem Changes.backed (hm : MirrorsMemory S mem)
    (hchanges : Changes S Op.Fresh queueId start stop) (h : Backed mem events queueId start.2)
    (hlinked : Linked start.1 start.2.events) : Backed mem events queueId stop.2 ∧ Linked stop.1 stop.2.events := by
  induction hchanges with
  | refl => exact ⟨h, hlinked⟩
  | tail _ hchange ih => exact ⟨hchange.backed hm ih.1, hchange.linked ih.1 ih.2⟩

/-- What the storage holds of all queues, with one of them as it is worked on. -/
theorem Synced.effect (hm : MirrorsMemory S mem) (h : Synced mem t) (heffect : Effect S Op.Fresh t t') :
    Synced mem t' := by
  obtain ⟨s, hs, hstores, hlinked⟩ := h
  cases heffect with
  | @mk queueId q queueGcAt callback hchanges _ _ =>
    have hbacked : Backed mem (fun queueId => (t.queueOf queueId).events) queueId
        ((t.queueOf queueId).state t.callback).2 := by
      refine ⟨s, hs, ?_⟩
      rwa [show ((t.queueOf queueId).state t.callback).2.events = (fun id => (t.queueOf id).events) queueId from rfl,
        update_eq_self]
    obtain ⟨⟨s', hs', hstores'⟩, hlinked'⟩ := Changes.backed hm hchanges hbacked (hlinked queueId)
    refine ⟨s', hs', ?_, fun id => ?_⟩
    · rw [queueOf_update]
      convert hstores' using 1
      funext id
      by_cases hid : id = queueId
      · subst hid; simp; rfl
      · simp [hid]
    · rw [queueOf_update]
      by_cases hid : id = queueId
      · subst hid
        rw [update_self]
        exact hlinked'
      · simp [update_of_ne hid, hlinked]

theorem Synced.effects (hm : MirrorsMemory S mem) (h : Synced mem t) (heffects : Effects S Op.Fresh t t') :
    Synced mem t' := by
  induction heffects with
  | refl => exact h
  | tail _ heffect ih => exact ih.effect hm heffect

theorem Synced.restorable {s : σ} (h : Synced mem t) (hvalid : Valid t) (hs : t.callback = some s) :
    Restorable (mem s) (fun queueId => (t.queueOf queueId).tailId) (fun queueId => (t.queueOf queueId).events) := by
  obtain ⟨s', hs', hstores, hlinked⟩ := h
  cases hs.symm.trans hs'
  refine ⟨hstores, hlinked, fun queueId => ?_⟩
  have hevents := hvalid.queueOf queueId
  rwa [hevents.total_eq] at hevents

theorem Synced.empty {s : σ} (h : mem s = {}) : Synced mem ({ callback := some s } : TQueue σ) :=
  ⟨s, rfl, by rw [h]; exact Stores.empty, fun _ => .inl ⟨rfl, rfl⟩⟩

theorem Synced.runOps {ops : List Op} (hm : MirrorsMemory S mem) (hvalid : Valid t) (h : Synced mem t)
    (hrun : runOps S ops t = .ok t') : Valid t' ∧ Synced mem t' := by
  refine Outcome.foldlM_inv (I := fun t => Valid t ∧ Synced mem t) ?_ ⟨hvalid, h⟩ hrun
  intro t op t' ⟨hvalid, h⟩ hop
  have heffects := Op.run_effects hvalid (op.adds_fresh t) hop
  exact ⟨hvalid.effects heffects, h.effects hm heffects⟩

theorem getTail_eq (t : TQueue σ) (queueId : Int) : t.getTail queueId = (t.queueOf queueId).tailId := by
  unfold getTail queueOf
  cases t.queues queueId <;> rfl

/-- **Replay.** After any operations with a `TQueueMemoryStorage` from the start,
`replay` into a fresh `TQueue` does not abort, and gives every queue its tail,
its events and their length. -/
theorem replay_restores {τ : Type} {ops : List Op} {t : TQueue MemoryStorage}
    (hrun : runOps MemoryStorage.callback ops { callback := some {} } = .ok t) (S : StorageCallback τ)
    (callback : Option τ) : ∃ m t', t.callback = some m ∧ m.replay S { callback } = .ok t' ∧
      ∀ queueId, t'.getTail queueId = t.getTail queueId ∧
        (t'.queueOf queueId).events = (t.queueOf queueId).events ∧
        (t'.queueOf queueId).totalEventLength = (t.queueOf queueId).totalEventLength := by
  obtain ⟨hvalid, hsynced⟩ := Synced.runOps MemoryStorage.mirrors (.empty _) (.empty rfl) hrun
  obtain ⟨m, hm, -⟩ := id hsynced
  obtain ⟨t', hreplay, hqueues⟩ := replay_spec (hsynced.restorable hvalid hm) S callback
  refine ⟨m, t', hm, hreplay, fun queueId => ?_⟩
  obtain ⟨htail, hevents, htotal⟩ := hqueues queueId
  rw [getTail_eq, getTail_eq]
  exact ⟨htail, hevents, htotal.trans (hvalid.queueOf queueId).total_eq.symm⟩

/-- The events of the first queue, and the id that is left of the second one. -/
theorem replay_restores_sample :
    ∃ m t', sampleState.callback = some m ∧ m.replay MemoryStorage.callback { callback := none } = .ok t' ∧
      (t'.queueOf 5).events = (sampleState.queueOf 5).events ∧
      t'.getTail (-6) = sampleState.getTail (-6) ∧ (sampleState.getTail (-6)).value = 2000002 := by
  obtain ⟨m, t', hm, hreplay, hqueues⟩ := replay_restores
    (show runOps MemoryStorage.callback sampleOps { callback := some {} } = .ok sampleState from Outcome.eq_ok_get _ _)
    MemoryStorage.callback none
  exact ⟨m, t', hm, hreplay, (hqueues 5).2.1, (hqueues (-6)).1, by decide +kernel⟩

end Tdlib.Db.TQueue
