/-
What one event does to a `BinlogEventsProcessor`: an event with a new id is
appended, a rewrite replaces the live event of its id, an erase removes it.
Compaction changes none of it.
-/
import Tdlib.Binlog.Processor
import Mathlib.Data.List.Pairwise

namespace Tdlib.Db.BinlogEventsProcessor

open List

/-- Slots stand in id order, one for an id, and a live slot's id is its
event's. -/
structure WF (p : BinlogEventsProcessor) : Prop where
  sorted : p.slots.Pairwise fun s t => s.eventId / 2 < t.eventId / 2
  ids : ∀ s ∈ p.slots, s.isLive → s.eventId = 2 * s.event.id

/-- Slots stand in id order, one for an id. -/
def Sorted (p : BinlogEventsProcessor) : Prop := p.slots.Pairwise fun s t => s.eventId / 2 < t.eventId / 2

/-- No slot, live or erased, has the id `n` or a larger one. -/
def Below (p : BinlogEventsProcessor) (n : Nat) : Prop := ∀ s ∈ p.slots, s.eventId < 2 * n

variable {p q : BinlogEventsProcessor} {l r : List Slot} {s : Slot} {n v : Nat}

theorem Below.mono {m : Nat} (h : p.Below n) (hnm : n ≤ m) : p.Below m :=
  fun s hs => by have := h s hs; omega

/-! ## Compaction -/

theorem maybeCompactify_cases (p : BinlogEventsProcessor) :
    p.maybeCompactify = p ∨ p.maybeCompactify = p.compactify := by
  unfold maybeCompactify
  split
  · exact .inr rfl
  · exact .inl rfl

@[simp] theorem live_maybeCompactify (p : BinlogEventsProcessor) : p.maybeCompactify.live = p.live := by
  rcases p.maybeCompactify_cases with h | h
  · rw [h]
  · rw [h]; simp [live, compactify]

@[simp] theorem lastEventId_maybeCompactify (p : BinlogEventsProcessor) :
    p.maybeCompactify.lastEventId = p.lastEventId := by
  rcases p.maybeCompactify_cases with h | h <;> rw [h]; rfl

@[simp] theorem offset_maybeCompactify (p : BinlogEventsProcessor) : p.maybeCompactify.offset = p.offset := by
  rcases p.maybeCompactify_cases with h | h <;> rw [h]; rfl

theorem WF.maybeCompactify (h : p.WF) : p.maybeCompactify.WF := by
  rcases p.maybeCompactify_cases with hc | hc
  · rw [hc]; exact h
  · rw [hc]; exact ⟨h.sorted.filter _, fun s hs => h.ids s (mem_of_mem_filter hs)⟩

theorem Below.maybeCompactify (h : p.Below n) : p.maybeCompactify.Below n := by
  rcases p.maybeCompactify_cases with hc | hc
  · rw [hc]; exact h
  · rw [hc]; exact fun s hs => h s (mem_of_mem_filter hs)

/-! ## Positions -/

variable {slots : List Slot} {id : Nat} {t : Slot} {x : BinlogEvent}

theorem backGe_of_mem (hs : s ∈ slots) (hv : v ≤ s.eventId)
    (sorted : slots.Pairwise fun s t => s.eventId / 2 < t.eventId / 2) : backGe slots v = true := by
  unfold backGe
  cases hl : slots.getLast? with
  | none => rw [List.getLast?_eq_none_iff] at hl; simp [hl] at hs
  | some t =>
    obtain ⟨l, rfl⟩ := List.getLast?_eq_some_iff.1 hl
    rw [mem_append, mem_singleton] at hs
    rcases hs with hs | rfl
    · have := (pairwise_append.1 sorted).2.2 s hs t (by simp)
      simp only [decide_eq_true_eq]; omega
    · simpa using hv

theorem backGe_of_lt (h : ∀ s ∈ slots, s.eventId < v) : backGe slots v = false := by
  unfold backGe
  cases hl : slots.getLast? with
  | none => rfl
  | some t =>
    have := h t (mem_of_getLast? hl)
    simp only [decide_eq_false_iff_not]; omega

theorem lowerBound_split (hl : ∀ x ∈ l, x.eventId < v)
    (hs : v ≤ s.eventId) : lowerBound (l ++ s :: r) v = l.length := by
  grind [lowerBound]

theorem split_live (hp : p.WF) (h : id ∈ p.live.map (·.id)) :
    ∃ l s r, p.slots = l ++ s :: r ∧ s.isLive ∧ s.event.id = id ∧ s.eventId = 2 * id ∧
      (∀ x ∈ l, x.eventId < 2 * id) ∧ ∀ x ∈ r, 2 * id < x.eventId := by
  simp only [live, map_map, mem_map, mem_filter, Function.comp_apply] at h
  obtain ⟨s, ⟨hs, hlive⟩, rfl⟩ := h
  obtain ⟨l, r, hlr⟩ := append_of_mem hs
  have hid := hp.ids s hs hlive
  have hsorted := hp.sorted
  rw [hlr, pairwise_append, pairwise_cons] at hsorted
  refine ⟨l, s, r, hlr, hlive, rfl, hid, fun x hx => ?_, fun x hx => ?_⟩
  · have := hsorted.2.2 x hx s (by simp); omega
  · have := hsorted.2.1.1 x hx; omega

theorem WF.live_sorted (hp : p.WF) : (p.live.map (·.id)).Pairwise (· < ·) := by
  have h : ((p.slots.filter Slot.isLive).map (·.event)).Pairwise fun a b => a.id < b.id := by
    rw [pairwise_map]
    refine (hp.sorted.filter _).imp_of_mem fun {s t} hs ht hlt => ?_
    rw [mem_filter] at hs ht
    have h1 := hp.ids s hs.1 hs.2
    have h2 := hp.ids t ht.1 ht.2
    omega
  exact pairwise_map.2 h

theorem Sorted.forEach (hp : p.Sorted) : p.forEach = .ok p.live := by
  have h : (p.slots.map (·.eventId)).IsChain (· < ·) :=
    List.Pairwise.isChain (pairwise_map.2 (List.Pairwise.imp (fun hlt => by omega) hp))
  unfold BinlogEventsProcessor.forEach
  rw [Outcome.check_true h]; rfl

theorem WF.forEach (hp : p.WF) : p.forEach = .ok p.live := Sorted.forEach hp.sorted

/-! ## One event -/

variable {p : BinlogEventsProcessor} {e : BinlogEvent}

theorem fixedEventId_eq (hid : e.id < 2 ^ 63) : e.id * 2 % 2 ^ 64 = 2 * e.id := by omega

/-- An event with a new id, flagged as a rewrite or not, is appended. -/
theorem doEvent_add (hp : p.WF) (hb : p.Below n) (hn : n ≤ e.id) (hid : e.id < 2 ^ 63) (ht : 0 ≤ e.type) :
    ∃ p', p.doEvent e = (p', true) ∧ p'.WF ∧ p'.Below (e.id + 1) ∧ p'.live = p.live ++ [e] ∧
      p'.lastEventId = e.id ∧ p'.offset = e.offset := by
  have hlt : ∀ s ∈ p.slots, s.eventId < 2 * e.id := hb.mono hn
  have heq : p.doEvent e = (maybeCompactify { p with
      offset := e.offset, slots := p.slots ++ [⟨2 * e.id, e⟩], totalEvents := p.totalEvents + 1,
      lastEventId := e.id, totalRawEventsSize := p.totalRawEventsSize + e.rawEvent.length }, true) := by
    unfold doEvent
    simp only [fixedEventId_eq hid, backGe_of_lt hlt, Bool.and_false, Bool.false_eq_true, if_false,
      if_neg (show ¬ e.type < 0 by omega)]
  refine ⟨_, heq, WF.maybeCompactify ?_, Below.maybeCompactify ?_, ?_, by simp, by simp⟩
  · refine ⟨pairwise_append.2 ⟨hp.sorted, pairwise_singleton _ _, fun s hs t ht => ?_⟩, fun s hs hl => ?_⟩
    · rw [mem_singleton] at ht; subst ht; have := hlt s hs; simp only; omega
    · rw [mem_append, mem_singleton] at hs
      rcases hs with hs | rfl
      · exact hp.ids s hs hl
      · rfl
  · intro s hs
    rw [mem_append, mem_singleton] at hs
    rcases hs with hs | rfl
    · have := hlt s hs; omega
    · simp only; omega
  · rw [live_maybeCompactify]
    simp [live, Slot.isLive]

/-- What rewrites and erases share: the slot of the id is found and set. -/
theorem doEvent_found (hp : p.WF) (hf : hasFlag e.flags rewriteFlag = true) (hid : e.id < 2 ^ 63)
    (hsplit : p.slots = l ++ s :: r) (hs : s.eventId = 2 * e.id) (hl : ∀ x ∈ l, x.eventId < 2 * e.id) :
    p.doEvent e =
      (if e.type = ServiceTypes.empty then
        (maybeCompactify { p with
          offset := e.offset, slots := l ++ ⟨2 * e.id + 1, {}⟩ :: r, emptyEvents := p.emptyEvents + 1,
          totalRawEventsSize := p.totalRawEventsSize - s.event.rawEvent.length }, true)
      else
        (maybeCompactify { p with
          offset := e.offset
          slots := l ++ ⟨2 * e.id, { e with flags := clearFlag e.flags rewriteFlag }⟩ :: r
          totalRawEventsSize := p.totalRawEventsSize - s.event.rawEvent.length + e.rawEvent.length }, true)) := by
  have hback : backGe p.slots (2 * e.id) = true :=
    backGe_of_mem (by rw [hsplit]; simp) (Nat.le_of_eq hs.symm) hp.sorted
  have hpos : lowerBound p.slots (2 * e.id) = l.length := by
    rw [hsplit]; exact lowerBound_split hl (Nat.le_of_eq hs.symm)
  have hget : p.slots[l.length]? = some s := by rw [hsplit]; simp
  have hset : ∀ t, p.slots.set l.length t = l ++ t :: r := fun t => by rw [hsplit]; simp
  unfold doEvent
  simp only [fixedEventId_eq hid, hf, hback, Bool.and_self, if_true, hpos, hget, hs, ne_eq, not_true_eq_false,
    if_false, hset]

/-- Setting one slot to another state of the same id keeps the order. -/
theorem Sorted.set (hp : p.Sorted) (hsplit : p.slots = l ++ s :: r)
    (ht : t.eventId / 2 = s.eventId / 2) (hq : q.slots = l ++ t :: r) : q.Sorted := by
  unfold Sorted at hp ⊢
  rw [hsplit, pairwise_append, pairwise_cons] at hp
  obtain ⟨h1, ⟨h2, h3⟩, h4⟩ := hp
  rw [hq, pairwise_append, pairwise_cons, ht]
  refine ⟨h1, ⟨h2, h3⟩, fun x hx y hy => ?_⟩
  rw [mem_cons] at hy
  rcases hy with rfl | hy
  · rw [ht]; exact h4 x hx s (by simp)
  · exact h4 x hx y (mem_cons_of_mem _ hy)

theorem WF.set (hp : p.WF) (hsplit : p.slots = l ++ s :: r)
    (ht : t.eventId / 2 = s.eventId / 2) (hlive : t.isLive → t.eventId = 2 * t.event.id)
    (hq : q.slots = l ++ t :: r) : q.WF := by
  have hids := hp.ids
  rw [hsplit] at hids
  refine ⟨Sorted.set hp.sorted hsplit ht hq, fun x hx hxl => ?_⟩
  rw [hq, mem_append, mem_cons] at hx
  rcases hx with hx | rfl | hx
  · exact hids x (mem_append_left _ hx) hxl
  · exact hlive hxl
  · exact hids x (by simp [hx]) hxl

theorem Below.set (hb : p.Below n) (hsplit : p.slots = l ++ s :: r)
    (ht : t.eventId / 2 = s.eventId / 2) (hq : q.slots = l ++ t :: r) : q.Below n := by
  intro x hx
  rw [hq, mem_append, mem_cons] at hx
  unfold Below at hb
  rw [hsplit] at hb
  rcases hx with hx | rfl | hx
  · exact hb x (by simp [hx])
  · have := hb s (by simp); omega
  · exact hb x (by simp [hx])

theorem live_split (hlive : s.isLive) (hq : q.slots = l ++ s :: r) :
    q.live = (l.filter Slot.isLive).map (·.event) ++ s.event :: (r.filter Slot.isLive).map (·.event) := by
  simp [live, hq, hlive]

theorem id_ne_of_split (hp : p.WF) (hsplit : p.slots = l ++ s :: r)
    (hl : ∀ x ∈ l, x.eventId < 2 * id) (hr : ∀ x ∈ r, 2 * id < x.eventId) :
    (∀ x ∈ (l.filter Slot.isLive).map (·.event), x.id ≠ id) ∧
      ∀ x ∈ (r.filter Slot.isLive).map (·.event), x.id ≠ id := by
  constructor <;> intro x hx <;> rw [mem_map] at hx <;> obtain ⟨y, hy, rfl⟩ := hx <;>
    rw [mem_filter] at hy
  · have h1 := hl y hy.1
    have h2 := hp.ids y (by rw [hsplit]; simp [hy.1]) hy.2
    omega
  · have h1 := hr y hy.1
    have h2 := hp.ids y (by rw [hsplit]; simp [hy.1]) hy.2
    omega

theorem map_replace_of_ne {l : List BinlogEvent} (h : ∀ y ∈ l, y.id ≠ id) :
    l.map (fun y => if y.id = id then x else y) = l := by
  rw [map_congr_left fun y hy => if_neg (h y hy), map_id']

section

variable (hp : p.WF) (hb : p.Below n) (hf : hasFlag e.flags rewriteFlag = true) (hmem : e.id ∈ p.live.map (·.id))

include hp hb hf hmem

theorem doEvent_rewrite (hid : e.id < 2 ^ 63) (ht : e.type ≠ ServiceTypes.empty) :
    ∃ p', p.doEvent e = (p', true) ∧ p'.WF ∧ p'.Below n ∧
      p'.live = p.live.map (fun x => if x.id = e.id then { e with flags := clearFlag e.flags rewriteFlag } else x) ∧
      p'.lastEventId = p.lastEventId ∧ p'.offset = e.offset := by
  obtain ⟨l, s, r, hsplit, hlive, hsid, hs, hl, hr⟩ := split_live hp hmem
  obtain ⟨hnl, hnr⟩ := id_ne_of_split hp hsplit hl hr
  rw [doEvent_found hp hf hid hsplit hs hl, if_neg ht]
  refine ⟨_, rfl, WF.maybeCompactify (hp.set hsplit ?_ ?_ rfl), Below.maybeCompactify (hb.set hsplit ?_ rfl), ?_,
    by simp, by simp⟩
  · simp only; omega
  · intro _; rfl
  · simp only; omega
  · rw [live_maybeCompactify, live_split (by simp [Slot.isLive]) rfl, live_split hlive hsplit, map_append,
      map_cons, if_pos hsid]
    rw [map_replace_of_ne hnl, map_replace_of_ne hnr]

theorem doEvent_erase (hid : e.id < 2 ^ 63) (ht : e.type = ServiceTypes.empty) :
    ∃ p', p.doEvent e = (p', true) ∧ p'.WF ∧ p'.Below n ∧ p'.live = p.live.filter (fun x => x.id ≠ e.id) ∧
      p'.lastEventId = p.lastEventId ∧ p'.offset = e.offset := by
  obtain ⟨l, s, r, hsplit, hlive, hsid, hs, hl, hr⟩ := split_live hp hmem
  obtain ⟨hnl, hnr⟩ := id_ne_of_split hp hsplit hl hr
  rw [doEvent_found hp hf hid hsplit hs hl, if_pos ht]
  have hdead : Slot.isLive ⟨2 * e.id + 1, {}⟩ = false := by simp [Slot.isLive]
  refine ⟨_, rfl, WF.maybeCompactify (hp.set hsplit ?_ ?_ rfl), Below.maybeCompactify (hb.set hsplit ?_ rfl), ?_,
    by simp, by simp⟩
  · simp only; omega
  · intro h; rw [hdead] at h; contradiction
  · simp only; omega
  · rw [live_maybeCompactify, live_split hlive hsplit, filter_append, filter_cons, if_neg (by simp [hsid]),
      filter_eq_self.2 fun x hx => decide_eq_true (hnl x hx),
      filter_eq_self.2 fun x hx => decide_eq_true (hnr x hx)]
    simp [live, hdead]

end

theorem doEvent_service (hf : hasFlag e.flags rewriteFlag = false) (ht : e.type < 0) :
    p.doEvent e = (maybeCompactify { p with offset := e.offset }, true) := by
  unfold doEvent
  simp [hf, if_pos ht]

/-! ## Any event -/

/-- What `do_event` may do to the slots: nothing, another state for the slot of
the event's id, or one more slot. -/
inductive Edits (e : BinlogEvent) (slots : List Slot) : List Slot → Prop
  | none : Edits e slots slots
  | set {l r : List Slot} {s t : Slot} : slots = l ++ s :: r → t.eventId / 2 = s.eventId / 2 →
    (t.isLive → ∃ flags, t.event = { e with flags }) → Edits e slots (l ++ t :: r)
  | append {n : Nat} : backGe slots (2 * n) = false → Edits e slots (slots ++ [⟨2 * n, e⟩])

theorem doEvent_edits (p : BinlogEventsProcessor) (e : BinlogEvent) :
    ∃ q, ((p.doEvent e).1 = q ∨ (p.doEvent e).1 = q.maybeCompactify) ∧ q.offset = e.offset ∧
      Edits e p.slots q.slots := by
  have heven : e.id * 2 % 2 ^ 64 = 2 * (e.id % 2 ^ 63) := by omega
  unfold doEvent
  dsimp only
  rw [heven]
  split
  next =>
    split
    next => exact ⟨_, .inl rfl, rfl, .none⟩
    next s hs =>
      obtain ⟨hlt, hget⟩ := List.getElem?_eq_some_iff.1 hs
      have hset : ∀ t, p.slots.set (lowerBound p.slots (2 * (e.id % 2 ^ 63))) t =
          p.slots.take (lowerBound p.slots (2 * (e.id % 2 ^ 63))) ++
            t :: p.slots.drop (lowerBound p.slots (2 * (e.id % 2 ^ 63)) + 1) := fun t => by
        rw [set_eq_take_append_cons_drop, if_pos hlt]
      have hslots : p.slots = p.slots.take (lowerBound p.slots (2 * (e.id % 2 ^ 63))) ++
          s :: p.slots.drop (lowerBound p.slots (2 * (e.id % 2 ^ 63)) + 1) := by
        rw [← hget, ← hset, set_getElem_self]
      split
      next => exact ⟨_, .inl rfl, rfl, .none⟩
      next hid =>
        split
        next =>
          refine ⟨_, .inr rfl, rfl, ?_⟩
          rw [hset]
          exact .set hslots (by dsimp only; omega) fun h => by
            simp only [Slot.isLive, beq_iff_eq] at h; omega
        next =>
          refine ⟨_, .inr rfl, rfl, ?_⟩
          rw [hset]
          exact .set hslots rfl fun _ => ⟨_, rfl⟩
  next =>
    split
    next => exact ⟨_, .inr rfl, rfl, .none⟩
    next =>
      split
      next => exact ⟨_, .inl rfl, rfl, .none⟩
      next hback => exact ⟨_, .inr rfl, rfl, .append (Bool.eq_false_iff.2 hback)⟩

theorem offset_doEvent (p : BinlogEventsProcessor) (e : BinlogEvent) : (p.doEvent e).1.offset = e.offset := by
  obtain ⟨q, hq | hq, hoff, -⟩ := doEvent_edits p e
  · rw [hq, hoff]
  · rw [hq, offset_maybeCompactify, hoff]

theorem lt_of_backGe (h : backGe slots v = false)
    (sorted : slots.Pairwise fun s t => s.eventId / 2 < t.eventId / 2) : ∀ s ∈ slots, s.eventId < v := by
  intro s hs
  by_contra hlt
  rw [backGe_of_mem hs (by omega) sorted] at h
  cases h

theorem Sorted.maybeCompactify (h : p.Sorted) : p.maybeCompactify.Sorted := by
  rcases p.maybeCompactify_cases with hc | hc
  · rw [hc]; exact h
  · rw [hc]; exact List.Pairwise.filter _ h

theorem Sorted.doEvent (h : p.Sorted) (e : BinlogEvent) : (p.doEvent e).1.Sorted := by
  obtain ⟨q, hq, -, hedits⟩ := doEvent_edits p e
  have hsorted : q.Sorted := by
    unfold Sorted
    generalize q.slots = slots at hedits ⊢
    cases hedits with
    | none => exact h
    | set hsplit ht _ => exact Sorted.set (q := { slots := _ }) h hsplit ht rfl
    | append hback =>
      refine pairwise_append.2 ⟨h, pairwise_singleton _ _, fun s hs t ht => ?_⟩
      have := lt_of_backGe hback h s hs
      grind
  rcases hq with hq | hq
  · rw [hq]; exact hsorted
  · rw [hq]; exact hsorted.maybeCompactify

/-- A live event was live, or it is the one that was processed. -/
theorem mem_live_doEvent (h : x ∈ (p.doEvent e).1.live) : x ∈ p.live ∨ ∃ flags, x = { e with flags } := by
  obtain ⟨q, hq, -, hedits⟩ := doEvent_edits p e
  have hx : x ∈ q.live := by
    rcases hq with hq | hq
    · rwa [hq] at h
    · rwa [hq, live_maybeCompactify] at h
  unfold live at hx ⊢
  generalize q.slots = slots at hedits hx
  obtain ⟨s, hs, rfl⟩ := mem_map.1 hx
  obtain ⟨hmem, hlive⟩ := mem_filter.1 hs
  have hold : ∀ s ∈ p.slots, s.isLive = true → s.event ∈ (p.slots.filter Slot.isLive).map (·.event) :=
    fun s hs hlive => mem_map_of_mem (mem_filter.2 ⟨hs, hlive⟩)
  cases hedits with
  | none => exact .inl hx
  | set hsplit _ ht =>
    rw [mem_append, mem_cons] at hmem
    rcases hmem with hmem | rfl | hmem
    · exact .inl (hold s (by rw [hsplit]; simp [hmem]) hlive)
    · exact .inr (ht hlive)
    · exact .inl (hold s (by rw [hsplit]; simp [hmem]) hlive)
  | append _ =>
    rw [mem_append, mem_singleton] at hmem
    rcases hmem with hmem | rfl
    · exact .inl (hold s hmem hlive)
    · exact .inr ⟨e.flags, rfl⟩

end Tdlib.Db.BinlogEventsProcessor
