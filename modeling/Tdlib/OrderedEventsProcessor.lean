/-
`OrderedEventsProcessor`: events come with sequence numbers in any order and
are run in the order of the numbers.

The data of the events waits in a vector of pairs, with a flag that says
whether there is any; its first place belongs to the number `offset`.
-/
import Tdlib.Lib.Outcome
import Mathlib.Data.List.Basic

namespace Tdlib

open Outcome List

structure OrderedEventsProcessor (α : Type) where
  offset : Nat := 1
  beginSeqNo : Nat := 1
  endSeqNo : Nat := 1
  dataArray : List (α × Bool) := []
  deriving DecidableEq, Repr

namespace OrderedEventsProcessor

variable {α σ : Type}

/-- The constructor that takes the first number. -/
def new (offset : Nat) : OrderedEventsProcessor α := { offset, beginSeqNo := offset, endSeqNo := offset }

/-- The loop of `add`: the events that are next are run. It ends by the first
number without an event, so that `fuel` numbers up to `end_` suffice. -/
def runReady (function : σ → Nat → α → Outcome σ) :
    Nat → OrderedEventsProcessor α → σ → Outcome (OrderedEventsProcessor α × σ)
  | 0, p, s => pure (p, s)
  | fuel + 1, p, s =>
    if p.beginSeqNo < p.endSeqNo then
      match p.dataArray[p.beginSeqNo - p.offset]? with
      | none => .fatal
      | some (data, flag) =>
        if flag then do
          let s ← function s p.beginSeqNo data
          runReady function fuel { p with
            dataArray := p.dataArray.set (p.beginSeqNo - p.offset) (data, false)
            beginSeqNo := p.beginSeqNo + 1 } s
        else pure (p, s)
    else pure (p, s)

def tryCompactify (p : OrderedEventsProcessor α) : OrderedEventsProcessor α :=
  let beginPos := p.beginSeqNo - p.offset
  if beginPos > 5 && beginPos * 2 > p.dataArray.length then
    { p with dataArray := p.dataArray.drop beginPos, offset := p.beginSeqNo }
  else p

/-- `add` after its loop. -/
def settle (p : OrderedEventsProcessor α) : OrderedEventsProcessor α :=
  let p := if p.beginSeqNo > p.endSeqNo then { p with endSeqNo := p.beginSeqNo } else p
  let p := if p.beginSeqNo = p.endSeqNo then { p with offset := p.beginSeqNo } else p
  p.tryCompactify

/-- `add` of an event that has to wait. -/
def store [Inhabited α] (seqNo : Nat) (data : α) (p : OrderedEventsProcessor α) : OrderedEventsProcessor α :=
  let pos := seqNo - p.offset
  let dataArray := p.dataArray ++ List.replicate (pos + 1 - p.dataArray.length) (default, false)
  { p with dataArray := dataArray.set pos (data, true), endSeqNo := max p.endSeqNo (seqNo + 1) }

def add [Inhabited α] (seqNo : Nat) (data : α) (function : σ → Nat → α → Outcome σ) (p : OrderedEventsProcessor α)
    (s : σ) : Outcome (OrderedEventsProcessor α × σ) := do
  Outcome.check (p.beginSeqNo ≤ seqNo)
  if seqNo = p.beginSeqNo then do
    let s ← function s seqNo data
    let ran ← runReady function (p.endSeqNo - (p.beginSeqNo + 1)) { p with beginSeqNo := p.beginSeqNo + 1 } s
    pure (ran.1.settle, ran.2)
  else pure (p.store seqNo data, s)

/-! ## What waits -/

/-- The data that waits for its number. -/
def waiting (p : OrderedEventsProcessor α) (n : Nat) : Option α :=
  if n < p.offset then none
  else
    match p.dataArray[n - p.offset]? with
    | some (data, true) => some data
    | _ => none

variable {p : OrderedEventsProcessor α} {g : Nat → α} {seqNo : Nat}

theorem waiting_eq_some {n : Nat} {data : α} :
    p.waiting n = some data ↔ p.offset ≤ n ∧ p.dataArray[n - p.offset]? = some (data, true) := by
  unfold waiting
  split
  next h => simp; omega
  next h =>
    split
    next data' heq => simp [heq]; omega
    next hne =>
      constructor
      · intro h; cases h
      · rintro ⟨-, heq⟩; exact absurd heq (hne data)

/-- In the middle of `add`: what waits are the events of the numbers from
`begin_` on. -/
structure Running (g : Nat → α) (p : OrderedEventsProcessor α) : Prop where
  offset_le : p.offset ≤ p.beginSeqNo
  covered : p.beginSeqNo < p.endSeqNo → p.endSeqNo ≤ p.offset + p.dataArray.length
  waits : ∀ n data, p.waiting n = some data → p.beginSeqNo ≤ n ∧ n < p.endSeqNo ∧ data = g n

/-- Between two calls of `add`, where `g` are the events of all numbers: what
waits are the events of later numbers than the next one. -/
structure Valid (g : Nat → α) (p : OrderedEventsProcessor α) : Prop extends Running g p where
  begin_le : p.beginSeqNo ≤ p.endSeqNo
  next : p.waiting p.beginSeqNo = none

theorem valid_new (g : Nat → α) (offset : Nat) : Valid g (new offset) := by
  refine ⟨⟨Nat.le_refl _, ?_, ?_⟩, Nat.le_refl _, ?_⟩
  · intro h; exact absurd h (Nat.lt_irrefl _)
  · intro n data h
    rw [waiting_eq_some] at h
    cases h.2
  · unfold waiting new
    simp

/-! ## The loop -/

/-- Running the events of the numbers from `n` to `n + k`. -/
def runAll (function : σ → Nat → α → Outcome σ) (g : Nat → α) (n k : Nat) (s : σ) : Outcome σ :=
  (List.range' n k).foldlM (fun s n => function s n (g n)) s

theorem runAll_succ (function : σ → Nat → α → Outcome σ) (g : Nat → α) (n k : Nat) (s : σ) :
    runAll function g n (k + 1) s = function s n (g n) >>= runAll function g (n + 1) k := by
  unfold runAll
  rw [List.range'_succ, foldlM_cons]

theorem waiting_advance {data : α} (hoff : p.offset ≤ p.beginSeqNo)
    (hdata : p.dataArray[p.beginSeqNo - p.offset]? = some (data, true)) (n : Nat) :
    waiting { p with
      dataArray := p.dataArray.set (p.beginSeqNo - p.offset) (data, false)
      beginSeqNo := p.beginSeqNo + 1 } n = if n = p.beginSeqNo then none else p.waiting n := by
  unfold waiting
  dsimp only
  by_cases hn : n < p.offset
  · rw [if_pos hn, if_pos hn]; split <;> rfl
  · rw [if_neg hn, if_neg hn, List.getElem?_set]
    have hlt : p.beginSeqNo - p.offset < p.dataArray.length := (List.getElem?_eq_some_iff.1 hdata).1
    by_cases heq : n = p.beginSeqNo
    · subst heq; simp [hlt]
    · rw [if_neg (by omega), if_neg heq]

/-- What the loop does: it runs the events of the next `k` numbers, and then
the next one does not wait. -/
structure Ran (g : Nat → α) (p p' : OrderedEventsProcessor α) (k : Nat) : Prop where
  running : Running g p'
  beginSeqNo : p'.beginSeqNo = p.beginSeqNo + k
  endSeqNo : p'.endSeqNo = p.endSeqNo
  waiting : ∀ n, p'.waiting n = if n < p.beginSeqNo + k then none else p.waiting n
  ready : ∀ n, p.beginSeqNo ≤ n → n < p.beginSeqNo + k → p.waiting n ≠ none
  next : p'.waiting (p.beginSeqNo + k) = none

theorem Ran.refl (h : Running g p) (hnext : p.waiting p.beginSeqNo = none) : Ran g p p 0 := by
  refine ⟨h, rfl, rfl, fun n => ?_, fun n hle hlt => by omega, hnext⟩
  split
  next hlt =>
    cases hw : p.waiting n with
    | none => rfl
    | some data => have := (h.waits n data hw).1; omega
  next => rfl

theorem waiting_none_of_end (h : Running g p) {n : Nat} (hn : p.endSeqNo ≤ n) : p.waiting n = none := by
  cases hw : p.waiting n with
  | none => rfl
  | some data => have := (h.waits n data hw).2.1; omega

theorem runReady_spec (function : σ → Nat → α → Outcome σ) (fuel : Nat)
    (h : Running g p) (hfuel : p.endSeqNo - p.beginSeqNo ≤ fuel) : ∃ p' k, Ran g p p' k ∧
      ∀ s, runReady function fuel p s = runAll function g p.beginSeqNo k s >>= fun s => .ok (p', s) := by
  induction fuel generalizing p with
  | zero => exact ⟨p, 0, .refl h (waiting_none_of_end h (by omega)), fun _ => rfl⟩
  | succ fuel ih =>
    unfold runReady
    by_cases hlt : p.beginSeqNo < p.endSeqNo
    · have hcov := h.covered hlt
      have hoff := h.offset_le
      obtain ⟨⟨data, flag⟩, hget⟩ : ∃ x, p.dataArray[p.beginSeqNo - p.offset]? = some x :=
        ⟨_, List.getElem?_eq_getElem (show p.beginSeqNo - p.offset < p.dataArray.length by omega)⟩
      simp only [if_pos hlt, hget]
      cases flag with
      | false =>
        refine ⟨p, 0, .refl h ?_, fun _ => rfl⟩
        unfold waiting
        rw [if_neg (by omega), hget]
      | true =>
        have hwaits := waiting_eq_some.2 ⟨hoff, hget⟩
        have hdata : data = g p.beginSeqNo := (h.waits _ _ hwaits).2.2
        let p1 : OrderedEventsProcessor α := { p with
          dataArray := p.dataArray.set (p.beginSeqNo - p.offset) (data, false)
          beginSeqNo := p.beginSeqNo + 1 }
        have hwait : ∀ n, p1.waiting n = if n = p.beginSeqNo then none else p.waiting n := waiting_advance hoff hget
        have h1 : Running g p1 := by
          refine ⟨Nat.le_succ_of_le hoff, fun _ => ?_, fun n d hn => ?_⟩
          · show p.endSeqNo ≤ p.offset + (p.dataArray.set _ _).length
            rw [List.length_set]; exact hcov
          · rw [hwait] at hn
            split at hn
            · cases hn
            · have := h.waits n d hn
              exact ⟨show p.beginSeqNo + 1 ≤ n by omega, this.2⟩
        obtain ⟨p', k, hran, hrun⟩ := ih h1 (show p.endSeqNo - (p.beginSeqNo + 1) ≤ fuel by omega)
        have hbegin : p1.beginSeqNo + k = p.beginSeqNo + (k + 1) := by show p.beginSeqNo + 1 + k = _; omega
        refine ⟨p', k + 1, ⟨hran.running, hran.beginSeqNo.trans hbegin, hran.endSeqNo, fun n => ?_, fun n hle hn => ?_,
          hbegin ▸ hran.next⟩, fun s => ?_⟩
        · rw [hran.waiting, hwait, hbegin]
          split
          next => rfl
          next => rw [if_neg (by omega)]
        · by_cases heq : n = p.beginSeqNo
          · rw [heq, hwaits]; simp
          · have := hran.ready n (show p.beginSeqNo + 1 ≤ n by omega) (by omega)
            rwa [hwait, if_neg heq] at this
        · rw [runAll_succ, bind_assoc, ← hdata]
          exact bind_congr hrun
    · simp only [if_neg hlt]
      exact ⟨p, 0, .refl h (waiting_none_of_end h (by omega)), fun _ => rfl⟩

/-! ## `add` -/

theorem waiting_offset (h : ∀ n, p.waiting n = none) (offset endSeqNo n : Nat) :
    waiting { p with offset, endSeqNo } n = none := by
  cases hw : waiting { p with offset, endSeqNo } n with
  | none => rfl
  | some data =>
    have hflag := (waiting_eq_some.1 hw).2
    have : p.waiting (p.offset + (n - offset)) = some data :=
      waiting_eq_some.2 ⟨by omega, by rw [Nat.add_sub_cancel_left]; exact hflag⟩
    rw [h] at this
    cases this

theorem waiting_tryCompactify (h : Running g p) (n : Nat) : p.tryCompactify.waiting n = p.waiting n := by
  have hoff := h.offset_le
  unfold tryCompactify
  dsimp only
  split
  · by_cases hn : n < p.beginSeqNo
    · unfold waiting
      rw [if_pos hn]
      cases hw : p.waiting n with
      | none => exact hw.symm
      | some data => have := (h.waits n data hw).1; omega
    · unfold waiting
      dsimp only
      rw [if_neg hn, if_neg (by omega), List.getElem?_drop,
        show p.beginSeqNo - p.offset + (n - p.beginSeqNo) = n - p.offset by omega]
  · rfl

theorem tryCompactify_seqNos (p : OrderedEventsProcessor α) :
    p.tryCompactify.beginSeqNo = p.beginSeqNo ∧ p.tryCompactify.endSeqNo = p.endSeqNo := by
  unfold tryCompactify
  dsimp only
  split <;> exact ⟨rfl, rfl⟩

theorem Running.tryCompactify (h : Running g p) : Running g p.tryCompactify := by
  have hoff := h.offset_le
  have hwait := waiting_tryCompactify h
  have hfields := p.tryCompactify_seqNos
  refine ⟨?_, fun hlt => ?_, fun n data hn => ?_⟩
  · unfold OrderedEventsProcessor.tryCompactify
    dsimp only
    split
    · exact Nat.le_refl _
    · exact hoff
  · rw [hfields.1, hfields.2] at hlt
    have hcov := h.covered hlt
    rw [hfields.2]
    unfold OrderedEventsProcessor.tryCompactify
    dsimp only
    split
    · show p.endSeqNo ≤ p.beginSeqNo + (p.dataArray.drop (p.beginSeqNo - p.offset)).length
      rw [length_drop]; omega
    · exact hcov
  · rw [hwait] at hn
    rw [hfields.1, hfields.2]
    exact h.waits n data hn

theorem Running.valid (h : Running g p) (hle : p.beginSeqNo ≤ p.endSeqNo)
    (hnext : p.waiting p.beginSeqNo = none) : Valid g p.tryCompactify := by
  obtain ⟨hbegin, hend⟩ := p.tryCompactify_seqNos
  refine ⟨h.tryCompactify, ?_, ?_⟩
  · rw [hbegin, hend]; exact hle
  · rw [waiting_tryCompactify h, hbegin]; exact hnext

theorem Running.settle (h : Running g p) (hnext : p.waiting p.beginSeqNo = none) :
    Valid g p.settle ∧ p.settle.beginSeqNo = p.beginSeqNo ∧ ∀ n, p.settle.waiting n = p.waiting n := by
  by_cases hlt : p.beginSeqNo < p.endSeqNo
  · have hsettle : p.settle = p.tryCompactify := by
      grind [OrderedEventsProcessor.settle]
    rw [hsettle]
    exact ⟨h.valid (Nat.le_of_lt hlt) hnext, p.tryCompactify_seqNos.1, waiting_tryCompactify h⟩
  · -- Nothing waits, and the vector is used from its beginning again.
    have hnone : ∀ n, p.waiting n = none := fun n => by
      cases hw : p.waiting n with
      | none => rfl
      | some data => have := h.waits n data hw; omega
    let q : OrderedEventsProcessor α := { p with offset := p.beginSeqNo, endSeqNo := p.beginSeqNo }
    have hwait : ∀ n, q.waiting n = none := waiting_offset hnone _ _
    have hsettle : p.settle = q.tryCompactify := by
      unfold OrderedEventsProcessor.settle
      by_cases hgt : p.beginSeqNo > p.endSeqNo
      · rw [if_pos hgt]; dsimp only; rw [if_pos rfl]
      · have heq : p.beginSeqNo = p.endSeqNo := by omega
        simp [heq, q]
    have hq : Running g q := by
      refine ⟨Nat.le_refl _, fun hlt => absurd hlt (Nat.lt_irrefl _), fun n data hn => ?_⟩
      rw [hwait] at hn
      cases hn
    rw [hsettle]
    exact ⟨hq.valid (Nat.le_refl _) (hwait _), q.tryCompactify_seqNos.1,
      fun n => by rw [waiting_tryCompactify hq, hwait, hnone]⟩

theorem waiting_store [Inhabited α] (data : α) (hseq : p.offset ≤ seqNo)
    (n : Nat) : (p.store seqNo data).waiting n = if n = seqNo then some data else p.waiting n := by
  unfold waiting store
  dsimp only
  by_cases hn : n < p.offset
  · rw [if_pos hn, if_pos hn, if_neg (by omega)]
  · rw [if_neg hn, if_neg hn, List.getElem?_set]
    by_cases heq : n = seqNo
    · subst heq
      rw [if_pos rfl, if_pos rfl, if_pos (by rw [length_append, length_replicate]; omega)]
    · rw [if_neg (by omega), if_neg heq, List.getElem?_append]
      by_cases hlen : n - p.offset < p.dataArray.length
      · rw [if_pos hlen]
      · rw [if_neg hlen, List.getElem?_replicate, List.getElem?_eq_none (Nat.le_of_not_lt hlen)]
        by_cases hpad : n - p.offset - p.dataArray.length < seqNo - p.offset + 1 - p.dataArray.length
        · rw [if_pos hpad]
        · rw [if_neg hpad]

theorem Valid.store [Inhabited α] (h : Valid g p)
    (hseq : p.beginSeqNo < seqNo) : Valid g (p.store seqNo (g seqNo)) := by
  have hoff := h.offset_le
  have hle := h.begin_le
  have hwait := waiting_store (g seqNo) (show p.offset ≤ seqNo by omega)
  refine ⟨⟨hoff, fun _ => ?_, fun n data hn => ?_⟩, ?_, ?_⟩
  · show max p.endSeqNo (seqNo + 1) ≤ p.offset + (List.set _ _ _).length
    rw [List.length_set, length_append, length_replicate]
    by_cases hlt : p.beginSeqNo < p.endSeqNo
    · have := h.covered hlt; omega
    · omega
  · rw [hwait] at hn
    show p.beginSeqNo ≤ n ∧ n < max p.endSeqNo (seqNo + 1) ∧ _
    split at hn
    next heq => cases hn; subst heq; exact ⟨by omega, by omega, rfl⟩
    next => have := h.waits n data hn; exact ⟨this.1, by omega, this.2.2⟩
  · show p.beginSeqNo ≤ max p.endSeqNo (seqNo + 1); omega
  · show (p.store seqNo (g seqNo)).waiting p.beginSeqNo = none
    rw [hwait, if_neg (by omega)]
    exact h.next

/-- **`add`** runs the events of the numbers that are complete with the new
one, and keeps the rest. -/
theorem add_spec [Inhabited α] (function : σ → Nat → α → Outcome σ) (h : Valid g p) (hseq : p.beginSeqNo ≤ seqNo) :
    ∃ p' k, Valid g p' ∧ p'.beginSeqNo = p.beginSeqNo + k ∧
      (∀ n, p'.waiting n = if n < p.beginSeqNo + k then none else if n = seqNo then some (g n) else p.waiting n) ∧
      (∀ n, p.beginSeqNo ≤ n → n < p.beginSeqNo + k → n = seqNo ∨ p.waiting n ≠ none) ∧
      ∀ s, p.add seqNo (g seqNo) function s = runAll function g p.beginSeqNo k s >>= fun s => .ok (p', s) := by
  by_cases heq : seqNo = p.beginSeqNo
  · subst heq
    let p1 : OrderedEventsProcessor α := { p with beginSeqNo := p.beginSeqNo + 1 }
    have h1 : Running g p1 := by
      refine ⟨Nat.le_succ_of_le h.offset_le, fun hlt => h.covered (Nat.lt_of_succ_lt hlt), fun n data hn => ?_⟩
      have hw := h.waits n data hn
      have hne : n ≠ p.beginSeqNo := by
        rintro rfl
        have hnext := h.next
        rw [show p.waiting p.beginSeqNo = some data from hn] at hnext
        cases hnext
      exact ⟨show p.beginSeqNo + 1 ≤ n by omega, hw.2⟩
    obtain ⟨p2, k, hran, hrun⟩ := runReady_spec function (p.endSeqNo - (p.beginSeqNo + 1)) h1 (Nat.le_refl _)
    have hbegin : p1.beginSeqNo + k = p.beginSeqNo + (k + 1) := by show p.beginSeqNo + 1 + k = _; omega
    obtain ⟨hvalid, hbegin', hwait⟩ := hran.running.settle (by rw [hran.beginSeqNo]; exact hran.next)
    refine ⟨p2.settle, k + 1, hvalid, by rw [hbegin', hran.beginSeqNo, hbegin], fun n => ?_, fun n hle hn => ?_,
      fun s => ?_⟩
    · rw [hwait, hran.waiting, hbegin]
      split
      next => rfl
      next => rw [if_neg (by omega)]; rfl
    · by_cases hn' : n = p.beginSeqNo
      · exact .inl hn'
      · exact .inr (hran.ready n (show p.beginSeqNo + 1 ≤ n by omega) (by omega))
    · unfold add
      rw [check_true hseq, ok_bind, if_pos rfl, runAll_succ, bind_assoc]
      refine bind_congr fun s => ?_
      rw [hrun, bind_assoc]
      rfl
  · refine ⟨p.store seqNo (g seqNo), 0, h.store (by omega), rfl, fun n => ?_, fun n hle hn => by omega, fun s => ?_⟩
    · have hoff := h.offset_le
      rw [waiting_store (g seqNo) (by omega)]
      by_cases hn : n < p.beginSeqNo + 0
      · rw [if_pos hn, if_neg (by omega)]
        cases hw : p.waiting n with
        | none => rfl
        | some data => have := (h.waits n data hw).1; omega
      · rw [if_neg hn]
        split
        next h => rw [h]
        next => rfl
    · unfold add
      rw [check_true hseq, ok_bind, if_neg heq]
      rfl

end OrderedEventsProcessor

end Tdlib
