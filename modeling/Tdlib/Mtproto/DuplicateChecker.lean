/-
The replay filter for message identifiers (`td/mtproto/AuthData.h`,
`AuthData.cpp`, `MessageId.h`).

The checker keeps the greatest identifiers that it accepted, in their order.
When its array is full, it forgets the lower half of them; from then on it
refuses all that is below what is left (`Covers`). So no identifier is accepted
twice, and one is refused only if it was accepted or if enough greater ones were
(`duplicateChecker_runs`).
-/
import Mathlib.Data.List.Nodup
import Mathlib.Data.List.GetD
import Mathlib.Data.List.Perm.Subperm
import Mathlib.Data.List.TakeWhile
import Tdlib.Lib.InPlace
import Tdlib.Lib.OrderedMap
import Tdlib.Lib.Outcome

namespace Tdlib.Mtproto

open Outcome OrderedMap List

/-! ## The checker -/

/-- An error status with its code. -/
structure Status where
  code : Int
  message : String

/-- A message identifier, as it is printed. Identifiers are numbers of 64 bits;
the checker only compares them. -/
def showMessageId (messageId : Nat) : String :=
  "message 0x" ++ String.ofList ((List.range 16).map fun i =>
    "0123456789abcdef".toList.getD ((messageId >>> (4 * (15 - i))) &&& 15) '0')

/-- `std::copy_n(&saved[n], n, &saved[0])`. -/
def copyN (saved : List Nat) (n : Nat) : List Nat := (saved.drop n).take n ++ saved.drop n

/-- `std::lower_bound`, as a position. -/
def lowerBound (ids : List Nat) (messageId : Nat) : Nat := (ids.takeWhile (· < messageId)).length

/-- `std::copy_backward(&saved[it], &saved[end], &saved[end + 1])`. -/
def copyBackward (saved : List Nat) (it endPos : Nat) : List Nat :=
  saved.take (it + 1) ++ ((saved.drop it).take (endPos - it) ++ saved.drop (endPos + 1))

/-- `MessageIdDuplicateChecker`. -/
structure MessageIdDuplicateChecker where
  savedMessageIds : List Nat
  endPos : Nat

/-- A checker as it is created. -/
def MessageIdDuplicateChecker.init (maxSize : Nat) : MessageIdDuplicateChecker :=
  { savedMessageIds := List.replicate (2 * maxSize) 0, endPos := 0 }

/-- The first step of `check_message_id_duplicates`: a full array loses its lower
half. -/
def makeRoom (maxSize : Nat) (checker : MessageIdDuplicateChecker) : MessageIdDuplicateChecker :=
  if checker.endPos = 2 * maxSize then ⟨copyN checker.savedMessageIds maxSize, maxSize⟩ else checker

/-- `check_message_id_duplicates`. An access outside of the array is undefined. -/
def checkMessageIdDuplicates (maxSize : Nat) (checker : MessageIdDuplicateChecker) (messageId : Nat) :
    Outcome (MessageIdDuplicateChecker × Option Status) :=
  let checker := makeRoom maxSize checker
  let saved := checker.savedMessageIds
  let endPos := checker.endPos
  if endPos = 0 ∨ saved.getD (endPos - 1) 0 < messageId then do
    .check (endPos < saved.length)
    pure (⟨saved.set endPos messageId, endPos + 1⟩, none)
  else if maxSize ≤ endPos ∧ messageId < saved.getD 0 0 then
    pure (checker, some ⟨2, "Ignore very old " ++ showMessageId messageId ++ " older than the oldest known " ++
      showMessageId (saved.getD 0 0)⟩)
  else do
    let it := lowerBound (saved.take endPos) messageId
    .check (it < saved.length)
    if saved.getD it 0 = messageId then
      pure (checker, some ⟨1, "Ignore already processed " ++ showMessageId messageId⟩)
    else do
      .check (endPos + 1 ≤ saved.length)
      pure (⟨(copyBackward saved it endPos).set it messageId, endPos + 1⟩, none)

/-- `MessageIdDuplicateChecker::check` for one identifier after another: the
checker, and the identifiers that it accepted. -/
def runChecks (maxSize : Nat) (checker : MessageIdDuplicateChecker) :
    List Nat → Outcome (MessageIdDuplicateChecker × List Nat)
  | [] => .ok (checker, [])
  | messageId :: ids => do
    let (checker, status) ← checkMessageIdDuplicates maxSize checker messageId
    let (checker, accepted) ← runChecks maxSize checker ids
    pure (checker, if status.isNone then messageId :: accepted else accepted)

/-! ## One check -/

namespace MessageIdDuplicateChecker

variable {maxSize messageId : Nat} {checker : MessageIdDuplicateChecker}

/-- The identifiers that are stored. -/
def stored (checker : MessageIdDuplicateChecker) : List Nat := checker.savedMessageIds.take checker.endPos

/-- What holds between any two checks. -/
structure Valid (maxSize : Nat) (checker : MessageIdDuplicateChecker) : Prop where
  length : checker.savedMessageIds.length = 2 * maxSize
  endPos_le : checker.endPos ≤ 2 * maxSize
  increasing : checker.stored.Pairwise (· < ·)

theorem valid_init (maxSize : Nat) : Valid maxSize (init maxSize) := by
  refine ⟨by simp [init], Nat.zero_le _, ?_⟩
  simp [init, stored]

theorem Valid.length_stored (h : Valid maxSize checker) : checker.stored.length = checker.endPos := by
  rw [stored, length_take, h.length, Nat.min_eq_left h.endPos_le]

/-- What is stored once room was made. -/
def shrunk (maxSize : Nat) (ids : List Nat) : List Nat := if ids.length = 2 * maxSize then ids.drop maxSize else ids

theorem Valid.makeRoom (h : Valid maxSize checker) (hsize : 1 ≤ maxSize) :
    Valid maxSize (makeRoom maxSize checker) ∧ (makeRoom maxSize checker).stored = shrunk maxSize checker.stored ∧
      (makeRoom maxSize checker).endPos < 2 * maxSize := by
  have hlength := h.length
  rw [Mtproto.makeRoom, shrunk, h.length_stored]
  by_cases hfull : checker.endPos = 2 * maxSize
  · have hall : checker.stored = checker.savedMessageIds := by
      rw [stored, hfull, ← hlength, take_length]
    have hhalf : (checker.savedMessageIds.drop maxSize).length = maxSize := by
      rw [length_drop, hlength]
      omega
    have hcopy : stored ⟨copyN checker.savedMessageIds maxSize, maxSize⟩ = checker.stored.drop maxSize := by
      rw [hall, stored, copyN, take_of_length_le (Nat.le_of_eq hhalf)]
      exact take_left' hhalf
    rw [if_pos hfull, if_pos hfull]
    refine ⟨⟨?_, by dsimp only; omega, ?_⟩, hcopy, by dsimp only; omega⟩
    · simp only [copyN, length_append, length_take, length_drop, hlength]
      omega
    · rw [hcopy]
      exact h.increasing.sublist (drop_sublist ..)
  · rw [if_neg hfull, if_neg hfull]
    have hle := h.endPos_le
    exact ⟨h, rfl, by omega⟩

end MessageIdDuplicateChecker

/-- The place of a new identifier is before the first greater one. -/
theorem emplace_eq {ids : List Nat} {messageId : Nat} (h : messageId ∉ ids) : emplace id messageId ids =
      ids.takeWhile (· < messageId) ++ messageId :: ids.dropWhile (· < messageId) := by
  induction ids with
  | nil => rfl
  | cons b ids ih =>
    rw [mem_cons, not_or] at h
    simp only [emplace, id]
    rcases Nat.lt_trichotomy b messageId with hlt | heq | hgt
    · rw [if_neg (by simpa using Nat.le_of_lt hlt), if_pos hlt, ih h.2]
      simp [hlt]
    · exact absurd heq.symm h.1
    · rw [if_pos hgt, takeWhile_cons_of_neg (by simpa using Nat.le_of_lt hgt),
        dropWhile_cons_of_neg (by simpa using Nat.le_of_lt hgt), nil_append]

theorem take_length_takeWhile (p : Nat → Bool) (ids : List Nat) :
    ids.take (ids.takeWhile p).length = ids.takeWhile p ∧ ids.drop (ids.takeWhile p).length = ids.dropWhile p := by
  have happend := takeWhile_append_dropWhile (p := p) (l := ids)
  constructor
  · conv_lhs => rw [← happend]
    exact take_left' (by rw [happend])
  · conv_lhs => rw [← happend]
    exact drop_left' (by rw [happend])

namespace MessageIdDuplicateChecker

variable {maxSize messageId : Nat} {checker : MessageIdDuplicateChecker}

section

variable {saved : List Nat} {it endPos : Nat} (hit : it ≤ endPos) (hend : endPos < saved.length)

include hit hend

/-- What is stored once an identifier was put at `it`. -/
theorem take_set_copyBackward : ((copyBackward saved it endPos).set it messageId).take (endPos + 1) =
      (saved.take endPos).take it ++ messageId :: (saved.take endPos).drop it := by
  have hfront : (saved.take (it + 1)).set it messageId = saved.take it ++ [messageId] := by
    rw [take_succ_eq_append_getElem (by omega), set_append_right _ _ (by rw [length_take]; omega),
      length_take, Nat.min_eq_left (by omega), Nat.sub_self]
    rfl
  grind [copyBackward, set_append_left, append_assoc, take_left', Nat.min_eq_left,
    drop_take, length_take, length_append, length_singleton]

theorem length_copyBackward : (copyBackward saved it endPos).length = saved.length := by
  simp only [copyBackward, length_append, length_take, length_drop]
  omega

end

/-- What a check makes of the stored identifiers: it accepts a new one or
refuses it. -/
structure Checked (maxSize : Nat) (ids : List Nat) (messageId : Nat) (checker' : MessageIdDuplicateChecker)
    (status : Option Status) : Prop where
  valid : Valid maxSize checker'
  accepts : status = none → messageId ∉ ids ∧ (maxSize ≤ ids.length → ∃ b ∈ ids.head?, b < messageId) ∧
    checker'.stored = emplace id messageId ids
  refuses : status ≠ none → checker'.stored = ids ∧
    (messageId ∈ ids ∨ maxSize ≤ ids.length ∧ ∀ b ∈ ids, messageId < b)

theorem getD_stored {k : Nat} (hk : k < checker.endPos) :
    checker.savedMessageIds.getD k 0 = checker.stored.getD k 0 := by
  rw [stored, getD_eq_getElem?_getD, getD_eq_getElem?_getD, List.getElem?_take_of_lt hk]

variable {ids : List Nat} {accepted : List Nat}

theorem lt_of_last_lt (h : ids.Pairwise (· < ·)) (hlast : ids.getD (ids.length - 1) 0 < messageId) :
    ∀ b ∈ ids, b < messageId := by
  intro b hb
  rcases eq_nil_or_concat ids with rfl | ⟨front, last, rfl⟩
  · cases hb
  · rw [concat_eq_append] at h hb hlast
    have heq : (front ++ [last]).getD ((front ++ [last]).length - 1) 0 = last := by simp
    rw [heq] at hlast
    rcases mem_append.mp hb with hb | hb
    · exact Nat.lt_trans ((pairwise_append.mp h).2.2 b hb last (by simp)) hlast
    · rw [mem_singleton.mp hb]
      exact hlast

theorem lt_of_lt_head (h : ids.Pairwise (· < ·)) (hhead : messageId < ids.getD 0 0) : ∀ b ∈ ids, messageId < b := by
  intro b hb
  cases ids with
  | nil => cases hb
  | cons c ids =>
    rcases mem_cons.mp hb with rfl | hb
    · exact hhead
    · exact Nat.lt_trans hhead (rel_of_pairwise_cons h hb)

theorem Checked.of_take {saved : List Nat} {endPos : Nat} (hsorted : ids.Pairwise (· < ·))
    (hlength : saved.length = 2 * maxSize) (hle : endPos ≤ 2 * maxSize) (hnew : messageId ∉ ids)
    (hbig : maxSize ≤ ids.length → ∃ b ∈ ids.head?, b < messageId)
    (htake : saved.take endPos = emplace id messageId ids) : Checked maxSize ids messageId ⟨saved, endPos⟩ none := by
  refine ⟨⟨hlength, hle, ?_⟩, fun _ => ⟨hnew, hbig, htake⟩, fun hne => absurd rfl hne⟩
  rw [stored, htake]
  refine OrderedMap.Sorted.emplace hsorted fun b hb heq => hnew ?_
  rwa [← show b = messageId from heq]

section

variable (h : Valid maxSize checker) (hroom : checker.endPos < 2 * maxSize)

include h

/-- The search for the place of an identifier that is not greater than all. -/
theorem search_found (hlast : ¬ checker.stored.getD (checker.endPos - 1) 0 < messageId) (hpos : 0 < checker.endPos) :
    ∃ b rest, checker.stored.takeWhile (· < messageId) ++ b :: rest = checker.stored ∧
      checker.stored.dropWhile (· < messageId) = b :: rest ∧ messageId ≤ b := by
  have hcount := h.length_stored
  cases hcases : checker.stored.dropWhile (· < messageId) with
  | nil =>
    -- The last identifier is not smaller, so the search stops before the end.
    have hall := dropWhile_eq_nil_iff.mp hcases
    refine absurd (of_decide_eq_true (hall _ ?_)) hlast
    rw [getD_eq_getElem _ _ (by omega)]
    exact getElem_mem _
  | cons b rest =>
    have hsplit := takeWhile_append_dropWhile (p := fun x => decide (x < messageId)) (l := checker.stored)
    rw [hcases] at hsplit
    refine ⟨b, rest, hsplit, rfl, ?_⟩
    have hsorted : OrderedMap.Sorted id checker.stored := h.increasing
    have hmem : b ∈ checker.stored.dropWhile fun a => id a < messageId := by
      simp [hcases]
    exact hsorted.le_of_mem_dropWhile hmem

include hroom

theorem fast_checked (hbelow : ∀ b ∈ checker.stored, b < messageId) (hsize : 1 ≤ maxSize) :
    Checked maxSize checker.stored messageId
      ⟨checker.savedMessageIds.set checker.endPos messageId, checker.endPos + 1⟩ none := by
  have hlength := h.length
  refine .of_take h.increasing (by rw [List.length_set, hlength]) hroom ?_ ?_ ?_
  · intro hmem
    exact Nat.lt_irrefl _ (hbelow _ hmem)
  · intro hfull
    cases hids : checker.stored with
    | nil =>
      rw [hids, length_nil] at hfull
      omega
    | cons b ids => exact ⟨b, rfl, hbelow b (by rw [hids]; exact mem_cons_self)⟩
  · have happend : emplace id messageId checker.stored = checker.stored ++ [messageId] :=
      emplace_of_lt hbelow
    rw [InPlace.take_set (by omega), happend, stored]

theorem middle_checked {b : Nat} {rest : List Nat}
    (hsplit : checker.stored.takeWhile (· < messageId) ++ b :: rest = checker.stored) (hlt : messageId < b)
    (hbig : ¬ (maxSize ≤ checker.endPos ∧ messageId < checker.stored.getD 0 0)) :
    Checked maxSize checker.stored messageId
      ⟨(copyBackward checker.savedMessageIds (lowerBound checker.stored messageId) checker.endPos).set
        (lowerBound checker.stored messageId) messageId, checker.endPos + 1⟩ none := by
  have hlength := h.length
  have hcount := h.length_stored
  have hsorted := h.increasing
  have hit : lowerBound checker.stored messageId ≤ checker.endPos := by
    rw [← hcount]
    exact (takeWhile_sublist _).length_le
  have hnotMem : messageId ∉ checker.stored := by
    rw [← hsplit, mem_append, mem_cons]
    rintro (hmem | hmem | hmem)
    · have hself := mem_takeWhile_imp hmem
      simp at hself
    · omega
    · rw [← hsplit] at hsorted
      have hlater := rel_of_pairwise_cons (pairwise_append.mp hsorted).2.1 hmem
      omega
  refine .of_take hsorted ?_ hroom hnotMem ?_ ?_
  · rw [List.length_set, length_copyBackward hit (by omega), hlength]
  · intro hfull
    cases hids : checker.stored with
    | nil =>
      simp [hids] at hsplit
    | cons c ids =>
      rw [hids] at hbig hnotMem
      refine ⟨c, rfl, ?_⟩
      have hnot : ¬ messageId < c := fun hc => hbig ⟨by omega, hc⟩
      have hne : c ≠ messageId := fun hceq => hnotMem (hceq ▸ mem_cons_self)
      omega
  · obtain ⟨htake, hdrop⟩ := take_length_takeWhile (· < messageId) checker.stored
    rw [take_set_copyBackward hit (by omega), ← stored, lowerBound, htake, hdrop, emplace_eq hnotMem]

end

/-- **What a check does**, without an access outside of the array. -/
theorem check_checked (hsize : 1 ≤ maxSize) (h : Valid maxSize checker) (messageId : Nat) :
    ∃ checker' status, checkMessageIdDuplicates maxSize checker messageId = .ok (checker', status) ∧
      Checked maxSize (shrunk maxSize checker.stored) messageId checker' status := by
  obtain ⟨hvalid, hstored, hroom⟩ := h.makeRoom hsize
  rw [checkMessageIdDuplicates, ← hstored]
  generalize makeRoom maxSize checker = checker1 at hvalid hroom
  dsimp only
  have hlength := hvalid.length
  have hcount := hvalid.length_stored
  by_cases hzero : checker1.endPos = 0
  · rw [if_pos (.inl hzero), check_true (by omega), ok_bind]
    refine ⟨_, none, rfl, fast_checked hvalid hroom ?_ hsize⟩
    simp_all
  have hlast := getD_stored (show checker1.endPos - 1 < checker1.endPos by omega)
  have hfirst := getD_stored (show 0 < checker1.endPos by omega)
  rw [hlast, hfirst, ← stored]
  by_cases hfast : checker1.stored.getD (checker1.endPos - 1) 0 < messageId
  · rw [if_pos (.inr hfast), check_true (by omega), ok_bind]
    refine ⟨_, none, rfl, fast_checked hvalid hroom ?_ hsize⟩
    rw [← hcount] at hfast
    exact lt_of_last_lt hvalid.increasing hfast
  rw [if_neg (not_or.mpr ⟨hzero, hfast⟩)]
  by_cases hold : maxSize ≤ checker1.endPos ∧ messageId < checker1.stored.getD 0 0
  · rw [if_pos hold]
    refine ⟨_, some _, rfl, hvalid, by simp, fun _ => ⟨rfl, .inr ⟨by omega, ?_⟩⟩⟩
    exact lt_of_lt_head hvalid.increasing hold.2
  rw [if_neg hold]
  obtain ⟨b, rest, hsplit, -, hle⟩ := search_found hvalid hfast (by omega)
  have hpos : lowerBound checker1.stored messageId < checker1.endPos := by
    have hparts := congrArg List.length hsplit
    rw [length_append, length_cons, hcount] at hparts
    rw [lowerBound]
    omega
  have hat : checker1.stored.getD (lowerBound checker1.stored messageId) 0 = b := by
    rw [lowerBound]
    generalize checker1.stored.takeWhile (· < messageId) = front at hsplit ⊢
    rw [← hsplit, getD_append_right _ _ _ _ (Nat.le_refl _), Nat.sub_self]
    rfl
  rw [check_true (by omega), ok_bind, getD_stored hpos, hat]
  by_cases heq : b = messageId
  · rw [if_pos heq]
    refine ⟨_, some _, rfl, hvalid, by simp, fun _ => ⟨rfl, .inl ?_⟩⟩
    rw [← hsplit, heq]
    simp
  · rw [if_neg heq, check_true (by omega), ok_bind]
    exact ⟨_, none, rfl, middle_checked hvalid hroom hsplit (by omega) hold⟩

/-! ## All checks -/

/-- What is stored covers what was accepted: an identifier is either stored, or
below all that are stored, of which there are enough. -/
structure Covers (maxSize : Nat) (ids accepted : List Nat) : Prop where
  sub : ∀ b ∈ ids, b ∈ accepted
  covered : ∀ a ∈ accepted, a ∈ ids ∨ maxSize ≤ ids.length ∧ ∀ b ∈ ids, a < b
  nodup : accepted.Nodup

section

variable {ids accepted : List Nat} (h : Covers maxSize ids accepted)

include h

theorem Covers.shrink (hids : ids.Pairwise (· < ·)) : Covers maxSize (shrunk maxSize ids) accepted := by
  rw [shrunk]
  split
  next hfull =>
    refine ⟨fun b hb => h.sub b (mem_of_mem_drop hb), fun a ha => ?_, h.nodup⟩
    have hcount : maxSize ≤ (ids.drop maxSize).length := by
      rw [length_drop]
      omega
    rcases h.covered a ha with hmem | ⟨-, hbelow⟩
    · rw [← take_append_drop maxSize ids] at hmem hids
      rcases mem_append.mp hmem with hmem | hmem
      · exact .inr ⟨hcount, fun b hb => (pairwise_append.mp hids).2.2 a hmem b hb⟩
      · exact .inl hmem
    · exact .inr ⟨hcount, fun b hb => hbelow b (mem_of_mem_drop hb)⟩
  next => exact h

section

variable (hnew : messageId ∉ ids) (hbig : maxSize ≤ ids.length → ∃ b ∈ ids.head?, b < messageId)

include hnew hbig

theorem Covers.notMem_of_accepts : messageId ∉ accepted := by
  intro hmem
  rcases h.covered messageId hmem with hin | ⟨hcount, hbelow⟩
  · exact hnew hin
  · obtain ⟨b, hb, hlt⟩ := hbig hcount
    have := hbelow b (mem_of_mem_head? hb)
    omega

theorem Covers.accept : Covers maxSize (emplace id messageId ids) (accepted ++ [messageId]) := by
  have hne : ∀ b ∈ ids, id b ≠ id messageId := fun b hb heq => hnew (by rwa [← show b = messageId from heq])
  refine ⟨?_, ?_, ?_⟩
  · intro b hb
    rcases (mem_emplace hne).mp hb with rfl | hb
    · simp
    · exact mem_append_left _ (h.sub b hb)
  · intro a ha
    rcases mem_append.mp ha with ha | ha
    · rcases h.covered a ha with hin | ⟨hcount, hbelow⟩
      · exact .inl ((mem_emplace hne).mpr (.inr hin))
      · refine .inr ⟨by rw [length_emplace hne]; omega, fun b hb => ?_⟩
        rcases (mem_emplace hne).mp hb with rfl | hb
        · obtain ⟨c, hc, hlt⟩ := hbig hcount
          have := hbelow c (mem_of_mem_head? hc)
          omega
        · exact hbelow b hb
    · rw [mem_singleton.mp ha]
      exact .inl ((mem_emplace hne).mpr (.inl rfl))
  · refine nodup_append.mpr ⟨h.nodup, by simp, ?_⟩
    intro a ha b hb heq
    rw [mem_singleton.mp hb] at heq
    exact h.notMem_of_accepts hnew hbig (heq ▸ ha)

end

end

/-- **A step**: whatever is given to a checker, what it stores covers what it has
accepted. -/
theorem Covers.check (hsize : 1 ≤ maxSize) (h : Valid maxSize checker)
    (hcovers : Covers maxSize checker.stored accepted) (messageId : Nat) :
    ∃ checker' status, checkMessageIdDuplicates maxSize checker messageId = .ok (checker', status) ∧
      Valid maxSize checker' ∧
      Covers maxSize checker'.stored (if status.isNone then accepted ++ [messageId] else accepted) ∧
      (status ≠ none → messageId ∈ accepted ∨ maxSize ≤ (accepted.filter (messageId < ·)).length) := by
  obtain ⟨checker', status, hcheck, hchecked⟩ := check_checked hsize h messageId
  have hcovers := hcovers.shrink h.increasing
  refine ⟨checker', status, hcheck, hchecked.valid, ?_⟩
  cases status with
  | none =>
    obtain ⟨hnew, hbig, hstored⟩ := hchecked.accepts rfl
    rw [hstored]
    exact ⟨hcovers.accept hnew hbig, fun hne => absurd rfl hne⟩
  | some status =>
    obtain ⟨hstored, hreason⟩ := hchecked.refuses (by simp)
    have hnodup : (shrunk maxSize checker.stored).Nodup := by
      rw [← hstored]
      exact hchecked.valid.increasing.imp fun hlt => Nat.ne_of_lt hlt
    rw [hstored]
    refine ⟨hcovers, fun _ => ?_⟩
    rcases hreason with hmem | ⟨hcount, hbelow⟩
    · exact .inl (hcovers.sub _ hmem)
    · have hsub : shrunk maxSize checker.stored ⊆ accepted.filter (messageId < ·) := by
        intro b hb
        exact mem_filter.mpr ⟨hcovers.sub b hb, decide_eq_true (hbelow b hb)⟩
      exact .inr (Nat.le_trans hcount (subperm_of_subset hnodup hsub).length_le)

theorem runChecks_covers (hsize : 1 ≤ maxSize) (ids : List Nat) (h : Valid maxSize checker)
    (hcovers : Covers maxSize checker.stored accepted) :
    ∃ checker' accepted', runChecks maxSize checker ids = .ok (checker', accepted') ∧ Valid maxSize checker' ∧
      Covers maxSize checker'.stored (accepted ++ accepted') := by
  induction ids generalizing checker accepted with
  | nil => exact ⟨checker, [], rfl, h, by rwa [append_nil]⟩
  | cons messageId ids ih =>
    obtain ⟨checker1, status, hcheck, hvalid, hcovers1, -⟩ := hcovers.check hsize h messageId
    obtain ⟨checker', accepted', hrun, hvalid', hcovers'⟩ := ih hvalid hcovers1
    rw [runChecks, hcheck, ok_bind]
    dsimp only
    rw [hrun, ok_bind]
    refine ⟨checker', _, rfl, hvalid', ?_⟩
    cases status with
    | none => simpa using hcovers'
    | some status => exact hcovers'

end MessageIdDuplicateChecker

open MessageIdDuplicateChecker

/-- **The replay filter.** Whatever identifiers are given to a checker, none is
accepted twice, the stored ones are strictly increasing and no more than the
array has places. The next identifier is refused only if it was accepted before
or if at least `maxSize` accepted ones are greater. -/
theorem duplicateChecker_runs {maxSize : Nat} (hsize : 1 ≤ maxSize) (ids : List Nat) :
    ∃ checker accepted, runChecks maxSize (init maxSize) ids = .ok (checker, accepted) ∧ accepted.Nodup ∧
      checker.stored.Pairwise (· < ·) ∧ checker.endPos ≤ 2 * maxSize ∧
      ∀ messageId, ∃ checker' status, checkMessageIdDuplicates maxSize checker messageId = .ok (checker', status) ∧
        (status = none → messageId ∉ accepted) ∧
        (status ≠ none → messageId ∈ accepted ∨ maxSize ≤ (accepted.filter (messageId < ·)).length) := by
  have hempty : Covers maxSize (init maxSize).stored [] :=
    ⟨by simp [init, stored], by simp, nodup_nil⟩
  obtain ⟨checker, accepted, hrun, hvalid, hcovers⟩ := runChecks_covers hsize ids (valid_init maxSize) hempty
  refine ⟨checker, accepted, hrun, hcovers.nodup, hvalid.increasing, hvalid.endPos_le, fun messageId => ?_⟩
  obtain ⟨checker', status, hcheck, -, hcovers', hrefused⟩ := hcovers.check hsize hvalid messageId
  refine ⟨checker', status, hcheck, ?_, hrefused⟩
  rintro rfl
  have hnodup := hcovers'.nodup
  intro hmem
  exact (nodup_append.mp hnodup).2.2 messageId hmem messageId (by simp) rfl

/-- A window of two identifiers, which forgets. -/
theorem duplicateChecker_runs_two :
    ∃ checker accepted, runChecks 2 (init 2) [3, 1, 5, 7, 9, 1, 5] = .ok (checker, accepted) ∧ accepted.Nodup ∧
      checker.stored.Pairwise (· < ·) ∧ checker.endPos ≤ 2 * 2 ∧
      ∀ messageId, ∃ checker' status, checkMessageIdDuplicates 2 checker messageId = .ok (checker', status) ∧
        (status = none → messageId ∉ accepted) ∧
        (status ≠ none → messageId ∈ accepted ∨ 2 ≤ (accepted.filter (messageId < ·)).length) :=
  duplicateChecker_runs (by decide) [3, 1, 5, 7, 9, 1, 5]

end Tdlib.Mtproto
