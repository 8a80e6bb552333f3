/-
Searching for a boundary in a stream that grows, from `td/utils/find_boundary.cpp`.

The bytes that are available lie in the nodes of a chain of buffers, divided
in any way. A call goes on where the last one stopped: before that position
the boundary cannot begin, whatever comes (`MayBegin`). How the bytes are
divided does not matter (`findBoundary_flatten`).
-/
import Mathlib.Data.List.Basic
import Tdlib.Lib.Bytes
import Tdlib.Lib.Outcome

namespace Tdlib.FindBoundary

open Outcome
open List hiding pure_def

/-- `prepare_read`: the unread bytes of the first node that has any. -/
def prepareRead : List Bytes → Bytes
  | [] => []
  | [] :: nodes => prepareRead nodes
  | node :: _ => node

/-- `advance`: the bytes that are read, and the nodes from there on. -/
def advance : Nat → List Bytes → Bytes × List Bytes
  | _, [] => ([], [])
  | offset, node :: nodes =>
    if offset < node.length then (node.take offset, node.drop offset :: nodes)
    else
      let (bytes, rest) := advance (offset - node.length) nodes
      (node ++ bytes, rest)

theorem advance_eq (offset : Nat) (range : List Bytes) :
    (advance offset range).1 = range.flatten.take offset ∧
      (advance offset range).2.flatten = range.flatten.drop offset := by
  induction range generalizing offset with
  | nil => simp [advance]
  | cons node nodes ih =>
    rw [advance, flatten_cons]
    split
    next hlt => simp [take_append_of_le_length hlt.le, drop_append_of_le_length hlt.le]
    next hge =>
      have hle := Nat.le_of_not_lt hge
      simp [take_append, drop_append, take_of_length_le hle, drop_of_length_le hle, ih]

theorem prepareRead_spec (range : List Bytes) :
    prepareRead range <+: range.flatten ∧ (range.flatten ≠ [] → prepareRead range ≠ []) := by
  fun_induction prepareRead range with
  | case1 => simp
  | case2 nodes ih => simpa using ih
  | case3 node nodes hne => exact ⟨prefix_append .., fun _ => hne⟩

theorem findIdx_pos {ready : Bytes} {first : UInt8} (hne : ready ≠ []) (hhead : ready.head? ≠ some first) :
    0 < ready.findIdx (· == first) := by
  cases ready with
  | nil => exact absurd rfl hne
  | cons x ready =>
    rw [findIdx_cons, beq_eq_false_iff_ne.mpr (by simpa using hhead)]
    exact Nat.succ_pos _

/-- The loop, for the boundary `first :: rest`. `memchr` gives an index in the
node, or its size. No call of `advance` goes past the end. -/
def findLoop (first : UInt8) (rest : Bytes) (range : List Bytes) (alreadyRead : Nat) : Bool × Nat :=
  if range.flatten = [] then (false, alreadyRead)
  else if hhead : (prepareRead range).head? = some first then
    if range.flatten.length < rest.length + 1 then (false, alreadyRead)
    else if (advance (rest.length + 1) range).1 = first :: rest then (true, alreadyRead)
    else findLoop first rest (advance 1 range).2 (alreadyRead + 1)
  else
    let shift := (prepareRead range).findIdx (· == first)
    findLoop first rest (advance shift range).2 (alreadyRead + shift)
termination_by range.flatten.length
decreasing_by
  all_goals
    have hne : range.flatten ≠ [] := by assumption
    rw [(advance_eq _ _).2, length_drop]
    have hpos := length_pos_iff.mpr hne
  · omega
  · have := findIdx_pos ((prepareRead_spec range).2 hne) hhead
    omega

def findBoundary (range : List Bytes) (boundary : Bytes) (alreadyRead : Nat) : Outcome (Bool × Nat) := do
  check (alreadyRead ≤ range.flatten.length)
  check (boundary.length ≤ 74)
  match boundary with
  | [] => .fatal
  | first :: rest => pure (findLoop first rest (advance alreadyRead range).2 alreadyRead)

/-! ## Byte by byte -/

/-- The search byte by byte, in bytes that are not divided. -/
def plainLoop (first : UInt8) (rest : Bytes) : Bytes → Nat → Bool × Nat
  | [], alreadyRead => (false, alreadyRead)
  | x :: stream, alreadyRead =>
    if x = first ∧ stream.length < rest.length then (false, alreadyRead)
    else if first :: rest <+: x :: stream then (true, alreadyRead)
    else plainLoop first rest stream (alreadyRead + 1)

theorem flatten_of_head {first : UInt8} {range : List Bytes} (hhead : (prepareRead range).head? = some first) :
    ∃ stream, range.flatten = first :: stream := by
  obtain ⟨more, hmore⟩ := (prepareRead_spec range).1
  obtain ⟨ready, hready⟩ := head?_eq_some_iff.mp hhead
  exact ⟨ready ++ more, by rw [← hmore, hready, cons_append]⟩

theorem plainLoop_skip {first : UInt8} {skipped : Bytes} (hskipped : first ∉ skipped) (rest stream : Bytes) (a : Nat) :
    plainLoop first rest (skipped ++ stream) a = plainLoop first rest stream (a + skipped.length) := by
  induction skipped generalizing a with
  | nil => rfl
  | cons x skipped ih =>
    obtain ⟨hx, hskipped⟩ := not_or.mp (mem_cons.not.mp hskipped)
    rw [cons_append, plainLoop, if_neg fun h => hx h.1.symm, if_neg fun h => hx (cons_prefix_cons.mp h).1,
      ih hskipped, length_cons, Nat.add_assoc, Nat.add_comm 1]

theorem not_mem_take_findIdx (first : UInt8) (ready : Bytes) : first ∉ ready.take (ready.findIdx (· == first)) := by
  intro hmem
  obtain ⟨i, hi, hbyte⟩ := mem_iff_getElem.mp hmem
  rw [getElem_take] at hbyte
  have hother := not_of_lt_findIdx (lt_of_lt_of_le hi (length_take_le ..))
  simp [hbyte] at hother

/-- With `memchr` on one node after another the loop does what it does byte by byte. -/
theorem findLoop_eq_plainLoop (first : UInt8) (rest : Bytes) (range : List Bytes) (a : Nat) :
    findLoop first rest range a = plainLoop first rest range.flatten a := by
  fun_induction findLoop first rest range a with
  | case1 range a hempty => rw [hempty, plainLoop]
  | case2 range a _ hhead hshort =>
    obtain ⟨stream, hstream⟩ := flatten_of_head hhead
    rw [hstream, length_cons] at hshort
    rw [hstream, plainLoop, if_pos ⟨rfl, by omega⟩]
  | case3 range a _ hhead hlong hfound =>
    obtain ⟨stream, hstream⟩ := flatten_of_head hhead
    rw [(advance_eq _ _).1, hstream] at hfound
    rw [hstream, length_cons] at hlong
    rw [hstream, plainLoop, if_neg (by omega), if_pos (hfound ▸ take_prefix ..)]
  | case4 range a _ hhead hlong hother ih =>
    obtain ⟨stream, hstream⟩ := flatten_of_head hhead
    rw [(advance_eq _ _).1, hstream] at hother
    rw [hstream, length_cons] at hlong
    have hplain : ¬ first :: rest <+: first :: stream := fun hpre => hother (prefix_iff_eq_take.mp hpre).symm
    rw [ih, (advance_eq _ _).2, hstream, plainLoop, if_neg (by omega), if_neg hplain, drop_one, tail_cons]
  | case5 range a _ _ shift ih =>
    obtain ⟨more, hmore⟩ := (prepareRead_spec range).1
    have hshift : shift ≤ (prepareRead range).length := findIdx_le_length
    rw [ih, (advance_eq _ _).2, ← hmore, drop_append_of_le_length hshift]
    have hskip := plainLoop_skip (not_mem_take_findIdx first (prepareRead range)) rest
      ((prepareRead range).drop shift ++ more) a
    rw [length_take, Nat.min_eq_left hshift, ← append_assoc, take_append_drop] at hskip
    exact hskip.symm

/-- The boundary is at `p`, or is there if the right bytes follow the stream. -/
def MayBegin (boundary stream : Bytes) (p : Nat) : Prop := (stream.drop p).take boundary.length <+: boundary

variable {boundary stream : Bytes} {p : Nat}

theorem MayBegin.of_grown {stream' : Bytes} (h : MayBegin boundary stream' p) (hgrown : stream <+: stream')
    (hp : p ≤ stream.length) : MayBegin boundary stream p := by
  obtain ⟨more, rfl⟩ := hgrown
  rw [MayBegin, drop_append_of_le_length hp, take_append] at h
  exact (prefix_append ..).trans h

/-- What a call leaves: the boundary at the position, or too few bytes behind it. -/
structure Stopped (boundary stream : Bytes) (found : Bool) (a : Nat) : Prop where
  le : a ≤ stream.length
  past : ∀ p < a, ¬ MayBegin boundary stream p
  at_boundary : found = true → boundary <+: stream.drop a
  short : found = false → stream.length < a + boundary.length

variable {range : List Bytes} {a : Nat}

theorem plainLoop_stopped (first : UInt8) (rest : Bytes) {bytes : Bytes} (hbytes : bytes = stream.drop a)
    (le : a ≤ stream.length) (past : ∀ p < a, ¬ MayBegin (first :: rest) stream p) :
    Stopped (first :: rest) stream (plainLoop first rest bytes a).1 (plainLoop first rest bytes a).2 := by
  have hlength : bytes.length = stream.length - a := by rw [hbytes, length_drop]
  induction bytes generalizing a with
  | nil => exact ⟨le, past, by simp [plainLoop], fun _ => by simp [plainLoop] at hlength ⊢; omega⟩
  | cons x bytes ih =>
    rw [length_cons] at hlength
    rw [plainLoop]
    split_ifs with hshort hfound
    · exact ⟨le, past, by simp, fun _ => by rw [length_cons]; omega⟩
    · exact ⟨le, past, fun _ => hbytes ▸ hfound, by simp⟩
    · have hnext : bytes = stream.drop (a + 1) := by rw [← drop_drop, ← hbytes, drop_one, tail_cons]
      refine ih hnext (by omega) (fun p hp hbegin => ?_) (by omega)
      rcases Nat.lt_succ_iff_lt_or_eq.mp hp with hp | rfl
      · exact past p hp hbegin
      · -- the byte is the first one of the boundary, with enough bytes behind it
        rw [MayBegin, ← hbytes] at hbegin
        have hfirst : x = first := (cons_prefix_cons.mp hbegin).1
        have hlong : rest.length ≤ bytes.length := Nat.le_of_not_lt fun h => hshort ⟨hfirst, h⟩
        have htake := hbegin.eq_of_length (by rw [length_take, length_cons, length_cons]; omega)
        exact hfound (htake ▸ take_prefix ..)

/-- Calls that share a counter, on a stream that grows and is divided anew each time. -/
inductive Calls (boundary : Bytes) : Bytes → Nat → Prop
  | start : Calls boundary [] 0
  | call {stream : Bytes} {a a' : Nat} {range : List Bytes} {found : Bool} :
      Calls boundary stream a → stream <+: range.flatten → findBoundary range boundary a = .ok (found, a') →
      Calls boundary range.flatten a'

section

variable (hne : boundary ≠ []) (hlen : boundary.length ≤ 74)

include hne hlen

/-- One call, from a position before which the boundary cannot begin. -/
theorem findBoundary_stopped (le : a ≤ range.flatten.length)
    (past : ∀ p < a, ¬ MayBegin boundary range.flatten p) :
    ∃ found a', findBoundary range boundary a = .ok (found, a') ∧ Stopped boundary range.flatten found a' := by
  obtain ⟨first, rest, rfl⟩ := exists_cons_of_ne_nil hne
  exact ⟨_, _, by rw [findBoundary, check_true le, ok_bind, check_true hlen]; rfl,
    findLoop_eq_plainLoop .. ▸ plainLoop_stopped first rest (advance_eq _ _).2 le past⟩

theorem Calls.past (h : Calls boundary stream a) : a ≤ stream.length ∧ ∀ p < a, ¬ MayBegin boundary stream p := by
  induction h with
  | start => simp
  | call _ hgrown hcall ih =>
    obtain ⟨found, a, hrun, hstopped⟩ := findBoundary_stopped hne hlen (ih.1.trans hgrown.length_le)
      fun p hp hbegin => ih.2 p hp (hbegin.of_grown hgrown (by omega))
    cases hcall.symm.trans hrun
    exact ⟨hstopped.le, hstopped.past⟩

/-- **The search.** After any calls the next one finds the boundary if and only if it is in
the stream, at its first position; else it stops before any position where the
boundary may still begin, with fewer bytes behind than the boundary has. -/
theorem Calls.finds_first (h : Calls boundary stream a) (hgrown : stream <+: range.flatten) :
    ∃ found a', findBoundary range boundary a = .ok (found, a') ∧
      (found = true ↔ ∃ p, boundary <+: range.flatten.drop p) ∧
      (found = true → boundary <+: range.flatten.drop a' ∧
        ∀ p < a', ¬ boundary <+: range.flatten.drop p) ∧
      (found = false → (∀ p < a', ¬ MayBegin boundary range.flatten p) ∧
        a' ≤ range.flatten.length ∧ range.flatten.length < a' + boundary.length) := by
  obtain ⟨le, past⟩ := h.past hne hlen
  obtain ⟨found, a, hrun, hstopped⟩ := findBoundary_stopped hne hlen (le.trans hgrown.length_le)
    fun p hp hbegin => past p hp (hbegin.of_grown hgrown (by omega))
  have hoccurs : ∀ p < a, ¬ boundary <+: range.flatten.drop p := fun p hp hpre =>
    hstopped.past p hp (by simp [MayBegin, ← prefix_iff_eq_take.mp hpre])
  refine ⟨found, a, hrun, ⟨fun hfound => ⟨a, hstopped.at_boundary hfound⟩, ?_⟩,
    fun hfound => ⟨hstopped.at_boundary hfound, hoccurs⟩,
    fun hfound => ⟨hstopped.past, hstopped.le, hstopped.short hfound⟩⟩
  rintro ⟨p, hpre⟩
  by_contra hfound
  have hshort := hstopped.short (by simpa using hfound)
  have hle := hpre.length_le
  have hpos := length_pos_iff.mpr hne
  rw [length_drop] at hle
  exact hoccurs p (by omega) hpre

end

theorem finds_first_two_nodes : ∃ found a, findBoundary [[1, 13], [10, 2]] [13, 10] 0 = .ok (found, a) ∧
    (found = true ↔ ∃ p, ([13, 10] : Bytes) <+: [1, 13, 10, 2].drop p) := by
  have hstart : Calls [13, 10] [] 0 := .start
  have hgrown : ([] : Bytes) <+: [[1, 13], [10, 2]].flatten := nil_prefix
  obtain ⟨found, a, hrun, hiff, -⟩ := hstart.finds_first (by decide) (by decide) hgrown
  exact ⟨found, a, hrun, hiff⟩

/-- **The division does not matter**: a call does what it does with all bytes in one node. -/
theorem findBoundary_flatten (range : List Bytes) (boundary : Bytes) (a : Nat) :
    findBoundary range boundary a = findBoundary [range.flatten] boundary a := by
  unfold findBoundary
  cases boundary with
  | nil => simp
  | cons first rest => simp [findLoop_eq_plainLoop, advance_eq]

end Tdlib.FindBoundary
