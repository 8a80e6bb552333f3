/-
`clean_input_string` (`td/telegram/misc.cpp`): the check every string from a
client goes through. The string is rewritten in place.

Byte by byte the loop does to each character one of three things: it writes a
space for it, drops it, or keeps it; and it stops when the result gets too
long. `cleanedFrom` is the same on the text, and `replaceMarks` is
`replace_offending_characters` on the text.
-/
import Tdlib.Lib.InPlace
import Tdlib.Text.Utf8

namespace Tdlib.Text

open String (utf8EncodeChar)
open Utf8 List

/-! ## Model -/

/-- The byte at a position of a zero-terminated string. -/
def byteAt (str : Bytes) (pos : Nat) : UInt8 := str.getD pos 0

/-- A U+200E or U+200F mark begins here. -/
def isMarkAt (s : Bytes) (pos : Nat) : Bool :=
  byteAt s pos == 0xe2 && byteAt s (pos + 1) == 0x80 && (byteAt s (pos + 2) == 0x8e || byteAt s (pos + 2) == 0x8f)

/-- The `while` loop of `replace_offending_characters`. -/
def replaceMarkRun : Nat → Bytes → Nat → Bytes × Nat
  | 0, s, pos => (s, pos)
  | fuel + 1, s, pos => if isMarkAt s (pos + 3) then replaceMarkRun fuel (s.set (pos + 2) 0x8c) (pos + 3) else (s, pos)

def replaceOffendingLoop : Nat → Bytes → Nat → Bytes
  | 0, s, _ => s
  | fuel + 1, s, pos =>
    if pos < s.length then
      if isMarkAt s pos then
        let (s, pos) := replaceMarkRun s.length s pos
        replaceOffendingLoop fuel s (pos + 3)
      else replaceOffendingLoop fuel s (pos + 1)
    else s

/-- `replace_offending_characters`. -/
def replaceOffendingCharacters (str : Bytes) : Bytes := replaceOffendingLoop str.length str 0

/-- The control characters the switches of `clean_input_string` list, and the
space: all below 33 but line feed and carriage return. -/
def isControl (c : UInt8) : Bool := c.toNat ≤ 32 && c.toNat ≠ 10 && c.toNat ≠ 13

/-- A character `\xe2\x80[\xa8-\xae]` begins here. -/
def isDirectionAt (str : Bytes) (strSize pos : Nat) : Bool :=
  byteAt str pos == 0xe2 && decide (pos + 2 < strSize) && byteAt str (pos + 1) == 0x80 &&
    decide (0xa8 ≤ (byteAt str (pos + 2)).toNat ∧ (byteAt str (pos + 2)).toNat ≤ 0xae)

/-- A vertical line `\xcc[\xb3\xbf\x8a]` begins here. -/
def isVerticalLineAt (str : Bytes) (strSize pos : Nat) : Bool :=
  byteAt str pos == 0xcc && decide (pos + 1 < strSize) &&
    (byteAt str (pos + 1) == 0xb3 || byteAt str (pos + 1) == 0xbf || byteAt str (pos + 1) == 0x8a)

def lengthLimit : Nat := 35000

/-- The `switch` of `clean_input_string`: the string, `pos` and `new_size` after it. -/
def cleanInputSwitch (str : Bytes) (strSize pos newSize : Nat) : Bytes × Nat × Nat :=
  let c := byteAt str pos
  if isControl c then (str.set newSize 0x20, pos, newSize + 1)
  else if c = 13 then (str, pos, newSize)
  else if isDirectionAt str strSize pos then (str, pos + 2, newSize)
  else if isVerticalLineAt str strSize pos then (str, pos + 1, newSize)
  else (str.set newSize c, pos, newSize + 1)

def cleanInputLoop (strSize : Nat) : Nat → Bytes → Nat → Nat → Bytes × Nat
  | 0, str, _, newSize => (str, newSize)
  | fuel + 1, str, pos, newSize =>
    if pos < strSize then
      let (str, pos, newSize) := cleanInputSwitch str strSize pos newSize
      if newSize ≥ lengthLimit - 3 ∧ isUtf8CharacterFirstCodeUnit (byteAt str (newSize - 1)) then (str, newSize - 1)
      else cleanInputLoop strSize fuel str (pos + 1) newSize
    else (str, newSize)

/-- `clean_input_string`: what it returns, and the string it leaves. -/
def cleanInputString (str : Bytes) : Bool × Bytes :=
  if checkUtf8 str then
    let (result, newSize) := cleanInputLoop str.length str.length str 0 0
    (true, replaceOffendingCharacters (result.take newSize))
  else (false, str)

/-! ## The same on texts -/

/-- The characters that are dropped. -/
def Removed (c : Char) : Prop :=
  0x2028 ≤ c.toNat ∧ c.toNat ≤ 0x202E ∨ c.toNat = 0x33F ∨ c.toNat = 0x333 ∨ c.toNat = 0x30A

instance : DecidablePred Removed := fun _ => inferInstanceAs (Decidable (_ ∨ _))

/-- What is written for a character, if anything. -/
def cleanChar (c : Char) : Option Char :=
  if c.toNat ≤ 32 ∧ c.toNat ≠ 10 ∧ c.toNat ≠ 13 then some ' '
  else if c.toNat = 13 ∨ Removed c then none
  else some c

/-- What is written for a text after `size` bytes. -/
def cleanedFrom (size : Nat) : List Char → List Char
  | [] => []
  | c :: cs =>
    match cleanChar c with
    | none => cleanedFrom size cs
    | some d => if lengthLimit - 3 ≤ size + 1 then [] else d :: cleanedFrom (size + (utf8EncodeChar d).length) cs

/-- A left-to-right or right-to-left mark. -/
def Mark (c : Char) : Prop := c.toNat = 0x200E ∨ c.toNat = 0x200F

instance : DecidablePred Mark := fun _ => inferInstanceAs (Decidable (_ ∨ _))

/-- The zero width non-joiner, written for a mark before a mark. -/
def nonJoiner : Char := Char.ofNat 0x200C

def replaceMarks : List Char → List Char
  | c :: d :: cs => (if Mark c ∧ Mark d then nonJoiner else c) :: replaceMarks (d :: cs)
  | cs => cs

/-! ### Characters as bytes -/

variable {buf out rest : Bytes} {w r : Nat} {c d : Char} {cs : List Char}

theorem byteAt_read (h : InPlace buf w r out rest) (k : Nat) : byteAt buf (r + k) = byteAt rest k :=
  h.getD_read k 0

@[simp] theorem byteAt_cons_zero (a : UInt8) (s : Bytes) : byteAt (a :: s) 0 = a := rfl

@[simp] theorem byteAt_cons_succ (a : UInt8) (s : Bytes) (k : Nat) : byteAt (a :: s) (k + 1) = byteAt s k := rfl

theorem eq_of_toNat {a b : UInt8} (h : a.toNat = b.toNat) : a = b := UInt8.toNat_inj.mp h

theorem removed_of_two {a b : UInt8} (v : c.toNat = (a.toNat - 0xC0) * 64 + (b.toNat - 0x80))
    (lead : 0xC2 ≤ a.toNat ∧ a.toNat < 0xE0) (second : Trail b) :
    Removed c ↔ a = 0xcc ∧ (b = 0xb3 ∨ b = 0xbf ∨ b = 0x8a) := by
  obtain ⟨hb1, hb2⟩ := second
  simp only [← UInt8.toNat_inj, UInt8.reduceToNat, Removed]
  omega

theorem removed_of_three {a b e : UInt8}
    (v : c.toNat = (a.toNat - 0xE0) * 4096 + (b.toNat - 0x80) * 64 + (e.toNat - 0x80))
    (lead : 0xE0 ≤ a.toNat ∧ a.toNat < 0xF0) (second : Trail b) (third : Trail e)
    (shortest : a.toNat = 0xE0 → 0xA0 ≤ b.toNat) :
    Removed c ↔ a = 0xe2 ∧ b = 0x80 ∧ 0xa8 ≤ e.toNat ∧ e.toNat ≤ 0xae := by
  obtain ⟨hb1, hb2⟩ := second
  obtain ⟨he1, he2⟩ := third
  simp only [← UInt8.toNat_inj, UInt8.reduceToNat, Removed]
  omega

variable {a : UInt8} {tail : Bytes} {b : UInt8} {fuel : Nat}

theorem isControl_of_le (h : 32 < a.toNat) : isControl a = false := by
  have hle : ¬ a.toNat ≤ 32 := by omega
  simp [isControl, hle]

theorem cleanInputSwitch_default (h : InPlace buf w r out (a :: rest)) (hcontrol : isControl a = false)
    (hcr : a ≠ 13) (hdirection : isDirectionAt buf buf.length r = false)
    (hvertical : isVerticalLineAt buf buf.length r = false) :
    cleanInputSwitch buf buf.length r w = (buf.set w a, r, w + 1) := by
  have hread : byteAt buf r = a := byteAt_read h 0
  simp [cleanInputSwitch, hread, hcontrol, hcr, hdirection, hvertical]

theorem ne_of_toNat (n : Nat) (hb : b.toNat = n) (h : a.toNat ≠ n) : a ≠ b := by
  rintro rfl
  exact h hb

section

variable {a : UInt8} (h : InPlace buf w r out (a :: rest))

include h

theorem isDirectionAt_of_ne (ha : a.toNat ≠ 0xe2) : isDirectionAt buf buf.length r = false := by
  have hread : byteAt buf r = a := byteAt_read h 0
  have hne : a ≠ 0xe2 := ne_of_toNat 0xe2 rfl ha
  simp [isDirectionAt, hread, hne]

theorem isVerticalLineAt_of_ne (ha : a.toNat ≠ 0xcc) : isVerticalLineAt buf buf.length r = false := by
  have hread : byteAt buf r = a := byteAt_read h 0
  have hne : a ≠ 0xcc := ne_of_toNat 0xcc rfl ha
  simp [isVerticalLineAt, hread, hne]

theorem cleanInputSwitch_other (ha : 32 < a.toNat) (hdirection : a.toNat ≠ 0xe2) (hvertical : a.toNat ≠ 0xcc) :
    cleanInputSwitch buf buf.length r w = (buf.set w a, r, w + 1) :=
  cleanInputSwitch_default h (isControl_of_le ha) (ne_of_toNat 13 rfl (by omega)) (isDirectionAt_of_ne h hdirection)
    (isVerticalLineAt_of_ne h hvertical)

end

theorem cleanChar_of_lt (h : 32 < c.toNat) (hr : ¬ Removed c) : cleanChar c = some c := by
  rw [cleanChar, if_neg (by omega), if_neg (not_or.mpr ⟨by omega, hr⟩)]

theorem cleanChar_removed (h : Removed c) : cleanChar c = none := by
  rw [cleanChar, if_neg (by unfold Removed at h; omega), if_pos (.inr h)]

/-- What the switch does at a character: it passes over one that is dropped, or
writes the first byte of what is written for it. -/
theorem cleanInputSwitch_char {lead : UInt8} (hlead : utf8EncodeChar c = lead :: tail)
    (h : InPlace buf w r out (lead :: tail ++ rest)) :
    (cleanChar c = none ∧ cleanInputSwitch buf buf.length r w = (buf, r + tail.length, w)) ∨
    ∃ d a, cleanChar c = some d ∧ utf8EncodeChar d = a :: tail ∧ ¬ Trail a ∧
      cleanInputSwitch buf buf.length r w = (buf.set w a, r, w + 1) := by
  have hspells := spells_utf8EncodeChar c
  rw [hlead] at hspells
  have hread : byteAt buf r = lead := byteAt_read h 0
  cases hspells with
  | one _ v range =>
    by_cases hcontrol : isControl lead = true
    · right
      have hc : c.toNat ≤ 32 ∧ c.toNat ≠ 10 ∧ c.toNat ≠ 13 := by
        simp only [isControl, Bool.and_eq_true, decide_eq_true_eq] at hcontrol
        omega
      refine ⟨' ', 0x20, by rw [cleanChar, if_pos hc], by decide, by decide, ?_⟩
      simp [cleanInputSwitch, hread, hcontrol]
    have hcontrol := Bool.not_eq_true _ ▸ hcontrol
    by_cases hcr : lead = 13
    · left
      have hc : c.toNat = 13 := by rw [v, hcr]; rfl
      refine ⟨by simp [cleanChar, hc], ?_⟩
      simp [cleanInputSwitch, hread, hcr, isControl]
    · right
      have hcr' : lead.toNat ≠ 13 := fun h => hcr (eq_of_toNat h)
      refine ⟨c, lead, ?_, hlead, fun ht => by have := ht.1; omega, cleanInputSwitch_default h hcontrol hcr
        (isDirectionAt_of_ne h (by omega)) (isVerticalLineAt_of_ne h (by omega))⟩
      simp only [isControl, Bool.and_eq_false_iff, decide_eq_false_iff_not, not_not] at hcontrol
      rw [cleanChar, if_neg (by omega), if_neg (by unfold Removed; omega)]
  | two _ b v range second =>
    have hcontrol := isControl_of_le (a := lead) (by omega)
    have hcr : lead ≠ 13 := ne_of_toNat 13 rfl (by omega)
    have hdirection := isDirectionAt_of_ne h (by omega)
    have hnext : byteAt buf (r + 1) = b := byteAt_read h 1
    have hlt : r + 1 < buf.length := by simp [h.length_eq]
    have hvertical : isVerticalLineAt buf buf.length r = decide (Removed c) := by
      rw [Bool.eq_iff_iff, decide_eq_true_iff, removed_of_two v range second]
      simp [isVerticalLineAt, hread, hnext, hlt, or_assoc]
    by_cases hremoved : Removed c
    · left
      refine ⟨cleanChar_removed hremoved, ?_⟩
      simp [cleanInputSwitch, hread, hcontrol, hcr, hdirection, hvertical, hremoved]
    · right
      refine ⟨c, lead, cleanChar_of_lt (by have := second.1; omega) hremoved, hlead,
        fun ht => by have := ht.2; omega, ?_⟩
      exact cleanInputSwitch_default h hcontrol hcr hdirection (by rw [hvertical]; simpa using hremoved)
  | three _ b e v range second third shortest scalar =>
    have hcontrol := isControl_of_le (a := lead) (by omega)
    have hcr : lead ≠ 13 := ne_of_toNat 13 rfl (by omega)
    have hvertical := isVerticalLineAt_of_ne h (by omega)
    have hnext : byteAt buf (r + 1) = b := byteAt_read h 1
    have hthird : byteAt buf (r + 2) = e := byteAt_read h 2
    have hlt : r + 2 < buf.length := by simp [h.length_eq]
    have hdirection : isDirectionAt buf buf.length r = decide (Removed c) := by
      rw [Bool.eq_iff_iff, decide_eq_true_iff, removed_of_three v range second third shortest]
      simp [isDirectionAt, hread, hnext, hthird, hlt, and_assoc]
    by_cases hremoved : Removed c
    · left
      refine ⟨cleanChar_removed hremoved, ?_⟩
      simp [cleanInputSwitch, hread, hcontrol, hcr, hdirection, hremoved]
    · right
      have hc : 32 < c.toNat := by
        omega
      refine ⟨c, lead, cleanChar_of_lt hc hremoved, hlead, fun ht => by have := ht.2; omega, ?_⟩
      exact cleanInputSwitch_default h hcontrol hcr (by rw [hdirection]; simpa using hremoved) hvertical
  | four _ b e f v range second third fourth shortest scalar =>
    right
    refine ⟨c, lead, cleanChar_of_lt (by omega) (by unfold Removed; omega), hlead,
      fun ht => by have := ht.2; omega, ?_⟩
    exact cleanInputSwitch_other h (by omega) (by omega) (by omega)

/-! ### The loop -/

theorem cleanInputSwitch_trail (hb : Trail b) (h : InPlace buf w r out (b :: rest)) :
    cleanInputSwitch buf buf.length r w = (buf.set w b, r, w + 1) := by
  obtain ⟨hb1, hb2⟩ := hb
  exact cleanInputSwitch_other h (by omega) (by omega) (by omega)

theorem byteAt_set_self {i : Nat} (h : i < buf.length) (b : UInt8) : byteAt (buf.set i b) i = b := by
  simp [byteAt, getD_eq_getElem?_getD, h]

theorem lt_length_of_inPlace (h : InPlace buf w r out (b :: rest)) : r < buf.length := by
  rw [h.length_eq]
  simp

/-- The bytes that go on with a character are written, and the cut is not made there. -/
theorem cleanInputLoop_trail (htail : ∀ b ∈ tail, Trail b) (fuel : Nat) (h : InPlace buf w r out (tail ++ rest)) :
    ∃ buf', InPlace buf' (w + tail.length) (r + tail.length) (out ++ tail) rest ∧ buf'.length = buf.length ∧
      cleanInputLoop buf.length (fuel + tail.length) buf r w =
        cleanInputLoop buf.length fuel buf' (r + tail.length) (w + tail.length) := by
  induction tail generalizing buf w r out with
  | nil => exact ⟨buf, by simpa using h, rfl, rfl⟩
  | cons b tail ih =>
    have hb := htail b (by simp)
    have hlt := lt_length_of_inPlace h
    obtain ⟨buf', hbuf', hlength, hloop⟩ := ih (fun d hd => htail d (mem_cons_of_mem b hd)) (h.move b)
    rw [List.length_set] at hlength hloop
    have hw : w < buf.length := by have := h.behind; omega
    refine ⟨buf', ?_, hlength, ?_⟩
    · grind
    · have hcut : ¬ (w + 1 ≥ lengthLimit - 3 ∧
          isUtf8CharacterFirstCodeUnit (byteAt (buf.set w b) (w + 1 - 1)) = true) := by
        rw [Nat.add_sub_cancel, byteAt_set_self hw, isFirst_trail hb]
        simp
      rw [length_cons, ← Nat.add_assoc, cleanInputLoop, if_pos hlt, cleanInputSwitch_trail hb h]
      dsimp only
      rw [if_neg hcut, hloop, show w + (tail.length + 1) = w + 1 + tail.length by omega,
        show r + (tail.length + 1) = r + 1 + tail.length by omega]

/-- No cut is due: the result is short, or ends inside a character as far as the
loop can tell. -/
def NotFull (buf : Bytes) (w : Nat) : Prop :=
  ¬ (w ≥ lengthLimit - 3 ∧ isUtf8CharacterFirstCodeUnit (byteAt buf (w - 1)) = true)

theorem notFull_of_tail (htail : ∀ b ∈ tail, Trail b)
    (h : InPlace buf (w + 1 + tail.length) r (out ++ [a] ++ tail) rest) (hw : out.length = w)
    (hlt : w + 1 < lengthLimit - 3) : NotFull buf (w + 1 + tail.length) := by
  rcases eq_nil_or_concat tail with rfl | ⟨init, b, rfl⟩
  · exact fun hfull => absurd hfull.1 (not_le.mpr hlt)
  · rw [concat_eq_append] at h htail ⊢
    rintro ⟨-, hfirst⟩
    have hindex : w + 1 + (init ++ [b]).length - 1 = (out ++ [a] ++ init).length := by
      simp only [length_append, length_singleton, hw]
      omega
    have hbyte : byteAt buf (w + 1 + (init ++ [b]).length - 1) = b := by
      rw [byteAt, h.getD_written (by simp), hindex, ← append_assoc, getD_eq_getElem?_getD,
        List.getElem?_concat_length]
      rfl
    rw [hbyte, isFirst_trail (htail b (by simp))] at hfirst
    cases hfirst

theorem cleanInputLoop_spec (cs : List Char) (hfuel : (encode cs).length ≤ fuel)
    (h : InPlace buf w r out (encode cs)) (hnotFull : NotFull buf w) :
    ∃ buf' w', cleanInputLoop buf.length fuel buf r w = (buf', w') ∧
      buf'.take w' = out ++ encode (cleanedFrom w cs) := by
  induction cs generalizing buf w r out fuel with
  | nil =>
    have hend : ¬ r < buf.length := by
      rw [h.length_eq]
      simp
    refine ⟨buf, w, ?_, by simpa [cleanedFrom] using h.written⟩
    cases fuel with
    | zero => rfl
    | succ fuel => rw [cleanInputLoop, if_neg hend]
  | cons c cs ih =>
    obtain ⟨lead, tail, hlead, -, htail⟩ := exists_lead c
    rw [encode_cons, hlead] at h hfuel
    rw [length_append, length_cons] at hfuel
    obtain ⟨fuel, rfl⟩ : ∃ n, fuel = n + 1 + tail.length := ⟨fuel - 1 - tail.length, by omega⟩
    rw [show fuel + 1 + tail.length = fuel + tail.length + 1 by omega, cleanInputLoop,
      if_pos (lt_length_of_inPlace h)]
    rcases cleanInputSwitch_char hlead h with ⟨hclean, hswitch⟩ | ⟨d, a, hclean, hd, hnot, hswitch⟩
    · -- The character is dropped: nothing is written, and the test of the last byte is the one made before.
      rw [hswitch]
      dsimp only
      have hskip : InPlace buf w (r + tail.length + 1) out (encode cs) := by
        have := h.skip
        rwa [length_cons, ← Nat.add_assoc] at this
      rw [if_neg hnotFull, cleanedFrom, hclean]
      exact ih (by omega) hskip hnotFull
    · rw [hswitch]
      have hw : w < buf.length := by
        have := h.behind
        have := lt_length_of_inPlace h
        omega
      rw [cleanedFrom, hclean]
      dsimp only
      rw [Nat.add_sub_cancel, byteAt_set_self hw, isFirst_lead hnot]
      by_cases hfull : lengthLimit - 3 ≤ w + 1
      · rw [if_pos ⟨hfull, rfl⟩, if_pos hfull]
        exact ⟨buf.set w a, w, rfl, by rw [take_set_of_le (le_refl _), h.written]; simp⟩
      · rw [if_neg fun hcut => hfull hcut.1, if_neg hfull]
        have hmove := h.move a
        obtain ⟨buf', hbuf', hlength, hloop⟩ := cleanInputLoop_trail htail fuel hmove
        rw [List.length_set] at hlength hloop
        rw [hloop, ← hlength]
        have hsize : w + (utf8EncodeChar d).length = w + 1 + tail.length := by
          rw [hd, length_cons]
          omega
        obtain ⟨buf'', w', hrun, htake⟩ :=
          ih (show (encode cs).length ≤ fuel by omega) hbuf'
          (notFull_of_tail htail hbuf' h.length_out (by omega))
        refine ⟨buf'', w', hrun, ?_⟩
        rw [htake, hsize, encode_cons, hd]
        simp

/-! ### Marks -/

theorem byteAt_append (p q : Bytes) (k : Nat) : byteAt (p ++ q) (p.length + k) = byteAt q k := by
  rw [byteAt, byteAt, getD_append_right _ _ _ _ (by omega), Nat.add_sub_cancel_left]

theorem isMarkAt_append (p q : Bytes) (k : Nat) : isMarkAt (p ++ q) (p.length + k) = isMarkAt q k := by
  simp [isMarkAt, Nat.add_assoc, byteAt_append]

theorem isMarkAt_of_ne (ha : a ≠ 0xe2) (s : Bytes) : isMarkAt (a :: s) 0 = false := by
  simp [isMarkAt, ha]

theorem isMarkAt_char (c : Char) (rest : Bytes) : isMarkAt (utf8EncodeChar c ++ rest) 0 = decide (Mark c) := by
  have hspells := spells_utf8EncodeChar c
  have hother : ∀ a tail, utf8EncodeChar c = a :: tail → a ≠ 0xe2 → ¬ Mark c →
      isMarkAt (utf8EncodeChar c ++ rest) 0 = decide (Mark c) := fun a tail hlead ha hmark => by
    rw [hlead, cons_append, isMarkAt_of_ne ha, decide_eq_false hmark]
  generalize hbs : utf8EncodeChar c = bs at hspells
  cases hspells with
  | one a v range =>
    rw [← hbs]
    exact hother a _ hbs (ne_of_toNat 0xe2 rfl (by omega)) (by unfold Mark; omega)
  | two a b v range second =>
    obtain ⟨hb1, hb2⟩ := second
    rw [← hbs]
    exact hother a _ hbs (ne_of_toNat 0xe2 rfl (by omega)) (by unfold Mark; omega)
  | three a b d v range second third shortest scalar =>
    obtain ⟨hb1, hb2⟩ := second
    obtain ⟨hd1, hd2⟩ := third
    have hmark : Mark c ↔ a = 0xe2 ∧ b = 0x80 ∧ (d = 0x8e ∨ d = 0x8f) := by
      simp only [← UInt8.toNat_inj, UInt8.reduceToNat, Mark]
      omega
    rw [Bool.eq_iff_iff, decide_eq_true_iff, hmark]
    simp [isMarkAt, and_assoc]
  | four a b d e v range second third fourth shortest scalar =>
    rw [← hbs]
    exact hother a _ hbs (ne_of_toNat 0xe2 rfl (by omega)) (by unfold Mark; omega)

theorem utf8EncodeChar_mark (h : Mark c) : ∃ b, utf8EncodeChar c = [0xe2, 0x80, b] := by
  rw [utf8EncodeChar_three (by unfold Mark at h; omega) (by unfold Mark at h; omega)]
  rcases h with h | h <;> simp [h]

theorem isMarkAt_encode_cons (c : Char) (cs : List Char) : isMarkAt (encode (c :: cs)) 0 = decide (Mark c) :=
  isMarkAt_char c (encode cs)

/-- A run of marks: all but the last become non-joiners. -/
theorem replaceMarkRun_spec (es : List Char) (hc : Mark c) (hfuel : es.length ≤ fuel) (ds : List Char) :
    ∃ js m fs, Mark m ∧ fs.length ≤ es.length ∧ (encode fs).length ≤ (encode es).length ∧
      replaceMarks (c :: es) = js ++ m :: replaceMarks fs ∧
      replaceMarkRun fuel (encode ds ++ encode (c :: es)) (encode ds).length =
        (encode (ds ++ js) ++ encode (m :: fs), (encode (ds ++ js)).length) := by
  obtain ⟨b, hb⟩ := utf8EncodeChar_mark hc
  induction es generalizing c b ds fuel with
  | nil =>
    refine ⟨[], c, [], hc, le_refl _, le_refl _, by simp [replaceMarks], ?_⟩
    have hnext : isMarkAt (encode ds ++ encode [c]) ((encode ds).length + 3) = false := by
      rw [isMarkAt_append, encode_cons, hb]
      rfl
    cases fuel with
    | zero => simp [replaceMarkRun]
    | succ fuel =>
      rw [replaceMarkRun, hnext, if_neg (by simp)]
      simp
  | cons d es ih =>
    obtain ⟨fuel, rfl⟩ : ∃ n, fuel = n + 1 := ⟨fuel - 1, by simp at hfuel; omega⟩
    have hnext : isMarkAt (encode ds ++ encode (c :: d :: es)) ((encode ds).length + 3) = decide (Mark d) := by
      rw [isMarkAt_append, encode_cons, hb, ← isMarkAt_encode_cons d es]
      exact isMarkAt_append [0xe2, 0x80, b] _ 0
    rw [replaceMarkRun, hnext]
    by_cases hd : Mark d
    · rw [if_pos (decide_eq_true hd)]
      have hset : (encode ds ++ encode (c :: d :: es)).set ((encode ds).length + 2) 0x8c =
          encode (ds ++ [nonJoiner]) ++ encode (d :: es) := by
        have hjoiner : utf8EncodeChar nonJoiner = [0xe2, 0x80, 0x8c] := by decide
        simp [encode_append, encode_cons c, encode_cons nonJoiner, hb, hjoiner, set_append_right]
      have hpos : (encode ds).length + 3 = (encode (ds ++ [nonJoiner])).length := by
        rw [encode_append, length_append]
        rfl
      obtain ⟨b', hb'⟩ := utf8EncodeChar_mark hd
      obtain ⟨js, m, fs, hm, hfs, hbytes, hmarks, hrun⟩ :=
        ih hd (show es.length ≤ fuel by simp at hfuel; omega) (ds ++ [nonJoiner]) b' hb'
      refine ⟨nonJoiner :: js, m, fs, hm, by simp; omega, ?_, ?_, ?_⟩
      · rw [encode_cons, length_append]
        omega
      · rw [replaceMarks, if_pos ⟨hc, hd⟩, hmarks, cons_append]
      · rw [hset, hpos, hrun]
        simp
    · rw [if_neg (by simpa using hd)]
      refine ⟨[], c, d :: es, hc, le_refl _, le_refl _, ?_, by simp⟩
      rw [replaceMarks, if_neg fun h => hd h.2, nil_append]

theorem replaceOffendingLoop_trail (htail : ∀ b ∈ tail, Trail b) (fuel : Nat) (p q : Bytes) :
    replaceOffendingLoop (fuel + tail.length) (p ++ (tail ++ q)) p.length =
      replaceOffendingLoop fuel (p ++ (tail ++ q)) (p.length + tail.length) := by
  induction tail generalizing p with
  | nil => rfl
  | cons b tail ih =>
    obtain ⟨hb1, hb2⟩ := htail b (by simp)
    have hmark : isMarkAt (p ++ (b :: tail ++ q)) p.length = false := by
      rw [← Nat.add_zero p.length, isMarkAt_append]
      exact isMarkAt_of_ne (ne_of_toNat 0xe2 rfl (by omega)) _
    have hrest := ih (fun d hd => htail d (mem_cons_of_mem b hd)) (p ++ [b])
    simp_all [length_cons, replaceOffendingLoop, Nat.add_assoc, Nat.add_comm 1]

theorem length_le_encode (cs : List Char) : cs.length ≤ (encode cs).length := by
  induction cs with
  | nil => simp
  | cons c cs ih =>
    have := c.utf8Size_pos
    rw [encode_cons, length_append, String.length_utf8EncodeChar, length_cons]
    omega

theorem replaceMarks_cons (h : ¬ Mark c) (es : List Char) : replaceMarks (c :: es) = c :: replaceMarks es := by
  cases es with
  | nil => rfl
  | cons d es => rw [replaceMarks, if_neg fun hm => h hm.1]

theorem replaceOffendingLoop_spec (es ds : List Char) (hfuel : (encode es).length ≤ fuel) :
    replaceOffendingLoop fuel (encode ds ++ encode es) (encode ds).length = encode ds ++ encode (replaceMarks es) := by
  induction hn : es.length using Nat.strong_induction_on generalizing es ds fuel with
  | _ n ih =>
    subst hn
    cases es with
    | nil =>
      cases fuel with
      | zero => rfl
      | succ fuel => simp [replaceOffendingLoop, replaceMarks]
    | cons c es =>
      obtain ⟨lead, tail, hlead, -, htail⟩ := exists_lead c
      have hsize : (encode (c :: es)).length = tail.length + 1 + (encode es).length := by
        rw [encode_cons, hlead, length_append, length_cons]
      obtain ⟨fuel, rfl⟩ : ∃ n, fuel = n + tail.length + 1 := ⟨fuel - 1 - tail.length, by omega⟩
      have hlt : (encode ds).length < (encode ds ++ encode (c :: es)).length := by
        rw [length_append]
        omega
      have hmark : isMarkAt (encode ds ++ encode (c :: es)) (encode ds).length = decide (Mark c) := by
        rw [← isMarkAt_encode_cons c es]
        exact isMarkAt_append (encode ds) _ 0
      rw [replaceOffendingLoop, if_pos hlt, hmark]
      by_cases hc : Mark c
      · obtain ⟨js, m, fs, hm, hfs, hbytes, hmarks, hrun⟩ := replaceMarkRun_spec es hc
          (show es.length ≤ (encode ds ++ encode (c :: es)).length by
            have := length_le_encode es
            rw [length_append]
            omega) ds
        obtain ⟨b, hb⟩ := utf8EncodeChar_mark hm
        have hpos : (encode (ds ++ js)).length + 3 = (encode (ds ++ js ++ [m])).length := by
          rw [encode_append (ds ++ js), length_append, encode_cons, hb]
          rfl
        have hrest := ih fs.length (by simp; omega) fs (ds ++ js ++ [m])
          (show (encode fs).length ≤ fuel + tail.length by omega) rfl
        simp_all
      · rw [if_neg (by simpa using hc), replaceMarks_cons hc]
        have hskip := replaceOffendingLoop_trail htail fuel (encode ds ++ [lead]) (encode es)
        have hrest := ih es.length (by simp) es (ds ++ [c]) (show (encode es).length ≤ fuel by omega) rfl
        simp_all [encode_cons, length_append, length_cons, length_nil, append_assoc,
          cons_append, nil_append, Nat.add_assoc, Nat.add_comm 1 tail.length]

theorem replaceOffendingCharacters_encode (cs : List Char) :
    replaceOffendingCharacters (encode cs) = encode (replaceMarks cs) :=
  replaceOffendingLoop_spec cs [] (le_refl _)

/-! ## What is left -/

/-- A text the loop keeps as it is, after `size` bytes. -/
def Settled (size : Nat) : List Char → Prop
  | [] => True
  | c :: cs => cleanChar c = some c ∧ size + 1 < lengthLimit - 3 ∧ Settled (size + (utf8EncodeChar c).length) cs

theorem cleanChar_cleanChar (h : cleanChar c = some d) : cleanChar d = some d := by
  by_cases h1 : c.toNat ≤ 32 ∧ c.toNat ≠ 10 ∧ c.toNat ≠ 13
  · rw [cleanChar, if_pos h1, Option.some.injEq] at h
    subst h
    rfl
  · have hd : c = d := by
      rw [cleanChar, if_neg h1] at h
      split at h
      · cases h
      · exact Option.some.inj h
    exact hd ▸ h

theorem settled_cleanedFrom (size : Nat) (cs : List Char) : Settled size (cleanedFrom size cs) := by
  fun_induction cleanedFrom size cs with
  | case1 | case3 => trivial
  | case2 _ _ _ _ ih => exact ih
  | case4 size c cs d hd hsize ih => exact ⟨cleanChar_cleanChar hd, by omega, ih⟩

section

variable {size : Nat} (h : Settled size cs)

include h

theorem Settled.cleanedFrom_eq : cleanedFrom size cs = cs := by
  induction cs generalizing size with
  | nil => rfl
  | cons c cs ih =>
    obtain ⟨hc, hsize, hcs⟩ := h
    rw [cleanedFrom, hc]
    dsimp only
    rw [if_neg (by omega), ih hcs]

theorem Settled.cleanChar_eq (hc : c ∈ cs) : cleanChar c = some c := by
  induction cs generalizing size with
  | nil => cases hc
  | cons d cs ih =>
    rcases mem_cons.mp hc with rfl | hc
    · exact h.1
    · exact ih h.2.2 hc

theorem Settled.length_le (hsize : size ≤ lengthLimit) : size + (encode cs).length ≤ lengthLimit := by
  induction cs generalizing size with
  | nil => simpa using hsize
  | cons c cs ih =>
    obtain ⟨-, hlt, hcs⟩ := h
    have hfour := c.utf8Size_le_four
    rw [← String.length_utf8EncodeChar] at hfour
    have := ih hcs (by omega)
    rw [encode_cons, length_append]
    omega

theorem Settled.replaceMarks : Settled size (replaceMarks cs) := by
  fun_induction Text.replaceMarks cs generalizing size with
  | case1 c d cs ih =>
    obtain ⟨hc, hsize, hcs⟩ := h
    by_cases hmark : Mark c ∧ Mark d
    · obtain ⟨b, hb⟩ := utf8EncodeChar_mark hmark.1
      have hjoiner : (utf8EncodeChar nonJoiner).length = (utf8EncodeChar c).length := by
        rw [hb]
        rfl
      rw [if_pos hmark]
      exact ⟨by decide, hsize, hjoiner ▸ ih hcs⟩
    · rw [if_neg hmark]
      exact ⟨hc, hsize, ih hcs⟩
  | case2 cs _ => exact h

end

/-- No mark stands before a mark. -/
def NoMarkPairs (cs : List Char) : Prop := ∀ ds a b es, cs = ds ++ a :: b :: es → ¬ (Mark a ∧ Mark b)

theorem NoMarkPairs.of_cons (h : NoMarkPairs (c :: cs)) : NoMarkPairs cs :=
  fun ds a b es hcs => h (c :: ds) a b es (congrArg (c :: ·) hcs)

theorem NoMarkPairs.replaceMarks_eq (h : NoMarkPairs cs) : replaceMarks cs = cs := by
  fun_induction replaceMarks cs with
  | case1 c d cs ih => rw [if_neg (h [] c d cs rfl), ih h.of_cons]
  | case2 => rfl

theorem not_mark_nonJoiner : ¬ Mark nonJoiner := by decide

theorem noMarkPairs_replaceMarks (cs : List Char) : NoMarkPairs (replaceMarks cs) := by
  fun_induction replaceMarks cs with
  | case1 c d cs ih =>
    intro ds a b es hcs
    cases ds with
    | cons e ds =>
      obtain ⟨-, hcs⟩ := List.cons.inj hcs
      exact ih ds a b es hcs
    | nil =>
      obtain ⟨rfl, htail⟩ := List.cons.inj hcs
      rintro ⟨ha, hb⟩
      by_cases hmark : Mark c ∧ Mark d
      · rw [if_pos hmark] at ha
        exact not_mark_nonJoiner ha
      · rw [if_neg hmark] at ha
        -- What follows `c` is `d`, or the non-joiner written for it; neither is a mark.
        cases cs with
        | nil =>
          obtain ⟨rfl, -⟩ := List.cons.inj htail
          exact hmark ⟨ha, hb⟩
        | cons e cs =>
          obtain ⟨rfl, -⟩ := List.cons.inj htail
          split at hb
          · exact not_mark_nonJoiner hb
          · exact hmark ⟨ha, hb⟩
  | case2 cs hshort =>
    rintro ds a b es rfl
    match ds with
    | [] => exact (hshort a b es rfl).elim
    | [e] => exact (hshort e a (b :: es) rfl).elim
    | e :: f :: ds => exact (hshort e f (ds ++ a :: b :: es) rfl).elim

theorem cleanInputString_encode (cs : List Char) :
    cleanInputString (encode cs) = (true, encode (replaceMarks (cleanedFrom 0 cs))) := by
  obtain ⟨buf, w, hloop, htake⟩ := cleanInputLoop_spec cs (le_refl _) (InPlace.start (encode cs))
    (fun h => absurd h.1 (by decide))
  simp [cleanInputString, (checkUtf8_encode cs), hloop, htake, nil_append, replaceOffendingCharacters_encode]

theorem exists_mem_of_mem_encode (h : b ∈ encode cs) : ∃ c ∈ cs, b ∈ utf8EncodeChar c :=
  mem_flatMap.mp h

theorem toNat_of_mem (h : b ∈ utf8EncodeChar c) (hb : b.toNat < 0x80) : c.toNat = b.toNat := by
  have hspells := spells_utf8EncodeChar c
  generalize utf8EncodeChar c = bs at h hspells
  cases hspells with
  | one a v range =>
    obtain rfl := mem_singleton.mp h
    exact v
  | two a b' v range second =>
    have := second.1
    simp only [mem_cons, not_mem_nil, or_false] at h
    rcases h with rfl | rfl <;> omega
  | three a b' d v range second third shortest scalar =>
    have := second.1
    have := third.1
    simp only [mem_cons, not_mem_nil, or_false] at h
    rcases h with rfl | rfl | rfl <;> omega
  | four a b' d e v range second third fourth shortest scalar =>
    have := second.1
    have := third.1
    have := fourth.1
    simp only [mem_cons, not_mem_nil, or_false] at h
    rcases h with rfl | rfl | rfl | rfl <;> omega

theorem cleanChar_eq_self (h : cleanChar c = some c) : (32 ≤ c.toNat ∨ c.toNat = 10) ∧ ¬ Removed c := by
  by_cases h1 : c.toNat ≤ 32 ∧ c.toNat ≠ 10 ∧ c.toNat ≠ 13
  · rw [cleanChar, if_pos h1, Option.some.injEq] at h
    subst h
    decide
  · by_cases h2 : c.toNat = 13 ∨ Removed c
    · rw [cleanChar, if_neg h1, if_pos h2] at h
      cases h
    · exact ⟨by omega, fun h => h2 (.inr h)⟩

/-- `clean_input_string` refuses what is not valid UTF-8. What it leaves of a valid
string is valid and short, has no control character but line feeds, none of
the dropped characters and no two marks in a row, and is left as it is by a
second call. -/
theorem cleanInputString_spec (str : Bytes) : ((cleanInputString str).1 = false ↔ checkUtf8 str = false) ∧
    (checkUtf8 str = true → ∃ cs, (cleanInputString str).2 = encode cs ∧
      checkUtf8 (cleanInputString str).2 = true ∧ (cleanInputString str).2.length ≤ 35000 ∧
      (∀ b ∈ (cleanInputString str).2, b.toNat < 32 → b.toNat = 10) ∧ (∀ c ∈ cs, ¬ Removed c) ∧
      NoMarkPairs cs ∧ cleanInputString (cleanInputString str).2 = (true, (cleanInputString str).2)) := by
  constructor
  · by_cases hvalid : checkUtf8 str = true
    · simp [cleanInputString, hvalid]
    · simp [cleanInputString, hvalid]
  · intro hvalid
    obtain ⟨cs, rfl⟩ := checkUtf8_iff.mp hvalid
    rw [cleanInputString_encode]
    have hsettled := (settled_cleanedFrom 0 cs).replaceMarks
    have hpairs := noMarkPairs_replaceMarks (cleanedFrom 0 cs)
    generalize replaceMarks (cleanedFrom 0 cs) = ds at hsettled hpairs
    refine ⟨ds, rfl, checkUtf8_encode ds, ?_, ?_, ?_, hpairs, ?_⟩
    · have hlength := hsettled.length_le (Nat.zero_le _)
      rwa [Nat.zero_add] at hlength
    · intro b hb hlt
      obtain ⟨c, hc, hbc⟩ := exists_mem_of_mem_encode hb
      have hclean := cleanChar_eq_self (hsettled.cleanChar_eq hc)
      have := toNat_of_mem hbc (by omega)
      omega
    · exact fun c hc => (cleanChar_eq_self (hsettled.cleanChar_eq hc)).2
    · rw [cleanInputString_encode, hsettled.cleanedFrom_eq, hpairs.replaceMarks_eq]

end Tdlib.Text
