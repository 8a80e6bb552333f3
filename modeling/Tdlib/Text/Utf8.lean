/-
The UTF-8 functions (`tdutils/td/utils/utf8.h`, `utf8.cpp`). Strings are zero
terminated: a read past the last byte reads a zero.

`checkUtf8` accepts the UTF-8 forms of texts and nothing else. On such a string
the functions that walk over bytes are functions of the text.
-/
import Tdlib.Lib.Outcome
import Tdlib.Lib.Utf8

namespace Tdlib.Text

open Utf8 List

/-! ## Model -/

def isUtf8CharacterFirstCodeUnit (c : UInt8) : Bool := c.toNat &&& 0xC0 ≠ 0x80

/-- `check_utf8`. The terminating zero ends the run when it stands where a
character may begin, and fails the test of a byte that should go on with one. -/
def checkUtf8 : Bytes → Bool
  | [] => true
  | a :: rest =>
    if a.toNat &&& 0x80 = 0 then checkUtf8 rest
    else if a.toNat &&& 0x40 = 0 then false
    else match rest with
      | [] => false
      | b :: rest =>
        if b.toNat &&& 0xc0 ≠ 0x80 then false
        else if a.toNat &&& 0x20 = 0 then
          if a.toNat &&& 0x1e > 0 then checkUtf8 rest else false
        else match rest with
          | [] => false
          | c :: rest =>
            if c.toNat &&& 0xc0 ≠ 0x80 then false
            else if a.toNat &&& 0x10 = 0 then
              let x := ((a.toNat &&& 0x0f) <<< 6) ||| (b.toNat &&& 0x20)
              -- surrogates
              if x ≠ 0 ∧ x ≠ 0x360 then checkUtf8 rest else false
            else match rest with
              | [] => false
              | d :: rest =>
                if d.toNat &&& 0xc0 ≠ 0x80 then false
                else if a.toNat &&& 0x08 = 0 then
                  let t := ((a.toNat &&& 0x07) <<< 6) ||| (b.toNat &&& 0x30)
                  -- end of unicode
                  if 0 < t ∧ t < 0x110 then checkUtf8 rest else false
                else false

def utf8Length (str : Bytes) : Nat := (str.map fun c => (isUtf8CharacterFirstCodeUnit c).toNat).sum

def utf8Utf16Length (str : Bytes) : Nat :=
  (str.map fun c => (isUtf8CharacterFirstCodeUnit c).toNat + (decide (c.toNat &&& 0xf8 = 0xf0)).toNat).sum

/-- `append_utf8_character`, and what `append_utf8_character_unsafe` writes. -/
def appendUtf8Character (str : Bytes) (code : Nat) : Bytes :=
  if code ≤ 0x7f then str ++ [UInt8.ofNat code]
  else if code ≤ 0x7ff then
    str ++ [UInt8.ofNat (0xc0 ||| (code >>> 6)), UInt8.ofNat (0x80 ||| (code &&& 0x3f))]
  else if code ≤ 0xffff then
    str ++ [UInt8.ofNat (0xe0 ||| (code >>> 12)), UInt8.ofNat (0x80 ||| ((code >>> 6) &&& 0x3f)),
      UInt8.ofNat (0x80 ||| (code &&& 0x3f))]
  else
    str ++ [UInt8.ofNat (0xf0 ||| (code >>> 18)), UInt8.ofNat (0x80 ||| ((code >>> 12) &&& 0x3f)),
      UInt8.ofNat (0x80 ||| ((code >>> 6) &&& 0x3f)), UInt8.ofNat (0x80 ||| (code &&& 0x3f))]

/-- `next_utf8_unsafe`: the code of the first character, and what follows it. -/
def nextUtf8Unsafe (ptr : Bytes) : Outcome (Nat × Bytes) :=
  let unit (i : Nat) := (ptr.getD i 0).toNat
  let a := unit 0
  if a &&& 0x80 = 0 then .ok (a, ptr.drop 1)
  else if a &&& 0x20 = 0 then .ok (((a &&& 0x1f) <<< 6) ||| (unit 1 &&& 0x3f), ptr.drop 2)
  else if a &&& 0x10 = 0 then
    .ok (((a &&& 0x0f) <<< 12) ||| ((unit 1 &&& 0x3f) <<< 6) ||| (unit 2 &&& 0x3f), ptr.drop 3)
  else if a &&& 0x08 = 0 then
    .ok (((a &&& 0x07) <<< 18) ||| ((unit 1 &&& 0x3f) <<< 12) ||| ((unit 2 &&& 0x3f) <<< 6) |||
      (unit 3 &&& 0x3f), ptr.drop 4)
  else .fatal

/-- The loop of `utf8_to_lower` and its like over `next_utf8_unsafe`, `fuel` bytes
at most: the codes it meets. -/
def utf8CodesLoop : Nat → Bytes → Outcome (List Nat)
  | _, [] => .ok []
  | 0, _ :: _ => .fatal
  | fuel + 1, c :: pos => do
    let (code, pos) ← nextUtf8Unsafe (c :: pos)
    let codes ← utf8CodesLoop fuel pos
    pure (code :: codes)

def utf8Codes (str : Bytes) : Outcome (List Nat) := utf8CodesLoop str.length str

/-! ## Bytes and their masks -/

theorem lead_masks : ∀ a < 256, (a &&& 0x80 = 0 ↔ a < 0x80) ∧
    (¬ a &&& 0x80 = 0 ∧ ¬ a &&& 0x40 = 0 ∧ a &&& 0x20 = 0 ↔ 0xC0 ≤ a ∧ a < 0xE0) ∧
    (¬ a &&& 0x80 = 0 ∧ ¬ a &&& 0x40 = 0 ∧ ¬ a &&& 0x20 = 0 ∧ a &&& 0x10 = 0 ↔ 0xE0 ≤ a ∧ a < 0xF0) ∧
    (¬ a &&& 0x80 = 0 ∧ ¬ a &&& 0x40 = 0 ∧ ¬ a &&& 0x20 = 0 ∧ ¬ a &&& 0x10 = 0 ∧ a &&& 0x08 = 0 ↔
      0xF0 ≤ a ∧ a < 0xF8) := by
  decide +kernel

theorem lead_values : ∀ a < 256, (0xC0 ≤ a → a < 0xE0 → a &&& 0x1f = a - 0xC0 ∧ (a &&& 0x1e > 0 ↔ 0xC2 ≤ a)) ∧
    (0xE0 ≤ a → a < 0xF0 → a &&& 0x0f = a - 0xE0) ∧ (0xF0 ≤ a → a < 0xF8 → a &&& 0x07 = a - 0xF0) ∧
    (a &&& 0xf8 = 0xf0 ↔ 0xF0 ≤ a ∧ a < 0xF8) := by
  decide +kernel

theorem trail_masks : ∀ b < 256, (b &&& 0xc0 = 0x80 ↔ 0x80 ≤ b ∧ b < 0xC0) ∧
    (0x80 ≤ b → b < 0xC0 → b &&& 0x3f = b - 0x80 ∧ b &&& 0x20 = (b - 0x80) / 32 * 32 ∧
      b &&& 0x30 = (b - 0x80) / 16 * 16) := by
  decide +kernel

theorem mask_trail_iff (b : UInt8) : b.toNat &&& 0xc0 = 0x80 ↔ Trail b := (trail_masks _ b.toNat_lt).1

theorem isFirst_iff (b : UInt8) : isUtf8CharacterFirstCodeUnit b = true ↔ ¬ Trail b := by
  rw [isUtf8CharacterFirstCodeUnit, decide_eq_true_eq, ne_eq, mask_trail_iff]

theorem shiftLeft_or {n m k : Nat} (h : m < 2 ^ k) : n <<< k ||| m = n * 2 ^ k + m := by
  rw [← Nat.shiftLeft_add_eq_or_of_lt h, Nat.shiftLeft_eq]

theorem surrogateBits_eq {a b : UInt8} (lo : 0xE0 ≤ a.toNat) (hi : a.toNat < 0xF0) (hb : Trail b) :
    ((a.toNat &&& 0x0f) <<< 6) ||| (b.toNat &&& 0x20) = (a.toNat - 0xE0) * 64 + (b.toNat - 0x80) / 32 * 32 := by
  obtain ⟨hb1, hb2⟩ := hb
  rw [(lead_values _ a.toNat_lt).2.1 lo hi, ((trail_masks _ b.toNat_lt).2 hb1 hb2).2.1,
    shiftLeft_or (by omega)]
  rfl

theorem planeBits_eq {a b : UInt8} (lo : 0xF0 ≤ a.toNat) (hi : a.toNat < 0xF8) (hb : Trail b) :
    ((a.toNat &&& 0x07) <<< 6) ||| (b.toNat &&& 0x30) = (a.toNat - 0xF0) * 64 + (b.toNat - 0x80) / 16 * 16 := by
  obtain ⟨hb1, hb2⟩ := hb
  rw [(lead_values _ a.toNat_lt).2.2.1 lo hi, ((trail_masks _ b.toNat_lt).2 hb1 hb2).2.2,
    shiftLeft_or (by omega)]
  rfl

/-! ## One character -/

variable {c : Char} {bs rest : Bytes}

theorem checkUtf8_spells (h : Spells c bs) : checkUtf8 (bs ++ rest) = checkUtf8 rest := by
  cases h with
  | one a v lead =>
    have hmask := (lead_masks _ a.toNat_lt).1.mpr lead
    rw [singleton_append, checkUtf8.eq_def]
    simp [hmask]
  | two a b v lead second =>
    obtain ⟨h1, h2, h3⟩ := (lead_masks _ a.toNat_lt).2.1.mpr (by omega)
    have h4 : a.toNat &&& 0x1e > 0 := ((lead_values _ a.toNat_lt).1 (by omega) (by omega)).2.mpr lead.1
    have hb := (mask_trail_iff b).mpr second
    rw [cons_append, checkUtf8.eq_def]
    simp [h1, h2, h3, h4, hb, ne_eq]
  | three a b d v lead second third shortest scalar =>
    obtain ⟨h1, h2, h3, h4⟩ := (lead_masks _ a.toNat_lt).2.2.1.mpr lead
    have hb := (mask_trail_iff b).mpr second
    have hd := (mask_trail_iff d).mpr third
    have hx := surrogateBits_eq lead.1 lead.2 second
    have hx' : (a.toNat - 0xE0) * 64 + (b.toNat - 0x80) / 32 * 32 ≠ 0 ∧
        (a.toNat - 0xE0) * 64 + (b.toNat - 0x80) / 32 * 32 ≠ 0x360 := by
      obtain ⟨hb1, hb2⟩ := second
      omega
    rw [cons_append, checkUtf8.eq_def]
    simp only [h1, h2, h3, h4, hb, hd, hx, hx', cons_append, nil_append, ne_eq, not_true,
      not_false_eq_true, and_self, if_true, if_false]
  | four a b d e v lead second third fourth shortest scalar =>
    obtain ⟨h1, h2, h3, h4, h5⟩ := (lead_masks _ a.toNat_lt).2.2.2.mpr (by omega)
    have hb := (mask_trail_iff b).mpr second
    have hd := (mask_trail_iff d).mpr third
    have he := (mask_trail_iff e).mpr fourth
    have ht := planeBits_eq lead.1 (by omega) second
    have ht' : 0 < (a.toNat - 0xF0) * 64 + (b.toNat - 0x80) / 16 * 16 ∧
        (a.toNat - 0xF0) * 64 + (b.toNat - 0x80) / 16 * 16 < 0x110 := by
      obtain ⟨hb1, hb2⟩ := second
      omega
    rw [cons_append, checkUtf8.eq_def]
    simp [h1, h2, h3, h4, h5, hb, hd, he, ht, ht', nil_append, ne_eq, and_self]

theorem exists_encode_append (h : Spells c bs) {cs : List Char} (hrest : rest = encode cs) :
    ∃ ds, bs ++ rest = encode ds :=
  ⟨c :: cs, by rw [encode_cons, h.eq_utf8EncodeChar, hrest]⟩

theorem exists_encode_of_checkUtf8 {s : Bytes} (h : checkUtf8 s = true) : ∃ cs, s = encode cs := by
  fun_induction checkUtf8 s with
  | case1 => exact ⟨[], rfl⟩
  | case2 a rest h1 ih =>
    have ha := (lead_masks _ a.toNat_lt).1.mp h1
    obtain ⟨c, hc⟩ := exists_char (.inl (by omega : a.toNat < 0xD800))
    obtain ⟨cs, hrest⟩ := ih h
    exact exists_encode_append (.one a hc ha) hrest
  | case6 a h1 h2 b rest hb h3 h4 ih =>
    obtain ⟨ha1, ha2⟩ := (lead_masks _ a.toNat_lt).2.1.mp ⟨h1, h2, h3⟩
    have ha3 := ((lead_values _ a.toNat_lt).1 ha1 ha2).2.mp h4
    have hb := (mask_trail_iff b).mp (not_not.mp hb)
    obtain ⟨c, hc⟩ := exists_char (v := (a.toNat - 0xC0) * 64 + (b.toNat - 0x80))
      (.inl (by have := hb.2; omega))
    obtain ⟨cs, hrest⟩ := ih h
    exact exists_encode_append (.two a b hc ⟨ha3, ha2⟩ hb) hrest
  | case10 a h1 h2 b hb h3 d rest hd h4 x hx ih =>
    obtain ⟨ha2, ha3⟩ := (lead_masks _ a.toNat_lt).2.2.1.mp ⟨h1, h2, h3, h4⟩
    have hb := (mask_trail_iff b).mp (not_not.mp hb)
    have hd := (mask_trail_iff d).mp (not_not.mp hd)
    have hxv : x = _ := surrogateBits_eq ha2 ha3 hb
    have hbounds : (a.toNat = 0xE0 → 0xA0 ≤ b.toNat) ∧ (a.toNat = 0xED → b.toNat < 0xA0) := by
      obtain ⟨hb1, hb2⟩ := hb
      omega
    obtain ⟨c, hc⟩ := exists_char (v := (a.toNat - 0xE0) * 4096 + (b.toNat - 0x80) * 64 + (d.toNat - 0x80))
      (by obtain ⟨hb1, hb2⟩ := hb; obtain ⟨hd1, hd2⟩ := hd; omega)
    obtain ⟨cs, hrest⟩ := ih h
    exact exists_encode_append (.three a b d hc ⟨ha2, ha3⟩ hb hd hbounds.1 hbounds.2) hrest
  | case14 a h1 h2 b hb h3 d hd h4 e rest he h5 t ht ih =>
    obtain ⟨ha3, ha4⟩ := (lead_masks _ a.toNat_lt).2.2.2.mp ⟨h1, h2, h3, h4, h5⟩
    have hb := (mask_trail_iff b).mp (not_not.mp hb)
    have hd := (mask_trail_iff d).mp (not_not.mp hd)
    have he := (mask_trail_iff e).mp (not_not.mp he)
    have htv : t = _ := planeBits_eq ha3 ha4 hb
    have hbounds : a.toNat < 0xF5 ∧ (a.toNat = 0xF0 → 0x90 ≤ b.toNat) ∧ (a.toNat = 0xF4 → b.toNat < 0x90) := by
      obtain ⟨hb1, hb2⟩ := hb
      omega
    obtain ⟨c, hc⟩ := exists_char
      (v := (a.toNat - 0xF0) * 262144 + (b.toNat - 0x80) * 4096 + (d.toNat - 0x80) * 64 + (e.toNat - 0x80))
      (by obtain ⟨hb1, hb2⟩ := hb; obtain ⟨hd1, hd2⟩ := hd; obtain ⟨he1, he2⟩ := he; omega)
    obtain ⟨cs, hrest⟩ := ih h
    exact exists_encode_append (.four a b d e hc ⟨ha3, hbounds.1⟩ hb hd he hbounds.2.1 hbounds.2.2) hrest
  | _ => cases h

theorem checkUtf8_encode (cs : List Char) : checkUtf8 (encode cs) = true := by
  induction cs with
  | nil => rfl
  | cons c cs ih => rw [encode_cons, checkUtf8_spells (spells_utf8EncodeChar c), ih]

/-- The strings `check_utf8` accepts are the UTF-8 forms of texts. -/
theorem checkUtf8_iff {s : Bytes} : checkUtf8 s = true ↔ ∃ cs, s = encode cs :=
  ⟨exists_encode_of_checkUtf8, fun ⟨cs, hs⟩ => hs ▸ checkUtf8_encode cs⟩

/-! ## Codes -/

theorem mask_six (n : Nat) : n &&& 0x3f = n % 64 := Nat.and_two_pow_sub_one_eq_mod n 6

theorem trail_or {n : Nat} (h : n < 64) : 0x80 ||| n = 0x80 + n := (Nat.two_pow_add_eq_or_of_lt (i := 6) h 2).symm

theorem appendUtf8Character_toNat (str : Bytes) (c : Char) :
    appendUtf8Character str c.toNat = str ++ String.utf8EncodeChar c := by
  have hc := toNat_ranges c
  unfold appendUtf8Character
  by_cases h1 : c.toNat ≤ 0x7f
  · rw [if_pos h1, utf8EncodeChar_one (by omega)]
  rw [if_neg h1]
  simp only [mask_six, Nat.shiftRight_eq_div_pow, trail_or (Nat.mod_lt _ (by decide : 0 < 64))]
  by_cases h2 : c.toNat ≤ 0x7ff
  · rw [if_pos h2, utf8EncodeChar_two (by omega) (by omega),
      ← Nat.two_pow_add_eq_or_of_lt (i := 5) (by omega) 6]
  rw [if_neg h2]
  by_cases h3 : c.toNat ≤ 0xffff
  · rw [if_pos h3, utf8EncodeChar_three (by omega) (by omega),
      ← Nat.two_pow_add_eq_or_of_lt (i := 4) (by omega) 14]
  · rw [if_neg h3, utf8EncodeChar_four (by omega), ← Nat.two_pow_add_eq_or_of_lt (i := 3) (by omega) 30]

theorem foldl_appendUtf8Character (str : Bytes) (cs : List Char) :
    (cs.map Char.toNat).foldl appendUtf8Character str = str ++ encode cs := by
  induction cs generalizing str with
  | nil => simp
  | cons c cs ih =>
    rw [map_cons, foldl_cons, appendUtf8Character_toNat, ih, encode_cons, append_assoc]

theorem shiftLeft_or_shiftLeft {n m j k : Nat} (h : m < 2 ^ j) : n <<< (j + k) ||| m <<< k = (n * 2 ^ j + m) <<< k := by
  rw [Nat.shiftLeft_add, ← Nat.shiftLeft_or_distrib, shiftLeft_or h]

/-! ### The code out of the bytes -/

section Codes

variable {a b d e : UInt8}

theorem code_two (lead : 0xC2 ≤ a.toNat ∧ a.toNat < 0xE0) (second : Trail b) :
    (a.toNat &&& 0x1f) <<< 6 ||| (b.toNat &&& 0x3f) = (a.toNat - 0xC0) * 64 + (b.toNat - 0x80) := by
  obtain ⟨hb1, hb2⟩ := second
  rw [((lead_values _ a.toNat_lt).1 (by omega) (by omega)).1, ((trail_masks _ b.toNat_lt).2 hb1 hb2).1,
    shiftLeft_or (by omega)]
  rfl

theorem code_three (lead : 0xE0 ≤ a.toNat ∧ a.toNat < 0xF0) (second : Trail b) (third : Trail d) :
    (a.toNat &&& 0x0f) <<< 12 ||| (b.toNat &&& 0x3f) <<< 6 ||| (d.toNat &&& 0x3f) =
      (a.toNat - 0xE0) * 4096 + (b.toNat - 0x80) * 64 + (d.toNat - 0x80) := by
  obtain ⟨hb1, hb2⟩ := second
  obtain ⟨hd1, hd2⟩ := third
  rw [(lead_values _ a.toNat_lt).2.1 lead.1 lead.2, ((trail_masks _ b.toNat_lt).2 hb1 hb2).1,
    ((trail_masks _ d.toNat_lt).2 hd1 hd2).1, shiftLeft_or_shiftLeft (j := 6) (k := 6) (by omega),
    shiftLeft_or (by omega)]
  omega

theorem code_four (lead : 0xF0 ≤ a.toNat ∧ a.toNat < 0xF5) (second : Trail b) (third : Trail d) (fourth : Trail e) :
    (a.toNat &&& 0x07) <<< 18 ||| (b.toNat &&& 0x3f) <<< 12 ||| (d.toNat &&& 0x3f) <<< 6 ||| (e.toNat &&& 0x3f) =
      (a.toNat - 0xF0) * 262144 + (b.toNat - 0x80) * 4096 + (d.toNat - 0x80) * 64 + (e.toNat - 0x80) := by
  obtain ⟨hb1, hb2⟩ := second
  obtain ⟨hd1, hd2⟩ := third
  obtain ⟨he1, he2⟩ := fourth
  rw [(lead_values _ a.toNat_lt).2.2.1 lead.1 (by omega), ((trail_masks _ b.toNat_lt).2 hb1 hb2).1,
    ((trail_masks _ d.toNat_lt).2 hd1 hd2).1, ((trail_masks _ e.toNat_lt).2 he1 he2).1,
    shiftLeft_or_shiftLeft (j := 6) (k := 12) (by omega), shiftLeft_or_shiftLeft (j := 6) (k := 6) (by omega),
    shiftLeft_or (by omega)]
  omega

end Codes

theorem nextUtf8Unsafe_spells (h : Spells c bs) : nextUtf8Unsafe (bs ++ rest) = .ok (c.toNat, rest) := by
  cases h with
  | one a v lead =>
    have h1 := (lead_masks _ a.toNat_lt).1.mpr lead
    simp [nextUtf8Unsafe, h1, v]
  | two a b v lead second =>
    obtain ⟨h1, -, h2⟩ := (lead_masks _ a.toNat_lt).2.1.mpr (by omega)
    simp [nextUtf8Unsafe, h1, h2, code_two lead second, v]
  | three a b d v lead second third shortest scalar =>
    obtain ⟨h1, -, h2, h3⟩ := (lead_masks _ a.toNat_lt).2.2.1.mpr lead
    simp [nextUtf8Unsafe, h1, h2, h3, code_three lead second third, v]
  | four a b d e v lead second third fourth shortest scalar =>
    obtain ⟨h1, -, h2, h3, h4⟩ := (lead_masks _ a.toNat_lt).2.2.2.mpr (by omega)
    simp [nextUtf8Unsafe, h1, h2, h3, h4, code_four lead second third fourth, v]

theorem utf8CodesLoop_encode (cs : List Char) {fuel : Nat} (hfuel : (encode cs).length ≤ fuel) :
    utf8CodesLoop fuel (encode cs) = .ok (cs.map Char.toNat) := by
  induction cs generalizing fuel with
  | nil => cases fuel <;> rfl
  | cons c cs ih =>
    rw [encode_cons, length_append, String.length_utf8EncodeChar] at hfuel
    have hsize := c.utf8Size_pos
    obtain ⟨fuel, rfl⟩ : ∃ n, fuel = n + 1 := ⟨fuel - 1, by omega⟩
    obtain ⟨a, tail, hlead, -⟩ := exists_lead c
    have hnext : nextUtf8Unsafe (String.utf8EncodeChar c ++ encode cs) = .ok (c.toNat, encode cs) :=
      nextUtf8Unsafe_spells (spells_utf8EncodeChar c)
    rw [hlead, cons_append] at hnext
    rw [encode_cons, hlead, cons_append, utf8CodesLoop, hnext]
    have hrest : utf8CodesLoop fuel (encode cs) = .ok (cs.map Char.toNat) := ih (by omega)
    simp [hrest]

/-! ## Lengths -/

theorem isFirst_trail {b : UInt8} (h : Trail b) : isUtf8CharacterFirstCodeUnit b = false := by
  rw [← Bool.not_eq_true, isFirst_iff, not_not]
  exact h

theorem isFirst_lead {b : UInt8} (h : ¬ Trail b) : isUtf8CharacterFirstCodeUnit b = true := (isFirst_iff b).mpr h

@[simp] theorem utf8Length_append (s t : Bytes) : utf8Length (s ++ t) = utf8Length s + utf8Length t := by
  simp [utf8Length]

@[simp] theorem utf8Utf16Length_append (s t : Bytes) :
    utf8Utf16Length (s ++ t) = utf8Utf16Length s + utf8Utf16Length t := by
  simp [utf8Utf16Length]

theorem utf8Length_trail {tail : Bytes} (h : ∀ b ∈ tail, Trail b) : utf8Length tail = 0 := by
  refine List.sum_eq_zero_iff_forall_eq_nat.mpr fun n hn => ?_
  obtain ⟨b, hb, rfl⟩ := mem_map.mp hn
  rw [isFirst_trail (h b hb)]
  rfl

theorem utf8Utf16Length_trail {tail : Bytes} (h : ∀ b ∈ tail, Trail b) : utf8Utf16Length tail = 0 := by
  refine List.sum_eq_zero_iff_forall_eq_nat.mpr fun n hn => ?_
  obtain ⟨b, hb, rfl⟩ := mem_map.mp hn
  have hmask : ¬ b.toNat &&& 0xf8 = 0xf0 := fun hmask => by
    have hrange := (lead_values _ b.toNat_lt).2.2.2.mp hmask
    have := (h b hb).2
    omega
  simp [isFirst_trail (h b hb), hmask]

theorem utf8Length_encode (cs : List Char) : utf8Length (encode cs) = cs.length := by
  induction cs with
  | nil => rfl
  | cons c cs ih =>
    obtain ⟨a, tail, hlead, ha, htail⟩ := exists_lead c
    have hone : utf8Length [a] = 1 := by simp [utf8Length, isFirst_lead ha]
    rw [encode_cons, utf8Length_append, ih, hlead, ← singleton_append, utf8Length_append, hone,
      utf8Length_trail htail, length_cons]
    omega

/-- The lead byte tells the characters that take two UTF-16 units. -/
theorem lead_cases (c : Char) : ∃ a tail, String.utf8EncodeChar c = a :: tail ∧ ¬ Trail a ∧ (∀ b ∈ tail, Trail b) ∧
      (0xF0 ≤ a.toNat ∧ a.toNat < 0xF8 ∧ utf16Size c = 2 ∨ a.toNat < 0xF0 ∧ utf16Size c = 1) := by
  obtain ⟨a, tail, hlead, ha, htail⟩ := exists_lead c
  refine ⟨a, tail, hlead, ha, htail, ?_⟩
  have hspells := spells_utf8EncodeChar c
  rw [hlead] at hspells
  cases hspells with
  | one _ v lead => exact .inr ⟨by omega, utf16Size_of_lt (by omega)⟩
  | two _ b v lead second => exact .inr ⟨by omega, utf16Size_of_lt (by have := second.2; omega)⟩
  | three _ b d v lead second third shortest scalar =>
    exact .inr ⟨by omega, utf16Size_of_lt (by have := second.2; have := third.2; omega)⟩
  | four _ b d e v lead second third fourth shortest scalar =>
    exact .inl ⟨by omega, by omega, utf16Size_of_le (by omega)⟩

theorem utf8Utf16Length_encode (cs : List Char) : utf8Utf16Length (encode cs) = utf16Length cs := by
  induction cs with
  | nil => rfl
  | cons c cs ih =>
    obtain ⟨a, tail, hlead, ha, htail, hsize⟩ := lead_cases c
    have hone : utf8Utf16Length [a] = utf16Size c := by
      have hmask := (lead_values _ a.toNat_lt).2.2.2
      rcases hsize with ⟨lo, hi, hsize⟩ | ⟨hi, hsize⟩
      · simp [utf8Utf16Length, isFirst_lead ha, hmask.mpr ⟨lo, hi⟩, hsize]
      · have hno : ¬ a.toNat &&& 0xf8 = 0xf0 := fun h => by have := (hmask.mp h).1; omega
        simp [utf8Utf16Length, isFirst_lead ha, hno, hsize]
    rw [encode_cons, utf8Utf16Length_append, ih, hlead, ← singleton_append, utf8Utf16Length_append,
      hone, utf8Utf16Length_trail htail, utf16Length_cons]
    omega

/-- `check_utf8` accepts the UTF-8 forms of texts. On such a string the loops
over `next_utf8_unsafe` meet the scalar values of the text and
`append_utf8_character` puts them back together; the two lengths are the number
of characters and the length of the UTF-16 form. -/
theorem checkUtf8_scalars (s : Bytes) : (checkUtf8 s = true ↔ ∃ cs : List Char, s = encode cs) ∧
    ∀ cs : List Char, s = encode cs →
      utf8Codes s = .ok (cs.map Char.toNat) ∧ (cs.map Char.toNat).foldl appendUtf8Character [] = s ∧
      utf8Length s = cs.length ∧ utf8Utf16Length s = (utf16Encode cs).length := by
  refine ⟨checkUtf8_iff, ?_⟩
  rintro cs rfl
  refine ⟨utf8CodesLoop_encode cs (le_refl _), ?_, utf8Length_encode cs, utf8Utf16Length_encode cs⟩
  rw [foldl_appendUtf8Character, nil_append]

end Tdlib.Text
