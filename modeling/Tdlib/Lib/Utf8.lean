/-
Texts and their encodings. A text is a list of Unicode scalar values. Its UTF-8
form is the bytes of its characters, one character after another; its UTF-16
form has one unit for a character of the basic plane and two for any other.

A byte that does not go on with a character begins one. So a cut of the bytes
before such a byte is a cut of the text.
-/
import Tdlib.Lib.Bytes

namespace Tdlib.Utf8

open String (utf8EncodeChar)

/-! ## Characters -/

theorem toNat_ranges (c : Char) : c.toNat < 0xD800 ∨ 0xE000 ≤ c.toNat ∧ c.toNat < 0x110000 := by
  have hvalid := c.valid
  exact hvalid.imp id fun h => ⟨by simp only [Char.toNat]; omega, h.2⟩

theorem exists_char {v : Nat} (h : v < 0xD800 ∨ 0xE000 ≤ v ∧ v < 0x110000) : ∃ c : Char, c.toNat = v := by
  have hvalid : v.isValidChar := h.imp id fun h => ⟨by omega, h.2⟩
  exact ⟨Char.ofNatAux v hvalid, rfl⟩

variable {c : Char} {n : Nat} {cs : List Char}

theorem utf8EncodeChar_one (h : c.toNat < 0x80) : utf8EncodeChar c = [UInt8.ofNat c.toNat] := by
  have h' : c.val.toNat ≤ 127 := by simp only [Char.toNat] at h; omega
  simp only [utf8EncodeChar, if_pos h', Char.toNat]

theorem utf8EncodeChar_two (lo : 0x80 ≤ c.toNat) (hi : c.toNat < 0x800) :
    utf8EncodeChar c = [UInt8.ofNat (0xC0 + c.toNat / 64), UInt8.ofNat (0x80 + c.toNat % 64)] := by
  simp only [Char.toNat] at lo hi
  have h1 : ¬ c.val.toNat ≤ 127 := by omega
  have h2 : c.val.toNat ≤ 2047 := by omega
  simp only [utf8EncodeChar, if_neg h1, if_pos h2, Char.toNat]
  rw [show c.val.toNat / 64 % 32 + 192 = 0xC0 + c.val.toNat / 64 by omega,
    Nat.add_comm (c.val.toNat % 64)]

theorem utf8EncodeChar_three (lo : 0x800 ≤ c.toNat) (hi : c.toNat < 0x10000) : utf8EncodeChar c =
      [UInt8.ofNat (0xE0 + c.toNat / 4096), UInt8.ofNat (0x80 + c.toNat / 64 % 64),
        UInt8.ofNat (0x80 + c.toNat % 64)] := by
  simp only [Char.toNat] at lo hi
  have h1 : ¬ c.val.toNat ≤ 127 := by omega
  have h2 : ¬ c.val.toNat ≤ 2047 := by omega
  have h3 : c.val.toNat ≤ 65535 := by omega
  simp only [utf8EncodeChar, if_neg h1, if_neg h2, if_pos h3, Char.toNat]
  rw [show c.val.toNat / 4096 % 16 + 224 = 0xE0 + c.val.toNat / 4096 by omega,
    Nat.add_comm (c.val.toNat / 64 % 64), Nat.add_comm (c.val.toNat % 64)]

theorem utf8EncodeChar_four (lo : 0x10000 ≤ c.toNat) : utf8EncodeChar c =
      [UInt8.ofNat (0xF0 + c.toNat / 262144), UInt8.ofNat (0x80 + c.toNat / 4096 % 64),
        UInt8.ofNat (0x80 + c.toNat / 64 % 64), UInt8.ofNat (0x80 + c.toNat % 64)] := by
  have hi := toNat_ranges c
  simp only [Char.toNat] at lo hi
  have h1 : ¬ c.val.toNat ≤ 127 := by omega
  have h2 : ¬ c.val.toNat ≤ 2047 := by omega
  have h3 : ¬ c.val.toNat ≤ 65535 := by omega
  simp only [utf8EncodeChar, if_neg h1, if_neg h2, if_neg h3, Char.toNat]
  rw [show c.val.toNat / 262144 % 8 + 240 = 0xF0 + c.val.toNat / 262144 by omega,
    Nat.add_comm (c.val.toNat / 4096 % 64), Nat.add_comm (c.val.toNat / 64 % 64),
    Nat.add_comm (c.val.toNat % 64)]

/-- A byte that goes on with a character. -/
def Trail (b : UInt8) : Prop := 0x80 ≤ b.toNat ∧ b.toNat < 0xC0

instance : DecidablePred Trail := fun _ => inferInstanceAs (Decidable (_ ∧ _))

theorem trail_ofNat (h : n < 64) : Trail (UInt8.ofNat (0x80 + n)) := by
  rw [Trail, UInt8.toNat_ofNat']
  omega

/-- How a byte string spells one character: its lead byte, with the range the
lead byte is in, and the bytes that go on with it. -/
inductive Spells (c : Char) : Bytes → Prop
  | one (a : UInt8) (v : c.toNat = a.toNat) (lead : a.toNat < 0x80) : Spells c [a]
  | two (a b : UInt8) (v : c.toNat = (a.toNat - 0xC0) * 64 + (b.toNat - 0x80))
      (lead : 0xC2 ≤ a.toNat ∧ a.toNat < 0xE0) (second : Trail b) : Spells c [a, b]
  | three (a b d : UInt8)
      (v : c.toNat = (a.toNat - 0xE0) * 4096 + (b.toNat - 0x80) * 64 + (d.toNat - 0x80))
      (lead : 0xE0 ≤ a.toNat ∧ a.toNat < 0xF0) (second : Trail b) (third : Trail d)
      (shortest : a.toNat = 0xE0 → 0xA0 ≤ b.toNat) (scalar : a.toNat = 0xED → b.toNat < 0xA0) :
      Spells c [a, b, d]
  | four (a b d e : UInt8)
      (v : c.toNat =
        (a.toNat - 0xF0) * 262144 + (b.toNat - 0x80) * 4096 + (d.toNat - 0x80) * 64 + (e.toNat - 0x80))
      (lead : 0xF0 ≤ a.toNat ∧ a.toNat < 0xF5) (second : Trail b) (third : Trail d) (fourth : Trail e)
      (shortest : a.toNat = 0xF0 → 0x90 ≤ b.toNat) (scalar : a.toNat = 0xF4 → b.toNat < 0x90) :
      Spells c [a, b, d, e]

theorem toNat_ofNat_lt (h : n < 256) : (UInt8.ofNat n).toNat = n := by
  rw [UInt8.toNat_ofNat']
  omega

theorem spells_utf8EncodeChar (c : Char) : Spells c (utf8EncodeChar c) := by
  have hc := toNat_ranges c
  by_cases h1 : c.toNat < 0x80
  · rw [utf8EncodeChar_one h1]
    exact .one _ (by rw [toNat_ofNat_lt (by omega)]) (by rw [toNat_ofNat_lt (by omega)]; exact h1)
  by_cases h2 : c.toNat < 0x800
  · rw [utf8EncodeChar_two (by omega) h2]
    refine .two _ _ ?_ ?_ (trail_ofNat (by omega))
    all_goals grind [toNat_ofNat_lt]
  by_cases h3 : c.toNat < 0x10000
  · rw [utf8EncodeChar_three (by omega) h3]
    refine .three _ _ _ ?_ ?_ (trail_ofNat (by omega)) (trail_ofNat (by omega)) ?_ ?_
    all_goals grind [toNat_ofNat_lt]
  · rw [utf8EncodeChar_four (by omega)]
    refine .four _ _ _ _ ?_ ?_ (trail_ofNat (by omega)) (trail_ofNat (by omega)) (trail_ofNat (by omega)) ?_ ?_
    all_goals grind [toNat_ofNat_lt]

theorem ofNat_eq {b : UInt8} (h : b.toNat = n) : UInt8.ofNat n = b := by
  rw [← h, UInt8.ofNat_toNat]

theorem Spells.eq_utf8EncodeChar {bs : Bytes} (h : Spells c bs) : bs = utf8EncodeChar c := by
  cases h with
  | one a v lead => rw [utf8EncodeChar_one (by omega), ofNat_eq (b := a) (by omega)]
  | two a b v lead second =>
    obtain ⟨hb, hb'⟩ := second
    rw [utf8EncodeChar_two (by omega) (by omega), ofNat_eq (b := a) (by omega), ofNat_eq (b := b) (by omega)]
  | three a b d v lead second third shortest scalar =>
    obtain ⟨hb, hb'⟩ := second
    obtain ⟨hd, hd'⟩ := third
    rw [utf8EncodeChar_three (by omega) (by omega), ofNat_eq (b := a) (by omega), ofNat_eq (b := b) (by omega),
      ofNat_eq (b := d) (by omega)]
  | four a b d e v lead second third fourth shortest scalar =>
    obtain ⟨hb, hb'⟩ := second
    obtain ⟨hd, hd'⟩ := third
    obtain ⟨he, he'⟩ := fourth
    rw [utf8EncodeChar_four (by omega), ofNat_eq (b := a) (by omega), ofNat_eq (b := b) (by omega),
      ofNat_eq (b := d) (by omega), ofNat_eq (b := e) (by omega)]

/-- A character is one byte that begins it and bytes that go on with it. -/
theorem exists_lead (c : Char) : ∃ a tail, utf8EncodeChar c = a :: tail ∧ ¬ Trail a ∧ ∀ b ∈ tail, Trail b := by
  generalize hbs : utf8EncodeChar c = bs
  have hspells := hbs ▸ spells_utf8EncodeChar c
  cases hspells with
  | one a v lead => exact ⟨a, [], rfl, fun h => by have := h.1; omega, by simp⟩
  | two a b v lead second => exact ⟨a, [b], rfl, fun h => by have := h.2; omega, by simpa using second⟩
  | three a b d v lead second third shortest scalar =>
    exact ⟨a, [b, d], rfl, fun h => by have := h.2; omega, by simpa using ⟨second, third⟩⟩
  | four a b d e v lead second third fourth shortest scalar =>
    exact ⟨a, [b, d, e], rfl, fun h => by have := h.2; omega, by simpa using ⟨second, third, fourth⟩⟩

/-! ## Texts -/

/-- The UTF-8 form of a text. -/
def encode (cs : List Char) : Bytes := cs.flatMap utf8EncodeChar

@[simp] theorem encode_nil : encode [] = [] := rfl

@[simp] theorem encode_cons (c : Char) (cs : List Char) : encode (c :: cs) = utf8EncodeChar c ++ encode cs := rfl

@[simp] theorem encode_append (cs ds : List Char) : encode (cs ++ ds) = encode cs ++ encode ds :=
  List.flatMap_append

theorem encode_eq_nil : encode cs = [] ↔ cs = [] := by
  cases cs with
  | nil => simp
  | cons c cs => simp [String.utf8EncodeChar_ne_nil]

/-- The first character of a text is known from its bytes, whatever follows it. -/
theorem eq_of_utf8EncodeChar_append {d : Char} {p q : Bytes}
    (h : utf8EncodeChar c ++ p = utf8EncodeChar d ++ q) : c = d ∧ p = q := by
  have hdecode := congrArg (fun bs : Bytes => bs.toByteArray.utf8DecodeChar? 0) h
  simp only [List.toByteArray_append, ByteArray.utf8DecodeChar?_utf8EncodeChar_append] at hdecode
  obtain rfl := Option.some.inj hdecode
  exact ⟨rfl, List.append_cancel_left h⟩

/-- What comes after a text in the bytes of a text is the bytes of a text. -/
theorem exists_of_encode_append {ds : List Char} {q : Bytes} (h : encode cs = encode ds ++ q) :
    ∃ es, cs = ds ++ es ∧ q = encode es := by
  induction ds generalizing cs with
  | nil => exact ⟨cs, rfl, h.symm⟩
  | cons d ds ih =>
    cases cs with
    | nil => simp [String.utf8EncodeChar_ne_nil] at h
    | cons c cs =>
      rw [encode_cons, encode_cons, List.append_assoc] at h
      obtain ⟨rfl, hrest⟩ := eq_of_utf8EncodeChar_append h
      obtain ⟨es, rfl, rfl⟩ := ih hrest
      exact ⟨es, rfl, rfl⟩

theorem encode_injective {ds : List Char} (h : encode cs = encode ds) : cs = ds := by
  obtain ⟨es, rfl, hes⟩ := exists_of_encode_append (q := []) (by simpa using h)
  rw [encode_eq_nil.mp hes.symm, List.append_nil]

/-! ## UTF-16 -/

/-- The UTF-16 units of a character: itself, or a surrogate pair. -/
def utf16Units (c : Char) : List Nat :=
  if c.toNat < 0x10000 then [c.toNat]
  else [0xD800 + (c.toNat - 0x10000) / 1024, 0xDC00 + (c.toNat - 0x10000) % 1024]

/-- The UTF-16 form of a text. -/
def utf16Encode (cs : List Char) : List Nat := cs.flatMap utf16Units

def utf16Length (cs : List Char) : Nat := (utf16Encode cs).length

/-- The units a character takes in UTF-16. -/
def utf16Size (c : Char) : Nat := (utf16Units c).length

@[simp] theorem utf16Length_nil : utf16Length [] = 0 := rfl

@[simp] theorem utf16Length_cons (c : Char) (cs : List Char) :
    utf16Length (c :: cs) = utf16Size c + utf16Length cs := by
  simp [utf16Length, utf16Encode, utf16Size]

@[simp] theorem utf16Length_append (cs ds : List Char) : utf16Length (cs ++ ds) = utf16Length cs + utf16Length ds := by
  simp [utf16Length, utf16Encode]

theorem utf16Size_of_lt (h : c.toNat < 0x10000) : utf16Size c = 1 := by
  rw [utf16Size, utf16Units, if_pos h, List.length_singleton]

theorem utf16Size_of_le (h : 0x10000 ≤ c.toNat) : utf16Size c = 2 := by
  rw [utf16Size, utf16Units, if_neg (by omega)]
  rfl

theorem utf16Size_cases (c : Char) : utf16Size c = 1 ∨ utf16Size c = 2 := by
  by_cases h : c.toNat < 0x10000
  · exact .inl (utf16Size_of_lt h)
  · exact .inr (utf16Size_of_le (by omega))

theorem utf16Size_pos (c : Char) : 0 < utf16Size c := by
  have := utf16Size_cases c
  omega

theorem utf16Size_le_utf8Size (c : Char) : utf16Size c ≤ (utf8EncodeChar c).length := by
  by_cases h : c.toNat < 0x10000
  · rw [utf16Size_of_lt h, String.length_utf8EncodeChar]
    exact c.utf8Size_pos
  · rw [utf16Size_of_le (by omega), utf8EncodeChar_four (by omega)]
    simp

theorem utf16Length_le (cs : List Char) : utf16Length cs ≤ (encode cs).length := by
  induction cs with
  | nil => simp
  | cons c cs ih =>
    rw [utf16Length_cons, encode_cons, List.length_append]
    have := utf16Size_le_utf8Size c
    omega

theorem utf16Length_eq_zero : utf16Length cs = 0 ↔ cs = [] := by
  cases cs with
  | nil => simp
  | cons c cs => simp [(utf16Size_pos c).ne']

/-- An offset in UTF-16 units that is between two characters, or at an end. -/
def Boundary (cs : List Char) (n : Nat) : Prop := ∃ ds es, cs = ds ++ es ∧ utf16Length ds = n

/-- An offset inside the surrogate pair of a character. -/
def InsidePair (cs : List Char) (n : Nat) : Prop :=
  ∃ ds c es, cs = ds ++ c :: es ∧ utf16Size c = 2 ∧ n = utf16Length ds + 1

/-- Every offset up to the length is a boundary, or inside a pair. -/
theorem boundary_or_insidePair (h : n ≤ utf16Length cs) : Boundary cs n ∨ InsidePair cs n := by
  induction cs generalizing n with
  | nil =>
    obtain rfl : n = 0 := by simpa using h
    exact .inl ⟨[], [], rfl, rfl⟩
  | cons c cs ih =>
    rw [utf16Length_cons] at h
    by_cases hn : n < utf16Size c
    · by_cases h0 : n = 0
      · exact .inl ⟨[], c :: cs, rfl, by rw [h0]; rfl⟩
      · have := utf16Size_cases c
        exact .inr ⟨[], c, cs, rfl, by omega, by simp; omega⟩
    · rcases ih (n := n - utf16Size c) (by omega) with ⟨ds, es, rfl, hds⟩ | ⟨ds, d, es, rfl, hd, hds⟩
      · exact .inl ⟨c :: ds, es, rfl, by rw [utf16Length_cons]; omega⟩
      · exact .inr ⟨c :: ds, d, es, rfl, hd, by rw [utf16Length_cons]; omega⟩

end Tdlib.Utf8
