/-
Slices of a UTF-8 string at offsets given in UTF-16 units
(`tdutils/td/utils/utf8.cpp`). The units left are counted in a `size_t`.

At a character boundary a cut is exact. An offset inside a surrogate pair makes
the counter wrap around, and then nothing is cut off.
-/
import Tdlib.Text.Utf8

namespace Tdlib.Text

open Utf8 List

/-- `utf8_utf16_truncate`. -/
def utf8Utf16Truncate : Bytes → UInt64 → Bytes
  | [], _ => []
  | c :: str, length =>
    if isUtf8CharacterFirstCodeUnit c then
      if length ≤ 0 then []
      else
        let length := length - 1
        -- >= 4 bytes in symbol => surrogate pair
        let length := if c.toNat ≥ 0xf0 then length - 1 else length
        c :: utf8Utf16Truncate str length
    else c :: utf8Utf16Truncate str length

/-- `utf8_utf16_substr` from `offset` on. -/
def utf8Utf16SubstrFrom (str : Bytes) (offset : UInt64) : Bytes :=
  if offset = 0 then str
  else
    let offsetPos := (utf8Utf16Truncate str offset).length
    str.drop offsetPos

/-- `utf8_utf16_substr`. -/
def utf8Utf16Substr (str : Bytes) (offset length : UInt64) : Bytes :=
  utf8Utf16Truncate (utf8Utf16SubstrFrom str offset) length

/-! ## One character -/

variable {cs ds es : List Char} {c : Char} {rest : Bytes} {n : UInt64}

theorem utf8Utf16Truncate_trail {tail : Bytes} (h : ∀ b ∈ tail, Trail b) :
    utf8Utf16Truncate (tail ++ rest) n = tail ++ utf8Utf16Truncate rest n := by
  induction tail with
  | nil => rfl
  | cons b tail ih =>
    have hb := isFirst_trail (h b (by simp))
    simp [cons_append, utf8Utf16Truncate, hb, ih fun d hd => h d (mem_cons_of_mem b hd)]

theorem utf8Utf16Truncate_zero (cs : List Char) : utf8Utf16Truncate (encode cs) 0 = [] := by
  cases cs with
  | nil => rfl
  | cons c cs =>
    obtain ⟨a, tail, hlead, ha, -⟩ := lead_cases c
    rw [encode_cons, hlead, cons_append, utf8Utf16Truncate, isFirst_lead ha]
    rfl

theorem sub_one_sub_one (n : UInt64) : n - 1 - 1 = n - 2 := by
  grind

/-- The counter goes down by the units of the character, modulo 2^64. -/
theorem utf8Utf16Truncate_char (hn : n ≠ 0) : utf8Utf16Truncate (String.utf8EncodeChar c ++ rest) n =
      String.utf8EncodeChar c ++ utf8Utf16Truncate rest (n - UInt64.ofNat (utf16Size c)) := by
  obtain ⟨a, tail, hlead, ha, htail, hsize⟩ := lead_cases c
  have hle : ¬ n ≤ 0 := fun h => hn (UInt64.le_zero_iff.mp h)
  rw [hlead, cons_append, utf8Utf16Truncate, isFirst_lead ha, if_pos rfl, if_neg hle]
  rcases hsize with ⟨lo, -, hsize⟩ | ⟨hi, hsize⟩
  · simp [lo, utf8Utf16Truncate_trail htail, hsize, cons_append, sub_one_sub_one]
  · dsimp only
    rw [if_neg (by omega), utf8Utf16Truncate_trail htail, hsize, cons_append]
    rfl

theorem toNat_sub_utf16Size (h : utf16Size c ≤ n.toNat) :
    (n - UInt64.ofNat (utf16Size c)).toNat = n.toNat - utf16Size c := by
  have hlt := n.toNat_lt
  rw [UInt64.toNat_sub, UInt64.toNat_ofNat']
  omega

theorem ne_zero_of_toNat (h : 0 < n.toNat) : n ≠ 0 := by
  rintro rfl
  exact absurd h (by decide)

/-! ## Texts -/

theorem utf8Utf16Truncate_boundary (h : n.toNat = utf16Length ds) :
    utf8Utf16Truncate (encode ds ++ encode es) n = encode ds := by
  induction ds generalizing n with
  | nil =>
    obtain rfl : n = 0 := UInt64.toNat_inj.mp h
    exact utf8Utf16Truncate_zero es
  | cons d ds ih =>
    rw [utf16Length_cons] at h
    have hpos := utf16Size_pos d
    rw [encode_cons, append_assoc, utf8Utf16Truncate_char (ne_zero_of_toNat (by omega)),
      ih (by rw [toNat_sub_utf16Size (by omega)]; omega)]

/-- Nothing is cut off by a counter that is as large as the text. -/
theorem utf8Utf16Truncate_of_le (h : utf16Length cs ≤ n.toNat) : utf8Utf16Truncate (encode cs) n = encode cs := by
  induction cs generalizing n with
  | nil => rfl
  | cons c cs ih =>
    rw [utf16Length_cons] at h
    have hpos := utf16Size_pos c
    rw [encode_cons, utf8Utf16Truncate_char (ne_zero_of_toNat (by omega)),
      ih (by rw [toNat_sub_utf16Size (by omega)]; omega)]

/-- At an offset inside a surrogate pair the counter goes from one to the
largest `size_t`, and the whole string is returned. -/
theorem utf8Utf16Truncate_insidePair (hc : utf16Size c = 2) (h : n.toNat = utf16Length ds + 1)
    (hes : utf16Length es < 2 ^ 64) : utf8Utf16Truncate (encode (ds ++ c :: es)) n = encode (ds ++ c :: es) := by
  induction ds generalizing n with
  | nil =>
    obtain rfl : n = 1 := UInt64.toNat_inj.mp h
    rw [nil_append, encode_cons, utf8Utf16Truncate_char (by decide), hc,
      utf8Utf16Truncate_of_le (Nat.le_of_lt_succ hes)]
  | cons d ds ih =>
    rw [utf16Length_cons] at h
    rw [cons_append, encode_cons, utf8Utf16Truncate_char (ne_zero_of_toNat (by omega)),
      ih (by rw [toNat_sub_utf16Size (by omega)]; omega)]

theorem exists_utf8Utf16Truncate (cs : List Char) (n : UInt64) (hsize : (encode cs).length < 2 ^ 64) :
    ∃ ds es, cs = ds ++ es ∧ utf8Utf16Truncate (encode cs) n = encode ds := by
  by_cases hle : utf16Length cs ≤ n.toNat
  · exact ⟨cs, [], by simp, utf8Utf16Truncate_of_le hle⟩
  · have hlt : n.toNat ≤ utf16Length cs := by omega
    rcases boundary_or_insidePair hlt with ⟨ds, es, rfl, hds⟩ | ⟨ds, c, es, rfl, hc, hn⟩
    · exact ⟨ds, es, rfl, by rw [encode_append, utf8Utf16Truncate_boundary hds.symm]⟩
    · have hes := utf16Length_le (ds ++ c :: es)
      rw [utf16Length_append, utf16Length_cons] at hes
      exact ⟨ds ++ c :: es, [], by simp, utf8Utf16Truncate_insidePair hc hn (by omega)⟩

theorem exists_append_eq (s : Bytes) (n : UInt64) : ∃ rest, utf8Utf16Truncate s n ++ rest = s := by
  fun_induction utf8Utf16Truncate s n with
  | case1 => exact ⟨[], rfl⟩
  | case2 c str => exact ⟨c :: str, rfl⟩
  | case3 c _ _ _ _ _ _ ih | case4 c _ _ _ ih =>
    obtain ⟨rest, hrest⟩ := ih
    exact ⟨rest, congrArg (c :: ·) hrest⟩

theorem utf8Utf16Truncate_append_substrFrom (cs : List Char) (o : UInt64) :
    utf8Utf16Truncate (encode cs) o ++ utf8Utf16SubstrFrom (encode cs) o = encode cs := by
  by_cases ho : o = 0
  · rw [utf8Utf16SubstrFrom, if_pos ho, ho, utf8Utf16Truncate_zero, nil_append]
  · obtain ⟨rest, hrest⟩ := exists_append_eq (encode cs) o
    have hdrop : (encode cs).drop (utf8Utf16Truncate (encode cs) o).length = rest := by
      generalize utf8Utf16Truncate (encode cs) o = cut at hrest ⊢
      rw [← hrest, drop_left]
    rw [utf8Utf16SubstrFrom, if_neg ho, hdrop, hrest]

/-- What a cut of `s` at `n` units is: some characters from the beginning, that
many units long up to one, and exactly that many unless `n` is inside a
surrogate pair. -/
def TruncatesTo (s result : Bytes) (n : Nat) : Prop :=
  ∃ ds es, s = encode (ds ++ es) ∧ result = encode ds ∧
    utf16Length ds ≤ min n (utf8Utf16Length s) + 1 ∧ min n (utf8Utf16Length s) ≤ utf16Length ds + 1 ∧
    (InsidePair (ds ++ es) n ∨ utf16Length ds = min n (utf8Utf16Length s))

/-- A cut does what it is for and the slices make up the string again, exactly
when the offset is not inside a surrogate pair with more text after it. -/
theorem utf8Utf16Truncate_iff {s : Bytes} (n : UInt64) (hvalid : checkUtf8 s = true) (hsize : s.length < 2 ^ 64) :
    (TruncatesTo s (utf8Utf16Truncate s n) n.toNat ∧
      ∀ o m : UInt64, utf8Utf16Truncate s o ++ utf8Utf16Substr s o m ++
        utf8Utf16SubstrFrom (utf8Utf16SubstrFrom s o) m = s) ↔
    ∀ ds c es, s = encode (ds ++ c :: es) → utf16Size c = 2 → n.toNat = utf16Length ds + 1 → es = [] := by
  obtain ⟨cs, rfl⟩ := checkUtf8_iff.mp hvalid
  have hlength := utf16Length_le cs
  constructor
  · rintro ⟨⟨ds', es', hcs, hresult, hupper, -, -⟩, -⟩ ds c es hs hc hn
    obtain rfl := encode_injective hs
    rw [utf16Length_append, utf16Length_cons] at hlength
    rw [utf8Utf16Truncate_insidePair hc hn (by omega)] at hresult
    rw [← encode_injective hresult, utf8Utf16Length_encode, utf16Length_append, utf16Length_cons, hn, hc] at hupper
    exact utf16Length_eq_zero.mp (by omega)
  · intro hpair
    refine ⟨?_, fun o m => ?_⟩
    · by_cases hle : utf16Length cs ≤ n.toNat
      · refine ⟨cs, [], by simp, utf8Utf16Truncate_of_le hle, ?_⟩
        simp [utf8Utf16Length_encode, Nat.min_eq_right hle]
      have hlt : n.toNat ≤ utf16Length cs := by omega
      rcases boundary_or_insidePair hlt with ⟨ds, es, rfl, hds⟩ | ⟨ds, c, es, rfl, hc, hn⟩
      · refine ⟨ds, es, rfl, by rw [encode_append, utf8Utf16Truncate_boundary hds.symm], ?_⟩
        simp_all [utf8Utf16Length_encode]
      · obtain rfl := hpair ds c es rfl hc hn
        refine ⟨ds ++ [c], [], by simp, utf8Utf16Truncate_insidePair hc hn (by simp), ?_⟩
        rw [utf8Utf16Length_encode, Nat.min_eq_left hlt, utf16Length_append, utf16Length_cons, utf16Length_nil]
        exact ⟨by omega, by omega, .inl ⟨ds, c, [], by simp, hc, hn⟩⟩
    · obtain ⟨ds, es, rfl, hds⟩ := exists_utf8Utf16Truncate cs o hsize
      have hfrom : utf8Utf16SubstrFrom (encode (ds ++ es)) o = encode es := by
        have happend := utf8Utf16Truncate_append_substrFrom (ds ++ es) o
        simp_all
      rw [utf8Utf16Substr, hfrom, append_assoc, utf8Utf16Truncate_append_substrFrom, hds, encode_append]

/-- A face and two letters: four bytes for the face, which is a surrogate pair. -/
def faceText : Bytes := [0xF0, 0x9F, 0x98, 0x80, 0x61, 0x62]

/-- Cut at two units, the text ends after the face. -/
theorem truncate_after_pair :
    TruncatesTo faceText (utf8Utf16Truncate faceText 2) 2 ∧ utf8Utf16Truncate faceText 2 = faceText.take 4 := by
  have hface : faceText = encode [Char.ofNat 0x1F600, 'a', 'b'] := by decide
  refine ⟨((utf8Utf16Truncate_iff 2 (by decide) (by decide)).mpr fun ds c es hs hc hn => ?_).1, by decide⟩
  have hcs := encode_injective (hface.symm.trans hs)
  match ds with
  | [] => cases hn
  | d :: ds =>
    have hd : utf16Size (Char.ofNat 0x1F600) = 2 := by decide
    grind [utf16Length_cons]

/-- Cut at one unit, inside the pair, the string stays whole: four units. -/
theorem truncate_inside_pair :
    checkUtf8 faceText = true ∧ utf8Utf16Truncate faceText 1 = faceText ∧ utf8Utf16Length faceText = 4 ∧
      ¬ TruncatesTo faceText (utf8Utf16Truncate faceText 1) 1 := by
  have hwhole : utf8Utf16Truncate faceText 1 = faceText := by decide
  have hlength : utf8Utf16Length faceText = 4 := by decide
  refine ⟨by decide, hwhole, hlength, ?_⟩
  rintro ⟨ds, es, -, hresult, hupper, -⟩
  simp [hwhole, hlength, ← utf8Utf16Length_encode, ← hresult] at hupper

end Tdlib.Text
