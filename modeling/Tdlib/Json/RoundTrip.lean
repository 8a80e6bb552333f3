/-
What `json_encode` writes, `json_decode` reads back (`jsonDecode_jsonEncode`).

A string is decoded over its own text: each character is written behind the
place it is read from (`InPlace`). The slices of a decoded value lie before the
position that the parser has reached, and nothing before that position is
written any more (`Settled`).
-/
import Tdlib.Lib.InPlace
import Tdlib.Json.JsonText
import Tdlib.Json.SkipDecode

namespace Tdlib.Json

open List hiding map pure_def
open Text Utf8 Outcome JsonValue Json.Parser JsonBuilder

/-! ## Strings -/

section

variable {buffer out rest : Bytes} {dest src fuel : Nat}

theorem inPlace_writeAt {bytes : Bytes} (h : InPlace buffer dest src out rest) (hle : dest + bytes.length ≤ src) :
    InPlace (writeAt buffer dest bytes) (dest + bytes.length) src (out ++ bytes) rest ∧
      (writeAt buffer dest bytes).length = buffer.length := by
  induction bytes generalizing buffer dest out with
  | nil => exact ⟨by simpa [writeAt] using h, rfl⟩
  | cons b bytes ih =>
    rw [length_cons] at hle
    have hput := ih (h.put (by omega) b) (by omega)
    grind [List.length_set, writeAt, length_cons]

theorem hexToInt_lowerHexDigits {k : Nat} (hk : k < 16) : hexToInt (lowerHexDigits.getD k 0) = k := by
  have hall : ∀ k < 16, hexToInt (lowerHexDigits.getD k 0) = k := by decide
  exact hall k hk

variable {n : Nat}

/-- Four digits read back as the number that they were written for. -/
theorem hexNumber_jsonOneChar (hn : n < 0x10000)
    (h : ∀ k < 4, buffer.getD (src + k) 0 = (jsonOneChar n).getD (k + 2) 0) : hexNumber buffer src = .ok n := by
  have hdigit (k m : Nat) (hk : k < 4) (hm : m < 16) (hget : (jsonOneChar n).getD (k + 2) 0 = lowerHexDigits.getD m 0) :
      hexToInt (buffer.getD (src + k) 0) = m := by
    rw [h k hk, hget, hexToInt_lowerHexDigits hm]
  have hmask (m : Nat) : m &&& 15 < 16 := Nat.lt_succ_of_le Nat.and_le_right
  have hfirst : n >>> 12 < 16 := by
    omega
  simp only [hexNumber, foldlM_cons, foldlM_nil, hdigit 0 _ (by omega) hfirst rfl,
    hdigit 1 _ (by omega) (hmask (n >>> 8)) rfl, hdigit 2 _ (by omega) (hmask (n >>> 4)) rfl,
    hdigit 3 _ (by omega) (hmask n) rfl, ensure_true (Nat.ne_of_lt hfirst), ensure_true (Nat.ne_of_lt (hmask _)),
    ok_bind,
    pure_def]
  simp only [Nat.shiftRight_eq_div_pow, show ∀ m : Nat, m &&& 15 = m % 16 from (Nat.and_two_pow_sub_one_eq_mod · 4)]
  congr 1
  omega

theorem length_jsonOneChar (n : Nat) : (jsonOneChar n).length = 6 := rfl

theorem escapeDecode_unicode {src' : Nat} (hu : buffer.getD src 0 = chr 'u')
    (h : unicodeDecode buffer (src + 1) = .ok (n, src')) :
    escapeDecode buffer src = .ok (appendUtf8Character [] n, src') := by
  rw [escapeDecode, hu]
  simp [chr, h, ok_bind]

theorem escapeDecode_jsonOneChar (hn : n < 0x10000) (hscalar : ¬ IsSurrogate n)
    (h : InPlace buffer dest src out (jsonOneChar n ++ rest)) :
    escapeDecode buffer (src + 1) = .ok (appendUtf8Character [] n, src + 6) := by
  have hlength := h.length_eq
  rw [length_append, length_jsonOneChar] at hlength
  have hu : buffer.getD (src + 1) 0 = chr 'u' := h.getD_read 1 0
  have hhex : hexNumber buffer (src + 1 + 1) = .ok n := by
    refine hexNumber_jsonOneChar hn fun k hk => ?_
    rw [show src + 1 + 1 + k = src + (k + 2) by omega, h.getD_read,
      getD_append _ _ _ _ (by rw [length_jsonOneChar]; omega)]
  refine escapeDecode_unicode hu ?_
  rw [unicodeDecode, ensure_true (by omega), ok_bind, hhex, ok_bind]
  rw [if_neg fun hc => hscalar hc.1]
  rfl

theorem isSurrogate_high (hlo : 0x10000 ≤ n) (hhi : n < 0x110000) : IsSurrogate (0xD7C0 + (n >>> 10)) := by
  rw [IsSurrogate, Nat.shiftRight_eq_div_pow]
  omega

theorem mask_low (n : Nat) : n &&& 0x3FF = n % 1024 := Nat.and_two_pow_sub_one_eq_mod n 10

theorem pair_code (hlo : 0x10000 ≤ n) (hhi : n < 0x110000) :
    ((0xD7C0 + (n >>> 10)) &&& 0x3FF) <<< 10 ||| ((0xDC00 + (n &&& 0x3FF)) &&& 0x3FF) = n - 0x10000 := by
  rw [Nat.shiftRight_eq_div_pow, mask_low, mask_low, mask_low, shiftLeft_or (by omega)]
  omega

theorem escapeDecode_pair (hlo : 0x10000 ≤ n) (hhi : n < 0x110000) (h : InPlace buffer dest src out
      (jsonOneChar (0xD7C0 + (n >>> 10)) ++ jsonOneChar (0xDC00 + (n &&& 0x3FF)) ++ rest)) :
    escapeDecode buffer (src + 1) = .ok (appendUtf8Character [] n, src + 12) := by
  have hhigh := isSurrogate_high hlo hhi
  have hlow : IsSurrogate (0xDC00 + (n &&& 0x3FF)) := by
    rw [mask_low, IsSurrogate]
    omega
  have hcode := pair_code hlo hhi
  generalize 0xD7C0 + (n >>> 10) = a at h hhigh hcode
  generalize 0xDC00 + (n &&& 0x3FF) = b at h hlow hcode
  have hlength := h.length_eq
  rw [length_append, length_append, length_jsonOneChar, length_jsonOneChar] at hlength
  have hu : buffer.getD (src + 1) 0 = chr 'u' := h.getD_read 1 0
  have hback : buffer.getD (src + 1 + 1 + 4) 0 = chr '\\' := h.getD_read 6 0
  have hu' : buffer.getD (src + 1 + 1 + 4 + 1) 0 = chr 'u' := h.getD_read 7 0
  have hhex : hexNumber buffer (src + 1 + 1) = .ok a := by
    refine hexNumber_jsonOneChar (by have := hhigh.2; omega) fun k hk => ?_
    rw [show src + 1 + 1 + k = src + (k + 2) by omega, h.getD_read, append_assoc,
      getD_append _ _ _ _ (by rw [length_jsonOneChar]; omega)]
  have hhex' : hexNumber buffer (src + 1 + 1 + 4 + 2) = .ok b := by
    refine hexNumber_jsonOneChar (by have := hlow.2; omega) fun k hk => ?_
    rw [show src + 1 + 1 + 4 + 2 + k = src + (6 + (k + 2)) by omega, h.getD_read, append_assoc,
      getD_append_right _ _ _ _ (by rw [length_jsonOneChar]; omega), length_jsonOneChar,
      show 6 + (k + 2) - 6 = k + 2 by omega, getD_append _ _ _ _ (by rw [length_jsonOneChar]; omega)]
  refine escapeDecode_unicode hu ?_
  rw [unicodeDecode, ensure_true (by omega), ok_bind, hhex, ok_bind]
  rw [if_pos ⟨hhigh, by omega, hback, hu'⟩, hhex', ok_bind, if_pos hlow, hcode, Nat.sub_add_cancel hlo]
  rfl

/-- One step of the loop writes `bytes` and leaves `rest` to be read. -/
def Decodes (buffer : Bytes) (dest src : Nat) (out bytes rest : Bytes) : Prop :=
  ∃ buffer' src', (∀ fuel, stringDecodeLoop (fuel + 1) buffer src dest =
      stringDecodeLoop fuel buffer' src' (dest + bytes.length)) ∧
    InPlace buffer' (dest + bytes.length) src' (out ++ bytes) rest ∧ buffer'.length = buffer.length

theorem decodes_escape {more bytes : Bytes} (h : InPlace buffer dest src out (chr '\\' :: more ++ rest))
    (hmore : more ≠ []) (hescape : escapeDecode buffer (src + 1) = .ok (bytes, src + 1 + more.length))
    (hsize : bytes.length ≤ more.length) : Decodes buffer dest src out bytes rest := by
  have hlength := h.length_eq
  rw [cons_append, length_cons, length_append] at hlength
  have hpos := length_pos_iff.mpr hmore
  have hread : buffer.getD src 0 = chr '\\' := h.getD_zero 0
  have hskip : InPlace buffer dest (src + 1 + more.length) out rest := by
    have := h.skip
    rwa [length_cons, show src + (more.length + 1) = src + 1 + more.length by omega] at this
  have hbehind := h.behind
  refine ⟨writeAt buffer dest bytes, src + 1 + more.length, ?_, inPlace_writeAt hskip (by omega)⟩
  intro fuel
  rw [stringDecodeLoop, ensure_true (by omega), ok_bind, hread]
  simp only [show ¬ chr '\\' = chr '"' by decide, if_false, if_true]
  rw [ensure_true (by omega), ok_bind, hescape, ok_bind]

theorem decodes_byte {ch : UInt8} (h : InPlace buffer dest src out (ch :: rest)) (hquote : ch ≠ chr '"')
    (hback : ch ≠ chr '\\') : Decodes buffer dest src out [ch] rest := by
  have hlength := h.length_eq
  have hread : buffer.getD src 0 = ch := h.getD_zero 0
  refine ⟨buffer.set dest ch, src + 1, ?_, h.move ch, List.length_set⟩
  intro fuel
  simp_all [stringDecodeLoop, ensure_true, ok_bind]

/-- The escape of a byte is itself, two characters, or a `\u` escape. -/
theorem escapeAscii_cases (ch : UInt8) :
    escapeAscii ch = [ch] ∧ ch ≠ chr '"' ∧ ch ≠ chr '\\' ∨ (∃ x, escapeAscii ch = [chr '\\', x] ∧
      ∀ buffer src, buffer.getD src 0 = x → escapeDecode buffer src = .ok ([ch], src + 1)) ∨
    escapeAscii ch = jsonOneChar ch.toNat := by
  have htwo : ∀ (x : UInt8) (b : UInt8), (x = chr 'b' ∧ b = 8 ∨ x = chr 'f' ∧ b = 12 ∨ x = chr 'n' ∧ b = 10 ∨
      x = chr 'r' ∧ b = 13 ∨ x = chr 't' ∧ b = 9 ∨ x = chr '"' ∧ b = chr '"' ∨ x = chr '\\' ∧ b = chr '\\') →
      ∀ buffer src, buffer.getD src 0 = x → escapeDecode buffer src = .ok ([b], src + 1) := by
    intro x b hx buffer src hread
    rw [escapeDecode, hread]
    rcases hx with ⟨rfl, rfl⟩ | ⟨rfl, rfl⟩ | ⟨rfl, rfl⟩ | ⟨rfl, rfl⟩ | ⟨rfl, rfl⟩ | ⟨rfl, rfl⟩ | ⟨rfl, rfl⟩ <;> rfl
  unfold escapeAscii
  split_ifs <;> first
    | subst ch; exact .inr (.inl ⟨_, rfl, htwo _ _ (by decide)⟩)
    | exact .inr (.inr rfl)
    | exact .inl ⟨rfl, ‹_›, ‹_›⟩

theorem decodes_escapeChar (c : Char) (h : InPlace buffer dest src out (escapeChar c ++ rest)) :
    Decodes buffer dest src out (String.utf8EncodeChar c) rest := by
  have hc := toNat_ranges c
  have happend : appendUtf8Character [] c.toNat = String.utf8EncodeChar c := appendUtf8Character_toNat [] c
  have hsize : (String.utf8EncodeChar c).length ≤ 4 := by
    rw [String.length_utf8EncodeChar]
    exact c.utf8Size_le_four
  have hone : escapeChar c = jsonOneChar c.toNat → c.toNat < 0x10000 →
      Decodes buffer dest src out (String.utf8EncodeChar c) rest := by
    intro hescape hsmall
    rw [hescape] at h
    have hdecode := escapeDecode_jsonOneChar hsmall (by rw [IsSurrogate]; omega) h
    rw [happend] at hdecode
    exact decodes_escape h (cons_ne_nil _ _) hdecode (Nat.le_succ_of_le hsize)
  by_cases hascii : c.toNat < 0x80
  · have hescape : escapeChar c = escapeAscii (UInt8.ofNat c.toNat) := if_pos hascii
    rcases escapeAscii_cases (UInt8.ofNat c.toNat) with ⟨heq, hquote, hback⟩ | ⟨x, heq, hdecode⟩ | heq
    · rw [hescape, heq] at h
      rw [utf8EncodeChar_one hascii]
      exact decodes_byte h hquote hback
    · rw [hescape, heq] at h
      rw [utf8EncodeChar_one hascii]
      exact decodes_escape h (cons_ne_nil _ _) (hdecode buffer (src + 1) (h.getD_read 1 0)) (Nat.le_refl _)
    · refine hone ?_ (by omega)
      rw [hescape, heq, toNat_ofNat_lt (by omega)]
  · by_cases hsmall : c.toNat < 0x10000
    · exact hone (by rw [escapeChar, if_neg hascii, if_pos hsmall]) hsmall
    · rw [escapeChar, if_neg hascii, if_neg hsmall] at h
      have hdecode := escapeDecode_pair (by omega) (by omega) h
      rw [happend] at hdecode
      exact decodes_escape h (cons_ne_nil _ _) hdecode (Nat.le_trans hsize (show 4 ≤ 11 by omega))

theorem stringDecodeLoop_encode (cs : List Char) (hfuel : cs.length < fuel)
    (h : InPlace buffer dest src out (cs.flatMap escapeChar ++ chr '"' :: rest)) :
    ∃ buffer' src', stringDecodeLoop fuel buffer src dest = .ok (buffer', src', dest + (encode cs).length) ∧
      InPlace buffer' (dest + (encode cs).length) src' (out ++ encode cs) (chr '"' :: rest) ∧
      buffer'.length = buffer.length := by
  induction cs generalizing buffer dest src out fuel with
  | nil =>
    obtain ⟨fuel, rfl⟩ := Nat.exists_eq_succ_of_ne_zero (show fuel ≠ 0 by rw [length_nil] at hfuel; omega)
    have hlength := h.length_eq
    simp only [flatMap_nil, nil_append, length_cons] at hlength
    refine ⟨buffer, src, ?_, by simpa using h, rfl⟩
    rw [stringDecodeLoop, ensure_true (by omega), ok_bind]
    simp only [show buffer.getD src 0 = chr '"' from h.getD_zero 0, if_true]
    rfl
  | cons c cs ih =>
    obtain ⟨fuel, rfl⟩ := Nat.exists_eq_succ_of_ne_zero (show fuel ≠ 0 by omega)
    rw [flatMap_cons, append_assoc] at h
    obtain ⟨buffer1, src1, hstep, hplace, hlength⟩ := decodes_escapeChar c h
    obtain ⟨buffer', src', hloop, hplace', hlength'⟩ := ih (Nat.lt_of_succ_lt_succ hfuel) hplace
    simp_all [encode_cons, length_append, ← Nat.add_assoc, ← append_assoc]

theorem length_le_flatMap_escapeChar (cs : List Char) : cs.length ≤ (cs.flatMap escapeChar).length := by
  induction cs with
  | nil => exact Nat.le_refl _
  | cons c cs ih =>
    have hpos : 0 < (escapeChar c).length := by
      rw [escapeChar]
      split
      · rcases escapeAscii_cases (UInt8.ofNat c.toNat) with ⟨h, -⟩ | ⟨x, h, -⟩ | h <;> simp [h, length_jsonOneChar]
      · split <;> simp [length_jsonOneChar]
    rw [flatMap_cons, length_append, length_cons]
    omega

end

/-! ## What a parser leaves alone -/

/-- `p'` is further on than `p`, and what lies before `p` was not written. -/
structure Follows (p p' : Parser) : Prop where
  passed : p.ptr ≤ p'.ptr
  kept : p'.buffer.take p.ptr = p.buffer.take p.ptr

/-- `P` holds in every buffer that is the same before `p`. -/
def Settled (p : Parser) (P : Bytes → Prop) : Prop := ∀ buffer, buffer.take p.ptr = p.buffer.take p.ptr → P buffer

theorem take_of_take {buffer buffer' : Bytes} {m n : Nat} (h : buffer'.take n = buffer.take n) (hle : m ≤ n) :
    buffer'.take m = buffer.take m := by
  have hmin := Nat.min_eq_left hle
  rw [← hmin, ← take_take, ← take_take, h]

theorem Follows.trans {p p' p'' : Parser} (h : Follows p p') (h' : Follows p' p'') : Follows p p'' where
  passed := Nat.le_trans h.passed h'.passed
  kept := (take_of_take h'.kept h.passed).trans h.kept

theorem follows_advance (p : Parser) (n : Nat) : Follows p (p.advance n) := ⟨Nat.le_add_right .., rfl⟩

theorem Settled.later {p p' : Parser} {P : Bytes → Prop} (hP : Settled p P) (h : Follows p p') : Settled p' P :=
  fun _ hbuffer => hP _ ((take_of_take hbuffer h.passed).trans h.kept)

theorem Settled.imp {p : Parser} {P Q : Bytes → Prop} (hP : Settled p P) (h : ∀ buffer, P buffer → Q buffer) :
    Settled p Q :=
  fun buffer hbuffer => h buffer (hP buffer hbuffer)

/-- `f` reads `text` before `rest`, and `P` holds of what it returns. -/
def Reads {α : Type} (f : Parser → Outcome (α × Parser)) (P : Bytes → α → Prop) (text rest : Bytes) : Prop :=
  ∀ p : Parser, p.data = text ++ rest → ∃ a p', f p = .ok (a, p') ∧ p'.data = rest ∧ Follows p p' ∧
    Settled p' fun buffer => P buffer a

section

variable {p : Parser} {rest : Bytes}

theorem data_advance_length {text : Bytes} (h : p.data = text ++ rest) : (p.advance text.length).data = rest := by
  rw [data_advance, h, drop_left]

/-- `text` begins with a character at which white space ends. -/
def startsToken (text : Bytes) : Bool := text.head?.any fun c => !isWhitespace c

theorem takeWhile_token {space text : Bytes} {f : UInt8 → Bool} (hspace : space.all f = true)
    (htext : text.head?.any f = false) : (space ++ text).takeWhile f = space := by
  rw [takeWhile_append_of_pos (all_eq_true.mp hspace)]
  cases text with
  | nil => simp
  | cons c text => rw [takeWhile_cons_of_neg (by simpa using htext), append_nil]

theorem skipWhitespaces_eq {space text : Bytes} (h : p.data = space ++ text)
    (hspace : space.all isWhitespace = true) (htext : startsToken text = true) :
    p.skipWhitespaces = p.advance space.length ∧ p.skipWhitespaces.data = text := by
  have hstop : text.head?.any isWhitespace = false := by
    cases text with
    | nil => rfl
    | cons c text => simpa [startsToken] using htext
  have heq : p.skipWhitespaces = p.advance space.length := by
    rw [skipWhitespaces, countWhile, h, takeWhile_token hspace hstop]
  exact ⟨heq, by rw [heq, data_advance_length h]⟩

theorem skipWhitespaces_token {text : Bytes} (h : p.data = text) (htext : startsToken text = true) :
    p.skipWhitespaces = p := by
  have hnone : ([] : Bytes).all isWhitespace = true := rfl
  exact (skipWhitespaces_eq h hnone htext).1

theorem trySkip_cons {c : UInt8} (h : p.data = c :: rest) : p.trySkip c = some (p.advance 1) := by
  simp [trySkip, h]

theorem trySkip_of_ne {c d : UInt8} (h : p.data = d :: rest) (hne : d ≠ c) : p.trySkip c = none := by
  rw [trySkip, h]
  exact if_neg (by simpa using hne)

theorem isWhitespace_offsetText (offset : Int) : (offsetText offset).all isWhitespace = true := by
  rw [offsetText]
  split
  · rw [all_cons, Bool.and_eq_true]
    refine ⟨by decide, ?_⟩
    generalize offset.toNat = n
    induction n with
    | zero => rfl
    | succ n ih =>
      rw [replicate_succ, flatten_cons, all_append, ih, Bool.and_true]
      decide
  · rfl

/-- A string is read back as the slice of its own place. -/
theorem jsonStringDecode_reads {s : Bytes} (hs : checkUtf8 s = true) (rest : Bytes) :
    Reads jsonStringDecode (fun buffer slice => slice.read buffer = s) (stringText s) rest := by
  intro p hp
  obtain ⟨cs, rfl⟩ := checkUtf8_iff.mp hs
  rw [stringText_encode, cons_append, append_assoc, singleton_append] at hp
  have hquote : (p.advance 1).data = cs.flatMap escapeChar ++ chr '"' :: rest := by
    rw [data_advance, hp]
    rfl
  have hlength : p.buffer.length = p.ptr + 1 + (cs.flatMap escapeChar ++ chr '"' :: rest).length := by
    have hdata := congrArg List.length hp
    rw [length_data, length_cons] at hdata
    omega
  have hplace : InPlace (p.advance 1).buffer (p.ptr + 1) (p.ptr + 1) (p.buffer.take (p.ptr + 1))
      (cs.flatMap escapeChar ++ chr '"' :: rest) :=
    ⟨Nat.le_refl _, by rw [advance, hlength]; omega, rfl, hquote⟩
  have hfuel : cs.length < (p.advance 1).data.length + 1 := by
    have hle := length_le_flatMap_escapeChar cs
    rw [hquote, length_append]
    omega
  obtain ⟨buffer, src, hloop, hplace', hlength'⟩ := stringDecodeLoop_encode cs hfuel hplace
  have hend := hplace'.length_eq
  have hbehind := hplace'.behind
  rw [length_cons] at hend
  have hwritten := hplace'.written
  refine ⟨⟨p.ptr + 1, p.ptr + 1 + (encode cs).length - (p.ptr + 1)⟩, ⟨buffer, src + 1⟩, ?_,
    hplace'.skip_one.unread, ⟨?_, ?_⟩, ?_⟩
  · rw [jsonStringDecode, trySkip_cons hp]
    show (stringDecodeLoop _ _ (p.ptr + 1) (p.ptr + 1) >>= _) = _
    rw [hloop, ok_bind]
    dsimp only
    rw [check_true (by omega), ok_bind]
    rfl
  · show p.ptr ≤ src + 1
    omega
  · have htake : (p.buffer.take (p.ptr + 1)).take p.ptr = p.buffer.take p.ptr := by
      rw [take_take, Nat.min_eq_left (Nat.le_succ _)]
    have hlen := hplace.length_out
    calc buffer.take p.ptr
        = (buffer.take (p.ptr + 1 + (encode cs).length)).take p.ptr := by
          rw [take_take, Nat.min_eq_left (by omega)]
      _ = p.buffer.take p.ptr := by rw [hwritten, take_append_of_le_length (by omega), htake]
  · intro buffer' hbuffer'
    have hlen := hplace.length_out
    have hsame := take_of_take hbuffer' (show p.ptr + 1 + (encode cs).length ≤ src + 1 by omega)
    show ((buffer'.drop (p.ptr + 1)).take (p.ptr + 1 + (encode cs).length - (p.ptr + 1))) = encode cs
    rw [← drop_take, hsame, hwritten, drop_left' hlen]

/-! ## Items between brackets -/

/-- What is written for items that have these texts. -/
def joined (offset : Int) (isFirst : Bool) : List Bytes → Bytes
  | [] => []
  | text :: texts =>
    (if isFirst then ascii "," else []) ++ (offsetText offset ++ (text ++ joined offset true texts))

/-- The text of a field. -/
def fieldText (offset : Int) (f : Bytes × JsonValue Bytes) : Bytes :=
  stringText f.1 ++ ((if 0 ≤ offset then ascii " : " else ascii ":") ++ f.2.text offset)

theorem itemsText_eq (offset : Int) (isFirst : Bool) (items : List (JsonValue Bytes)) :
    itemsText offset isFirst items = joined offset isFirst (items.map (text offset)) := by
  induction items generalizing isFirst with
  | nil => rfl
  | cons v items ih => rw [itemsText, map_cons, joined, ih]

theorem fieldsText_eq (offset : Int) (isFirst : Bool) (fields : List (Bytes × JsonValue Bytes)) :
    fieldsText offset isFirst fields = joined offset isFirst (fields.map (fieldText offset)) := by
  induction fields generalizing isFirst with
  | nil => rfl
  | cons f fields ih =>
    simp [fieldsText, map_cons, joined, ih, fieldText, append_assoc]

theorem length_le_joined (offset : Int) (texts : List Bytes) : texts.length ≤ (joined offset true texts).length := by
  induction texts with
  | nil => exact Nat.le_refl _
  | cons text texts ih =>
    rw [joined]
    simp only [if_true, length_append, length_cons, show (ascii ",").length = 1 from rfl]
    omega

/-- No number goes on into `rest`. -/
def endsNumber (rest : Bytes) : Bool := !rest.head?.any isNumberCharacter

/-- The text of an item, as a loop over items needs it. -/
structure ReadsItem {α : Type} (close : UInt8) (item : Parser → Outcome (α × Parser)) (P : Bytes → α → Prop)
    (text : Bytes) : Prop where
  starts : startsToken text = true
  notClose : text.head? ≠ some close
  reads : ∀ rest, endsNumber rest = true → Reads item P text rest

theorem cons_of_startsToken {text : Bytes} (h : startsToken text = true) : ∃ c tail, text = c :: tail := by
  cases text with
  | nil => cases h
  | cons c tail => exact ⟨c, tail, rfl⟩

theorem empty_of_startsToken {text : Bytes} (hp : p.data = text ++ rest) (h : startsToken text = true) :
    p.empty = false := by
  obtain ⟨c, tail, rfl⟩ := cons_of_startsToken h
  rw [empty, hp]
  rfl

theorem startsToken_append {text : Bytes} (h : startsToken text = true) (rest : Bytes) :
    startsToken (text ++ rest) = true := by
  obtain ⟨c, tail, rfl⟩ := cons_of_startsToken h
  exact h

/-- A closing bracket is none of the characters that an item or a separator is
made of. -/
theorem close_facts {close : UInt8} (h : close = chr ']' ∨ close = chr '\x7d') (rest : Bytes) :
    startsToken (close :: rest) = true ∧ endsNumber (close :: rest) = true ∧ chr ',' ≠ close := by
  rcases h with rfl | rfl <;> exact ⟨rfl, rfl, by decide⟩

theorem endsNumber_offsetText (h : endsNumber rest = true) (offset : Int) :
    endsNumber (offsetText offset ++ rest) = true := by
  rw [offsetText]
  split
  · rfl
  · exact h

section

variable {α β : Type} {close : UInt8} (atEnd : String) (atOther : Parser → String)
variable {item : Parser → Outcome (α × Parser)} {text : β → Bytes} {P : β → Bytes → α → Prop} {offset outer : Int}

theorem itemsLoop_reads (hclose : close = chr ']' ∨ close = chr '\x7d') (x : β) (xs : List β)
    (hitems : ∀ y ∈ x :: xs, ReadsItem close item (P y) (text y)) {fuel : Nat} (hfuel : xs.length < fuel)
    (res : List α) {p : Parser} (hp : p.data = text x ++
      (joined offset true (xs.map text) ++ (offsetText outer ++ close :: rest))) :
    ∃ values p', itemsLoop close atEnd atOther item fuel res p = .ok (res ++ values, p') ∧ p'.data = rest ∧
      Follows p p' ∧ Settled p' fun buffer => List.Forall₂ (fun y a => P y buffer a) (x :: xs) values := by
  induction xs generalizing x fuel res p with
  | nil =>
    obtain ⟨fuel, rfl⟩ := Nat.exists_eq_succ_of_ne_zero (show fuel ≠ 0 by rw [length_nil] at hfuel; omega)
    have hitem := hitems x mem_cons_self
    obtain ⟨hstart, hends, -⟩ := close_facts hclose rest
    obtain ⟨a, p1, hread, hdata, hfollows, hsettled⟩ := hitem.reads _ (endsNumber_offsetText hends outer) p hp
    obtain ⟨hskip, hdata1⟩ := skipWhitespaces_eq hdata (isWhitespace_offsetText outer) hstart
    have hnotEmpty := empty_of_startsToken hp hitem.starts
    have hlater : Follows p1 (p1.skipWhitespaces.advance 1) := by
      exact (follows_advance p1 _).trans (follows_advance _ 1)
    refine ⟨[a], p1.skipWhitespaces.advance 1, ?_, by rw [data_advance, hdata1]; rfl, hfollows.trans hlater, ?_⟩
    · simp [itemsLoop, ensure_true hnotEmpty, ok_bind, hread, trySkip_cons hdata1]
    · exact (hsettled.later hlater).imp fun buffer h => .cons h .nil
  | cons y ys ih =>
    obtain ⟨fuel, rfl⟩ := Nat.exists_eq_succ_of_ne_zero (show fuel ≠ 0 by omega)
    have hitem := hitems x mem_cons_self
    have hnext := hitems y (mem_cons_of_mem _ mem_cons_self)
    obtain ⟨-, -, hcomma⟩ := close_facts hclose rest
    obtain ⟨a, p1, hread, hdata, hfollows, hsettled⟩ := hitem.reads _ rfl p hp
    have hdata' : p1.data = chr ',' :: (offsetText offset ++ (text y ++
        (joined offset true (ys.map text) ++ (offsetText outer ++ close :: rest)))) := by
      rw [hdata, map_cons, joined]
      simp only [if_true, append_assoc]
      rfl
    have hskip : p1.skipWhitespaces = p1 := skipWhitespaces_token hdata' rfl
    have hdata1 := congrArg (List.drop 1) hdata'
    rw [← data_advance, drop_succ_cons, drop_zero] at hdata1
    obtain ⟨hskip2, hdata2⟩ := skipWhitespaces_eq hdata1 (isWhitespace_offsetText offset)
      (startsToken_append hnext.starts _)
    have hnotEmpty := empty_of_startsToken hp hitem.starts
    obtain ⟨values, p', hloop, hdata3, hfollows', hsettled'⟩ := ih y
      (fun z hz => hitems z (mem_cons_of_mem _ hz)) (Nat.lt_of_succ_lt_succ hfuel) (res ++ [a]) hdata2
    have hlater : Follows p1 p' := by
      exact ((follows_advance p1 1).trans (follows_advance _ _)).trans hfollows'
    refine ⟨a :: values, p', ?_, hdata3, hfollows.trans hlater, ?_⟩
    · simp [itemsLoop, ensure_true hnotEmpty, ok_bind, hread, hskip, trySkip_of_ne hdata' hcomma, trySkip_cons hdata',
        hloop, append_assoc]
    · intro buffer hbuffer
      exact .cons (hsettled.later hlater buffer hbuffer) (hsettled' buffer hbuffer)

/-- **What is written between brackets is read back**, item by item. -/
theorem bracketed_reads (hclose : close = chr ']' ∨ close = chr '\x7d') (xs : List β)
    (hitems : ∀ y ∈ xs, ReadsItem close item (P y) (text y)) {p : Parser} {opening : UInt8} (hp : p.data = opening ::
      (joined offset false (xs.map text) ++ (offsetText outer ++ close :: rest))) :
    ∃ values p', bracketed close atEnd atOther item p = .ok (values, p') ∧ p'.data = rest ∧ Follows p p' ∧
      Settled p' fun buffer => List.Forall₂ (fun y a => P y buffer a) xs values := by
  have hdata := congrArg (List.drop 1) hp
  rw [← data_advance, drop_succ_cons, drop_zero] at hdata
  rw [bracketed]
  cases xs with
  | nil =>
    rw [map_nil, joined, nil_append] at hdata
    obtain ⟨hskip, hdata1⟩ := skipWhitespaces_eq hdata (isWhitespace_offsetText outer) (close_facts hclose rest).1
    refine ⟨[], (p.advance 1).skipWhitespaces.advance 1, ?_, by rw [data_advance, hdata1]; rfl, ?_, fun _ _ => .nil⟩
    · simp [trySkip_cons hdata1]
    · exact ((follows_advance p 1).trans (follows_advance _ _)).trans (follows_advance _ 1)
  | cons x xs =>
    have hfirst := hitems x mem_cons_self
    rw [map_cons, joined, if_neg (by decide), nil_append, append_assoc, append_assoc] at hdata
    obtain ⟨hskip, hdata1⟩ := skipWhitespaces_eq hdata (isWhitespace_offsetText offset)
      (startsToken_append hfirst.starts _)
    have hnone : (p.advance 1).skipWhitespaces.trySkip close = none := by
      obtain ⟨c, tail, htext⟩ := cons_of_startsToken hfirst.starts
      have hne := hfirst.notClose
      rw [htext] at hdata1 hne
      exact trySkip_of_ne hdata1 fun h => hne (congrArg some h)
    have hfuel : xs.length < (p.advance 1).skipWhitespaces.data.length + 1 := by
      have hle := length_le_joined offset (xs.map text)
      grind
    obtain ⟨values, p', hloop, hdata2, hfollows, hsettled⟩ :=
      itemsLoop_reads atEnd atOther hclose x xs hitems hfuel [] hdata1
    refine ⟨values, p', ?_, hdata2, ?_, hsettled⟩
    · simp [hnone, hloop]
    · exact ((follows_advance p 1).trans (follows_advance _ _)).trans hfollows

end

/-! ## Values -/

mutual

/-- A value with other strings. -/
def JsonValue.map {σ τ : Type} (f : σ → τ) : JsonValue σ → JsonValue τ
  | .null => .null
  | .boolean b => .boolean b
  | .number n => .number (f n)
  | .string s => .string (f s)
  | .array items => .array (mapItems f items)
  | .object fields => .object (mapFields f fields)

def mapItems {σ τ : Type} (f : σ → τ) : List (JsonValue σ) → List (JsonValue τ)
  | [] => []
  | v :: vs => v.map f :: mapItems f vs

def mapFields {σ τ : Type} (f : σ → τ) : List (σ × JsonValue σ) → List (τ × JsonValue τ)
  | [] => []
  | (name, v) :: fs => (f name, v.map f) :: mapFields f fs

end

theorem mapItems_eq {σ τ : Type} {f : σ → τ} {items : List (JsonValue τ)} {values : List (JsonValue σ)}
    (h : List.Forall₂ (fun v a => a.map f = v) items values) : mapItems f values = items := by
  induction h with
  | nil => rfl
  | cons hv _ ih => rw [mapItems, hv, ih]

theorem mapFields_eq {σ τ : Type} {f : σ → τ} {fields : List (τ × JsonValue τ)} {values : List (σ × JsonValue σ)}
    (h : List.Forall₂ (fun v a => f a.1 = v.1 ∧ a.2.map f = v.2) fields values) : mapFields f values = fields := by
  induction h with
  | nil => rfl
  | cons hv _ ih => rw [mapFields, hv.1, hv.2, ih]

/-- The value that was read is `v`. -/
def IsValue (v : JsonValue Bytes) (buffer : Bytes) (value : JsonValue Slice) : Prop := value.map (Slice.read buffer) = v

/-- The field that was read is `f`. -/
def IsField (f : Bytes × JsonValue Bytes) (buffer : Bytes) (value : Slice × JsonValue Slice) : Prop :=
  value.1.read buffer = f.1 ∧ value.2.map (Slice.read buffer) = f.2

theorem peekChar_cons {c : UInt8} (h : p.data = c :: rest) : p.peekChar = c := by
  rw [peekChar, h]
  rfl

theorem trySkipText_append {text : Bytes} (h : p.data = text ++ rest) :
    p.trySkipText text = some (p.advance text.length) := by
  simp [trySkipText, h]

variable {depth : Nat} {v : JsonValue Bytes}

theorem reads_space {space text : Bytes} {P : Bytes → JsonValue Slice → Prop}
    (hspace : space.all isWhitespace = true) (hstart : startsToken text = true)
    (h : Reads (decodeValue depth) P text rest) : Reads (decodeValue depth) P (space ++ text) rest := by
  intro p hp
  rw [append_assoc] at hp
  have hstart' := startsToken_append hstart rest
  obtain ⟨hskip, hdata⟩ := skipWhitespaces_eq hp hspace hstart'
  obtain ⟨a, p', hread, hdata', hfollows, hsettled⟩ := h p.skipWhitespaces hdata
  have hsame : decodeValue depth p = decodeValue depth p.skipWhitespaces := by
    cases depth with
    | zero => rfl
    | succ depth => rw [decodeValue, decodeValue, skipWhitespaces_token hdata hstart']
  exact ⟨a, p', hsame.trans hread, hdata', (follows_advance p _).trans hfollows, hsettled⟩

theorem stringText_cons {s : Bytes} (hs : checkUtf8 s = true) : ∃ tail, stringText s = chr '"' :: tail := by
  obtain ⟨cs, rfl⟩ := checkUtf8_iff.mp hs
  exact ⟨_, stringText_encode cs⟩

theorem number_cons {n : Bytes} (h : isNumber n = true) :
    ∃ c tail, n = c :: tail ∧ isNumberStart c = true ∧ n.all isNumberCharacter = true := by
  rw [isNumber, Bool.and_eq_true] at h
  obtain ⟨hstart, hall⟩ := h
  cases n with
  | nil => exact absurd hstart (by decide)
  | cons c tail => exact ⟨c, tail, rfl, hstart, hall⟩

theorem text_cons (hv : v.isEncodable = true) (offset : Int) :
    ∃ c tail, v.text offset = c :: tail ∧ isWhitespace c = false ∧ c ≠ chr ']' := by
  cases v with
  | null => exact ⟨chr 'n', _, rfl, rfl, by decide⟩
  | boolean b =>
    cases b with
    | false => exact ⟨chr 'f', _, rfl, rfl, by decide⟩
    | true => exact ⟨chr 't', _, rfl, rfl, by decide⟩
  | number n =>
    obtain ⟨c, tail, rfl, hstart, -⟩ := number_cons hv
    have hall : ∀ c : UInt8, isNumberStart c = true → isWhitespace c = false ∧ c ≠ chr ']' :=
      forall_byte (by decide +kernel)
    exact ⟨c, tail, rfl, hall c hstart⟩
  | string s =>
    obtain ⟨tail, htail⟩ := stringText_cons hv
    exact ⟨chr '"', tail, htail, rfl, by decide⟩
  | array => exact ⟨chr '[', _, rfl, rfl, by decide⟩
  | object => exact ⟨chr '\x7b', _, rfl, rfl, by decide⟩

theorem text_starts (hv : v.isEncodable = true) (offset : Int) :
    startsToken (v.text offset) = true ∧ (v.text offset).head? ≠ some (chr ']') := by
  obtain ⟨c, tail, htext, hspace, hne⟩ := text_cons hv offset
  simp_all [startsToken]

theorem field_reads {f : Bytes × JsonValue Bytes} {offset : Int} (hname : checkUtf8 f.1 = true)
    (hvalue : f.2.isEncodable = true) (h : Reads (decodeValue depth) (IsValue f.2) (f.2.text offset) rest) :
    Reads (field jsonStringDecode (decodeValue depth)) (IsField f) (fieldText offset f) rest := by
  -- What stands on either side of the colon is white space.
  obtain ⟨space, hspace, hcolon⟩ : ∃ space : Bytes, space.all isWhitespace = true ∧
      (if 0 ≤ offset then ascii " : " else ascii ":") = space ++ chr ':' :: space := by
    split
    · exact ⟨ascii " ", rfl, rfl⟩
    · exact ⟨[], rfl, rfl⟩
  intro p hp
  rw [fieldText, hcolon] at hp
  simp only [append_assoc, cons_append] at hp
  obtain ⟨slice, p1, hread1, hdata1, hfollows1, hsettled1⟩ := jsonStringDecode_reads hname _ p hp
  obtain ⟨hskip, hdata2⟩ := skipWhitespaces_eq hdata1 hspace rfl
  have hdata3 := congrArg (List.drop 1) hdata2
  rw [← data_advance, drop_succ_cons, drop_zero, ← append_assoc] at hdata3
  obtain ⟨value, p', hread2, hdata', hfollows2, hsettled2⟩ :=
    reads_space hspace (text_starts hvalue offset).1 h _ hdata3
  have hlater : Follows p1 p' := by
    exact ((follows_advance p1 _).trans (follows_advance _ 1)).trans hfollows2
  refine ⟨(slice, value), p', ?_, hdata', hfollows1.trans hlater, ?_⟩
  · simp [field, hread1, ok_bind, trySkip_cons hdata2, hread2]
  · intro buffer hbuffer
    exact ⟨hsettled1.later hlater buffer hbuffer, hsettled2 buffer hbuffer⟩

theorem number_settled {n : Bytes} (hp : p.data = n ++ rest) :
    Settled (p.advance n.length) fun buffer => IsValue (.number n) buffer (.number ⟨p.ptr, n.length⟩) := by
  intro buffer hbuffer
  have hread : (buffer.drop p.ptr).take n.length = n := by
    have hslice : (buffer.take (p.ptr + n.length)).drop p.ptr = n := by
      rw [show buffer.take (p.ptr + n.length) = p.buffer.take (p.ptr + n.length) from hbuffer, drop_take,
        Nat.add_sub_cancel_left, show p.buffer.drop p.ptr = n ++ rest from hp, take_left]
    rwa [drop_take, Nat.add_sub_cancel_left] at hslice
  rw [IsValue, map, Slice.read, hread]

theorem word_reads (value : JsonValue Slice) {P : Bytes → JsonValue Slice → Prop} (c : UInt8)
    {text : Bytes} (htext : text.head? = some c) (hc : isWhitespace c = false)
    (h : ∀ p : Parser, p.skipWhitespaces = p → p.peekChar = c → p.trySkipText text = some (p.advance text.length) →
      decodeValue (depth + 1) p = .ok (value, p.advance text.length))
    (hP : ∀ buffer, P buffer value) : Reads (decodeValue (depth + 1)) P text rest := by
  intro p hp
  obtain ⟨tail, rfl⟩ := List.head?_eq_some_iff.mp htext
  have hskip : p.skipWhitespaces = p := skipWhitespaces_token hp (by simp [startsToken, hc])
  exact ⟨value, _, h p hskip (peekChar_cons hp) (trySkipText_append hp), data_advance_length hp, follows_advance p _,
    fun buffer _ => hP buffer⟩

/-- **The text of a value is read back**, when the depth suffices. -/
theorem decodeValue_reads (hv : v.isEncodable = true) (hdepth : v.nesting ≤ depth)
    (offset : Int) (hrest : endsNumber rest = true) :
    Reads (decodeValue (depth + 1)) (IsValue v) (v.text offset) rest := by
  induction v using induction generalizing depth offset rest with
  | null =>
    rw [text]
    refine word_reads .null (chr 'n') rfl rfl ?_ fun _ => rfl
    intro p hskip hpeek hword
    rw [decodeValue, hskip, hpeek]
    rw [if_neg (by decide), if_neg (by decide), if_pos rfl, hword]
  | boolean b =>
    cases b with
    | false =>
      rw [text]
      refine word_reads (.boolean false) (chr 'f') rfl rfl ?_ fun _ => rfl
      intro p hskip hpeek hword
      grind [decodeValue]
    | true =>
      rw [text]
      refine word_reads (.boolean true) (chr 't') rfl rfl ?_ fun _ => rfl
      intro p hskip hpeek hword
      rw [decodeValue, hskip, hpeek]
      rw [if_neg (by decide), if_pos rfl, hword]
  | number n =>
    intro p hp
    have hstarts := startsToken_append (text_starts hv offset).1 rest
    obtain ⟨c, tail, hn, hstart, hall⟩ := number_cons hv
    have hdata : p.data = c :: (tail ++ rest) := by rw [hp, text, hn]; rfl
    have hcount : p.countWhile isNumberCharacter = n.length := by
      rw [countWhile, hp, text, takeWhile_token hall (by simpa [endsNumber] using hrest)]
    have hother : ∀ d, isNumberStart d = false → ¬ c = d := by
      rintro d hd rfl
      rw [hstart] at hd
      cases hd
    rw [decodeValue, skipWhitespaces_token hp hstarts, peekChar_cons hdata]
    simp only [if_neg (hother (chr 'f') rfl), if_neg (hother (chr 't') rfl), if_neg (hother (chr 'n') rfl),
      if_neg (hother (chr '"') rfl), if_neg (hother (chr '[') rfl), if_neg (hother (chr '\x7b') rfl), hstart, if_true,
      hcount]
    exact ⟨_, _, rfl, data_advance_length hp, follows_advance p _, number_settled hp⟩
  | string s =>
    intro p hp
    have hstarts := startsToken_append (text_starts hv offset).1 rest
    obtain ⟨tail, htail⟩ := stringText_cons hv
    have hdata : p.data = chr '"' :: (tail ++ rest) := by rw [hp, text, htail]; rfl
    obtain ⟨slice, p', hread, hdata', hfollows, hsettled⟩ := jsonStringDecode_reads hv rest p hp
    rw [decodeValue, skipWhitespaces_token hp hstarts, peekChar_cons hdata]
    refine ⟨.string slice, p', ?_, hdata', hfollows, hsettled.imp fun buffer h => ?_⟩
    · rw [hread]
      rfl
    · rw [IsValue, map, h]
  | array items ih =>
    intro p hp
    have hp' : p.data = chr '[' :: (joined (deeper offset) false (items.map (text (deeper offset))) ++
        (offsetText offset ++ chr ']' :: rest)) := by
      rw [hp, text, itemsText_eq]
      simp
    rw [isEncodable, encodableItems_iff] at hv
    rw [nesting] at hdepth
    have hitems : ∀ y ∈ items, ReadsItem (chr ']') (decodeValue depth) (IsValue y) (y.text (deeper offset)) := by
      intro y hy
      have hlt := nestingItems_lt hy
      obtain ⟨depth, rfl⟩ := Nat.exists_eq_succ_of_ne_zero (show depth ≠ 0 by omega)
      obtain ⟨hstarts, hclose⟩ := text_starts (hv y hy) (deeper offset)
      exact ⟨hstarts, hclose, fun rest hrest => ih y hy (hv y hy) (by omega) (deeper offset) hrest⟩
    obtain ⟨values, p', hread, hdata', hfollows, hsettled⟩ := bracketed_reads "Unexpected string end"
      (decodeError "Unexpected symbol while parsing JSON Array") (.inl rfl) items hitems hp'
    rw [decodeValue, skipWhitespaces_token hp' rfl, peekChar_cons hp']
    refine ⟨.array values, p', ?_, hdata', hfollows, hsettled.imp fun buffer h => ?_⟩
    · rw [hread]
      rfl
    · rw [IsValue, map, mapItems_eq h]
  | object fields ih =>
    intro p hp
    have hp' : p.data = chr '\x7b' :: (joined (deeper offset) false (fields.map (fieldText (deeper offset))) ++
        (offsetText offset ++ chr '\x7d' :: rest)) := by
      rw [hp, text, fieldsText_eq]
      simp
    rw [isEncodable, encodableFields_iff] at hv
    rw [nesting] at hdepth
    have hfields : ∀ y ∈ fields, ReadsItem (chr '\x7d') (field jsonStringDecode (decodeValue depth)) (IsField y)
        (fieldText (deeper offset) y) := by
      intro y hy
      have hlt := nestingFields_lt hy
      obtain ⟨depth, rfl⟩ := Nat.exists_eq_succ_of_ne_zero (show depth ≠ 0 by omega)
      obtain ⟨hname, hvalue⟩ := hv y hy
      obtain ⟨tail, htail⟩ := stringText_cons hname
      refine ⟨by rw [fieldText, htail]; rfl, by rw [fieldText, htail]; simp [chr], fun rest hrest => ?_⟩
      exact field_reads hname hvalue (ih y hy hvalue (by omega) (deeper offset) hrest)
    obtain ⟨values, p', hread, hdata', hfollows, hsettled⟩ := bracketed_reads "Unexpected string end"
      (decodeError "Unexpected symbol while parsing JSON Object") (.inr rfl) fields hfields hp'
    rw [decodeValue, skipWhitespaces_token hp' rfl, peekChar_cons hp']
    refine ⟨.object values, p', ?_, hdata', hfollows, hsettled.imp fun buffer h => ?_⟩
    · rw [hread]
      rfl
    · rw [IsValue, map, mapFields_eq h]

end

/-- **What `json_encode` writes, `json_decode` reads back**: every value with at
most 100 arrays and objects around any part of it, whose strings and names are
valid UTF-8 and whose numbers are such. No assertion of the encoder fails. -/
theorem jsonDecode_jsonEncode {v : JsonValue Bytes} (hv : v.isEncodable = true) (hnesting : v.nesting ≤ 100)
    (pretty : Bool) : ∃ text value buffer, jsonEncode v pretty = .ok text ∧ jsonDecode text = .ok (value, buffer) ∧
      value.map (Slice.read buffer) = v := by
  have hencode := jsonEncode_eq hv pretty
  generalize (if pretty then 0 else -1 : Int) = offset at hencode
  have hspace : (if pretty then ascii "\n" else []).all isWhitespace = true := by cases pretty <;> rfl
  have hends : endsNumber (if pretty then ascii "\n" else []) = true := by cases pretty <;> rfl
  generalize (if pretty then ascii "\n" else []) = rest at hencode hspace hends
  obtain ⟨value, p, hread, hdata, -, hsettled⟩ := decodeValue_reads hv hnesting offset hends
    ⟨v.text offset ++ rest, 0⟩ rfl
  have hend : p.skipWhitespaces.empty = true := by
    have htake : p.data.takeWhile isWhitespace = p.data := by
      rw [hdata]
      simpa using takeWhile_token hspace (show ([] : Bytes).head?.any isWhitespace = false from rfl)
    rw [empty, skipWhitespaces, data_advance, countWhile, htake, drop_length]
    rfl
  refine ⟨_, value, p.buffer, hencode, ?_, hsettled p.buffer rfl⟩
  simp [jsonDecode, doJsonDecode, hread, ok_bind, ensure_true hend]

/-- Two fields with an empty name, and a character that is written as a pair. -/
theorem jsonDecode_jsonEncode_fields : ∃ text value buffer,
      jsonEncode (.object [([], .array [.null, .number (ascii "-1.5"), .object []]),
        ([], .string [0xF0, 0x9F, 0x98, 0x80, 0x0A])]) true = .ok text ∧
      jsonDecode text = .ok (value, buffer) ∧
      value.map (Slice.read buffer) = .object [([], .array [.null, .number (ascii "-1.5"), .object []]),
        ([], .string [0xF0, 0x9F, 0x98, 0x80, 0x0A])] :=
  jsonDecode_jsonEncode (by decide) (by decide) true

end Tdlib.Json
