/-
`do_json_decode` and `do_json_skip` accept the same texts and stop at the same
place (`doJsonDecode_agrees_doJsonSkip`), though one of them rewrites the buffer
that it reads.

The two go in step: `Same` says that they are at the same position and have the
same bytes before them, which is all that both of them look at.
-/
import Tdlib.Json.JsonBuilder

namespace Tdlib.Json

open Json.Parser
open List hiding pure_def
open Text Outcome

/-! ## Two parsers in step -/

/-- Two parsers that have the same bytes before them, at the same position. -/
structure Same (p q : Parser) : Prop where
  ptr : p.ptr = q.ptr
  within : p.ptr ≤ p.buffer.length
  length : p.buffer.length = q.buffer.length
  data : p.data = q.data

/-- Both calls have gone on to the same position, past that of `p`, and the first
of them in a buffer of the same length. -/
structure After {α β : Type} (p : Parser) (x : α × Parser) (y : β × Parser) : Prop where
  same : Same x.2 y.2
  passed : p.ptr < x.2.ptr
  length : x.2.buffer.length = p.buffer.length

section

variable {α β : Type} {p q : Parser}

theorem length_data (p : Parser) : p.data.length = p.buffer.length - p.ptr := length_drop

theorem data_advance (p : Parser) (n : Nat) : (p.advance n).data = p.data.drop n := by
  rw [data, data, drop_drop]
  rfl

theorem Same.advance (h : Same p q) {n : Nat} (hn : n ≤ p.data.length) : Same (p.advance n) (q.advance n) where
  ptr := congrArg (· + n) h.ptr
  within := by
    have hwithin := h.within
    rw [length_data] at hn
    show p.ptr + n ≤ p.buffer.length
    omega
  length := h.length
  data := by rw [data_advance, data_advance, h.data]

theorem Same.empty_eq (h : Same p q) : p.empty = q.empty := congrArg List.isEmpty h.data

theorem Same.skipWhitespaces (h : Same p q) : Same p.skipWhitespaces q.skipWhitespaces := by
  rw [Parser.skipWhitespaces, Parser.skipWhitespaces, Parser.countWhile, Parser.countWhile, ← h.data]
  exact h.advance ((takeWhile_sublist _).length_le)

theorem ptr_le_skipWhitespaces (p : Parser) : p.ptr ≤ p.skipWhitespaces.ptr := Nat.le_add_right ..

/-- Both see the character and step over it, or neither does. -/
theorem Same.trySkip (h : Same p q) (c : UInt8) : p.trySkip c = none ∧ q.trySkip c = none ∨
      p.trySkip c = some (p.advance 1) ∧ q.trySkip c = some (q.advance 1) ∧ Same (p.advance 1) (q.advance 1) := by
  rw [Parser.trySkip, Parser.trySkip, ← h.data]
  by_cases hc : p.data.head? = some c
  · rw [if_pos hc, if_pos hc]
    have hpos : 1 ≤ p.data.length := by
      cases hdata : p.data with
      | nil => rw [hdata] at hc; cases hc
      | cons => simp
    exact .inr ⟨rfl, rfl, h.advance hpos⟩
  · simp [hc]

theorem Same.trySkipText (h : Same p q) {text : Bytes} (htext : text ≠ []) :
    p.trySkipText text = none ∧ q.trySkipText text = none ∨
      ∃ n, 0 < n ∧ p.trySkipText text = some (p.advance n) ∧ q.trySkipText text = some (q.advance n) ∧
        Same (p.advance n) (q.advance n) := by
  rw [Parser.trySkipText, Parser.trySkipText, ← h.data]
  by_cases hc : p.data.take text.length = text
  · rw [if_pos hc, if_pos hc]
    have hle : text.length ≤ p.data.length := by
      have hlength := congrArg List.length hc
      rw [length_take] at hlength
      omega
    exact .inr ⟨text.length, length_pos_iff.mpr htext, rfl, rfl, h.advance hle⟩
  · simp [hc]

theorem After.mono {p' : Parser} {x : α × Parser} {y : β × Parser} (h : After p' x y) (hptr : p.ptr ≤ p'.ptr)
    (hlength : p'.buffer.length = p.buffer.length) : After p x y :=
  ⟨h.same, Nat.lt_of_le_of_lt hptr h.passed, h.length.trans hlength⟩

theorem After.advance {n : Nat} {a : α} {b : β} (h : Same (p.advance n) (q.advance n)) (hn : 0 < n) :
    After p (a, p.advance n) (b, q.advance n) := ⟨h, Nat.lt_add_of_pos_right hn, rfl⟩

end

/-! ## Strings -/

theorem length_writeAt (bytes buffer : Bytes) (dest : Nat) : (writeAt buffer dest bytes).length = buffer.length := by
  induction bytes generalizing buffer dest with
  | nil => rfl
  | cons b bytes ih => rw [writeAt, ih, List.length_set]

theorem drop_writeAt {bytes buffer : Bytes} {dest src : Nat} (h : dest + bytes.length ≤ src) :
    (writeAt buffer dest bytes).drop src = buffer.drop src := by
  induction bytes generalizing buffer dest with
  | nil => rfl
  | cons b bytes ih =>
    rw [length_cons] at h
    rw [writeAt, ih (by omega), drop_set_of_lt (by omega)]

/-- Two buffers with the same bytes from `src` on. -/
structure SameFrom (src : Nat) (buffer buffer' : Bytes) : Prop where
  length : buffer.length = buffer'.length
  drop : buffer.drop src = buffer'.drop src

namespace SameFrom

variable {src src' : Nat} {buffer buffer' : Bytes}

section

variable (h : SameFrom src buffer buffer')

include h

theorem later (hle : src ≤ src') : SameFrom src' buffer buffer' where
  length := h.length
  drop := by
    obtain ⟨k, rfl⟩ := Nat.exists_eq_add_of_le hle
    rw [← drop_drop, ← drop_drop, h.drop]

theorem getD {k : Nat} (hle : src ≤ k) : buffer.getD k 0 = buffer'.getD k 0 := by
  obtain ⟨j, rfl⟩ := Nat.exists_eq_add_of_le hle
  have hget : (buffer.drop src)[j]? = (buffer'.drop src)[j]? := by rw [h.drop]
  simp_all

theorem hexNumber (hle : src ≤ src') : hexNumber buffer src' = hexNumber buffer' src' := by
  have hget : ∀ i, buffer.getD (src' + i) 0 = buffer'.getD (src' + i) 0 := fun i => h.getD (by omega)
  simp only [Json.hexNumber, hget]

theorem unicodeDecode (hle : src ≤ src') : unicodeDecode buffer src' = unicodeDecode buffer' src' := by
  simp only [Json.unicodeDecode, h.length, h.hexNumber hle, h.hexNumber (show src ≤ src' + 4 + 2 by omega),
    h.getD (show src ≤ src' + 4 by omega), h.getD (show src ≤ src' + 4 + 1 by omega)]

theorem escapeDecode : escapeDecode buffer src = escapeDecode buffer' src := by
  simp only [Json.escapeDecode, h.getD (Nat.le_refl src), h.unicodeDecode (Nat.le_succ src)]

end

end SameFrom

theorem unicodeSkip_eq (buffer : Bytes) (src : Nat) :
    unicodeSkip buffer src = (do let (_, src) ← unicodeDecode buffer src; pure src) := by
  rw [unicodeSkip, unicodeDecode, bind_assoc]
  congr 1
  funext _
  rw [bind_assoc]
  congr 1
  funext num
  dsimp only
  split
  · rw [bind_assoc]
    congr 1
    funext newNum
    split <;> rfl
  · rfl

/-- `json_string_skip` goes as far as `json_string_decode` after a backslash. -/
theorem escapeSkip_eq (buffer : Bytes) (src : Nat) :
    escapeSkip buffer src = (do let (_, src) ← escapeDecode buffer src; pure src) := by
  rw [escapeSkip, escapeDecode, unicodeSkip_eq]
  by_cases hu : buffer.getD src 0 = chr 'u'
  · rw [if_pos hu, hu]
    simp only [show ¬ chr 'u' = chr 'b' by decide, show ¬ chr 'u' = chr 'f' by decide,
      show ¬ chr 'u' = chr 'n' by decide, show ¬ chr 'u' = chr 'r' by decide, show ¬ chr 'u' = chr 't' by decide,
      if_false, if_true, bind_assoc]
    rfl
  · rw [if_neg hu]
    simp only [hu, if_false]
    repeat' split
    all_goals rfl

theorem hexNumber_ne_fatal (buffer : Bytes) (src : Nat) : hexNumber buffer src ≠ .fatal := by
  have hstep : ∀ (is : List Nat) (num : Nat), is.foldlM (fun num i => do
      let d := hexToInt (buffer.getD (src + i) 0)
      Outcome.ensure (d ≠ 16) "Invalid \\u -- not hex digit"
      pure (num * 16 + d)) num ≠ Outcome.fatal := by
    intro is
    induction is with
    | nil => intro num; simp
    | cons i is ih =>
      intro num
      rw [foldlM_cons]
      refine bind_ne_fatal (bind_ne_fatal (ensure_ne_fatal _ _) fun _ _ => by simp) fun num' _ => ih num'
  exact hstep _ _

theorem length_appendUtf8Character (code : Nat) : (appendUtf8Character [] code).length ≤ 4 := by
  unfold appendUtf8Character
  repeat' split
  all_goals simp

/-- What `unicodeDecode` can do: nothing that aborts, and four digits or more. -/
theorem unicodeDecode_cases (buffer : Bytes) (src : Nat) : (∃ e, unicodeDecode buffer src = .error e) ∨
      ∃ num src', unicodeDecode buffer src = .ok (num, src') ∧ src + 4 ≤ src' ∧ src' ≤ buffer.length := by
  unfold unicodeDecode
  by_cases hlength : src + 4 ≤ buffer.length
  · rw [ensure_true hlength, ok_bind]
    cases hnum : hexNumber buffer src with
    | error e => exact .inl ⟨e, rfl⟩
    | fatal => exact absurd hnum (hexNumber_ne_fatal _ _)
    | ok num =>
      rw [ok_bind]
      dsimp only
      split
      next hpair =>
        cases hnew : hexNumber buffer (src + 4 + 2) with
        | error e => exact .inl ⟨e, rfl⟩
        | fatal => exact absurd hnew (hexNumber_ne_fatal _ _)
        | ok newNum =>
          rw [ok_bind]
          split
          · exact .inr ⟨_, _, rfl, by omega, hpair.2.1⟩
          · exact .inr ⟨_, _, rfl, by omega, hlength⟩
      next => exact .inr ⟨_, _, rfl, Nat.le_refl _, hlength⟩
  · simp [ensure, hlength]

/-- What follows a backslash is longer than what is written for it, the backslash
counted. -/
theorem escapeDecode_cases {buffer : Bytes} {src : Nat} (hsrc : src < buffer.length) :
    (∃ e, escapeDecode buffer src = .error e) ∨
      ∃ bytes src', escapeDecode buffer src = .ok (bytes, src') ∧ src < src' ∧ src' ≤ buffer.length ∧
        bytes.length ≤ src' - src := by
  have hone : ∀ b : UInt8, ∃ bytes src', Outcome.ok ([b], src + 1) = .ok (bytes, src') ∧ src < src' ∧
      src' ≤ buffer.length ∧ bytes.length ≤ src' - src :=
    fun b => ⟨[b], src + 1, rfl, by omega, hsrc, by simp⟩
  unfold escapeDecode
  dsimp only
  iterate 5
    split
    · exact .inr (hone _)
  split
  · rcases unicodeDecode_cases buffer (src + 1) with ⟨e, h⟩ | ⟨num, src', h, hlo, hhi⟩
    · simp [h]
    · rw [h, ok_bind]
      have hfour := length_appendUtf8Character num
      exact .inr ⟨appendUtf8Character [] num, src', rfl, by omega, hhi, by omega⟩
  · exact .inr (hone _)

/-- What the loops of the two string functions have in common when they stop. -/
structure Closed (buffer data : Bytes) (src : Nat) (x : Bytes × Nat × Nat) (y : Nat) : Prop where
  same : SameFrom x.2.1 x.1 data
  length : x.1.length = buffer.length
  pos : x.2.1 = y
  passed : src ≤ x.2.1
  within : x.2.1 < buffer.length

theorem Closed.mono {buffer buffer' data : Bytes} {src src' : Nat} {x : Bytes × Nat × Nat} {y : Nat}
    (h : Closed buffer' data src' x y) (hlength : buffer'.length = buffer.length) (hsrc : src ≤ src') :
    Closed buffer data src x y where
  same := h.same
  length := h.length.trans hlength
  pos := h.pos
  passed := Nat.le_trans hsrc h.passed
  within := hlength ▸ h.within

/-- The decoding loop writes behind the position it reads, so it sees what the
skipping loop sees. -/
theorem stringLoops_agree {buffer data : Bytes} {src dest fuel : Nat} (hsame : SameFrom src buffer data)
    (hdest : dest ≤ src) (hsrc : src ≤ buffer.length) (hfuel : buffer.length - src < fuel) :
    Agree (Closed buffer data src) (stringDecodeLoop fuel buffer src dest) (stringSkipLoop data fuel src) := by
  induction fuel generalizing buffer src dest with
  | zero => omega
  | succ fuel ih =>
    rw [stringDecodeLoop, stringSkipLoop]
    refine (agree_ensure (by rw [hsame.length]) ..).bind fun _ _ hend => ?_
    have hlt : src < buffer.length := by omega
    dsimp only
    rw [← hsame.getD (Nat.le_refl src)]
    by_cases hquote : buffer.getD src 0 = chr '"'
    · rw [if_pos hquote, if_pos hquote]
      exact ⟨hsame, rfl, rfl, Nat.le_refl _, hlt⟩
    rw [if_neg hquote, if_neg hquote]
    by_cases hback : buffer.getD src 0 = chr '\\'
    · rw [if_pos hback, if_pos hback]
      refine (agree_ensure (by rw [hsame.length]) ..).bind fun _ _ hend' => ?_
      have hnext := hsame.later (Nat.le_succ src)
      rw [escapeSkip_eq, ← hnext.escapeDecode]
      rcases escapeDecode_cases (show src + 1 < buffer.length by omega) with
        ⟨e, h⟩ | ⟨bytes, src', h, hlo, hhi, hsize⟩
      · rw [h]
        trivial
      · rw [h]
        simp only [ok_bind, pure_def]
        have hlength := length_writeAt bytes buffer dest
        have hsame' : SameFrom src' (writeAt buffer dest bytes) data :=
          ⟨hlength.trans hsame.length, by
            rw [drop_writeAt (by omega)]
            exact (hsame.later (by omega)).drop⟩
        exact (ih hsame' (by omega) (by omega) (by omega)).mono fun _ _ hc => hc.mono hlength (by omega)
    · rw [if_neg hback, if_neg hback]
      have hlength : (buffer.set dest (buffer.getD src 0)).length = buffer.length := List.length_set
      have hsame' : SameFrom (src + 1) (buffer.set dest (buffer.getD src 0)) data :=
        ⟨hlength.trans hsame.length, by
          rw [drop_set_of_lt (by omega)]
          exact (hsame.later (Nat.le_succ src)).drop⟩
      exact (ih hsame' (by omega) (by omega) (by omega)).mono fun _ _ hc => hc.mono hlength (Nat.le_succ src)

section

variable {α β : Type} {p q : Parser}

theorem jsonStrings_agree (h : Same p q) : Agree (After p) (jsonStringDecode p) (jsonStringSkip q) := by
  unfold jsonStringDecode jsonStringSkip
  rcases h.trySkip (chr '"') with ⟨hp, hq⟩ | ⟨hp, hq, hsame⟩
  · rw [hp, hq]
    trivial
  rw [hp, hq]
  dsimp only
  have hptr : (p.advance 1).ptr = (q.advance 1).ptr := hsame.ptr
  have hfrom : SameFrom (p.advance 1).ptr (p.advance 1).buffer (q.advance 1).buffer :=
    ⟨hsame.length, by
      have hdata := hsame.data
      rwa [data, data, ← hptr] at hdata⟩
  have hlength := length_data (p.advance 1)
  rw [← hptr, ← hsame.data]
  refine (stringLoops_agree hfrom (Nat.le_refl _) hsame.within (by omega)).bind fun x y hc => ?_
  obtain ⟨buffer, src, dest⟩ := x
  obtain ⟨hsame', hlen, hpos, hpassed, hin⟩ := hc
  dsimp only at hsame' hlen hpos hpassed hin
  subst hpos
  have hin' : src + 1 ≤ buffer.length := by omega
  have hpassed' : p.ptr + 1 ≤ src := hpassed
  rw [check_true hin', check_true (show src + 1 ≤ (q.advance 1).buffer.length by rw [← hsame'.length]; exact hin')]
  exact ⟨⟨rfl, hin', hsame'.length, (hsame'.later (Nat.le_succ src)).drop⟩, show p.ptr < src + 1 by omega, hlen⟩

/-! ## Values -/

section

variable {item : Parser → Outcome (α × Parser)} {item' : Parser → Outcome (β × Parser)}
    (hitem : ∀ {p q}, Same p q → Agree (After p) (item p) (item' q)) (close : UInt8) (atEnd atEnd' : String)
    (atOther atOther' : Parser → String)

include hitem close atEnd atEnd' atOther atOther'

/-- Items that are read in step are read in step one after another. -/
theorem itemsLoop_agree {fuel : Nat} {res : List α} {res' : List β} (h : Same p q) (hfuel : p.data.length < fuel) :
    Agree (After p) (itemsLoop close atEnd atOther item fuel res p)
      (itemsLoop close atEnd' atOther' item' fuel res' q) := by
  induction fuel generalizing p q res res' with
  | zero => omega
  | succ fuel ih =>
    rw [itemsLoop, itemsLoop]
    refine (agree_ensure (by rw [h.empty_eq]) ..).bind fun _ _ _ => ?_
    refine (hitem h).bind fun x y hxy => ?_
    dsimp only
    have hspace := hxy.same.skipWhitespaces
    have hpassed := Nat.lt_of_lt_of_le hxy.passed (ptr_le_skipWhitespaces x.2)
    have hlength : x.2.skipWhitespaces.buffer.length = p.buffer.length := hxy.length
    rcases hspace.trySkip close with ⟨hp, hq⟩ | ⟨hp, hq, hsame⟩
    · rw [hp, hq]
      rcases hspace.trySkip (chr ',') with ⟨hp, hq⟩ | ⟨hp, hq, hsame⟩
      · rw [hp, hq]
        trivial
      · rw [hp, hq]
        have hptr : p.ptr < (x.2.skipWhitespaces.advance 1).skipWhitespaces.ptr :=
          Nat.lt_of_lt_of_le (Nat.lt_succ_of_lt hpassed) (ptr_le_skipWhitespaces (x.2.skipWhitespaces.advance 1))
        have hlength' : (x.2.skipWhitespaces.advance 1).skipWhitespaces.buffer.length = p.buffer.length := hlength
        have hshorter : (x.2.skipWhitespaces.advance 1).skipWhitespaces.data.length < fuel := by
          have hwithin := hsame.skipWhitespaces.within
          rw [length_data] at hfuel ⊢
          omega
        exact (ih hsame.skipWhitespaces hshorter).mono fun _ _ hafter => hafter.mono hptr.le hlength'
    · rw [hp, hq]
      exact ⟨hsame, Nat.lt_succ_of_lt hpassed, hlength⟩

theorem bracketed_agree (h : Same p q) (hdata : 0 < p.data.length) :
    Agree (After p) (bracketed close atEnd atOther item p) (bracketed close atEnd' atOther' item' q) := by
  rw [bracketed, bracketed]
  have hspace := (h.advance hdata).skipWhitespaces
  have hptr : p.ptr < (p.advance 1).skipWhitespaces.ptr :=
    Nat.lt_of_lt_of_le (Nat.lt_succ_self _) (ptr_le_skipWhitespaces (p.advance 1))
  rcases hspace.trySkip close with ⟨hp, hq⟩ | ⟨hp, hq, hsame⟩
  · rw [hp, hq, ← hspace.data]
    exact (itemsLoop_agree hitem close _ _ _ _ hspace (Nat.lt_succ_self _)).mono fun _ _ hafter =>
      hafter.mono hptr.le rfl
  · rw [hp, hq]
    exact ⟨hsame, Nat.lt_succ_of_lt hptr, rfl⟩

end

theorem field_agree {value : Parser → Outcome (α × Parser)} {value' : Parser → Outcome (β × Parser)}
    (hvalue : ∀ {p q}, Same p q → Agree (After p) (value p) (value' q)) (h : Same p q) :
    Agree (After p) (field jsonStringDecode value p) (field jsonStringSkip value' q) := by
  rw [field, field]
  refine (jsonStrings_agree h).bind fun x y hxy => ?_
  have hspace := hxy.same.skipWhitespaces
  have hpassed := Nat.lt_of_lt_of_le hxy.passed (ptr_le_skipWhitespaces x.2)
  have hlength : (x.2.skipWhitespaces.advance 1).buffer.length = p.buffer.length := hxy.length
  dsimp only
  rcases hspace.trySkip (chr ':') with ⟨hp, hq⟩ | ⟨hp, hq, hsame⟩
  · rw [hp, hq]
    trivial
  · rw [hp, hq]
    refine (hvalue hsame).bind fun z w hzw => ?_
    have hafter := hzw.mono (Nat.le_succ_of_le hpassed.le) hlength
    exact ⟨hafter.same, hafter.passed, hafter.length⟩

theorem agree_map {γ δ : Type} {x : Outcome (α × Parser)} {y : Outcome (β × Parser)} (h : Agree (After p) x y)
    (f : α → γ) (g : β → δ) :
    Agree (After p) (do let r ← x; pure (f r.1, r.2)) (do let r ← y; pure (g r.1, r.2)) :=
  h.bind fun _ _ hafter => ⟨hafter.same, hafter.passed, hafter.length⟩

/-- A word that begins a value, and the error when the rest of it is not there. -/
theorem word_agree {text : Bytes} (htext : text ≠ []) (h : Same p q) (a : α) (b : β) (e e' : String) : Agree (After p)
      (match p.trySkipText text with | some parser => .ok (a, parser) | none => .error e)
      (match q.trySkipText text with | some parser => .ok (b, parser) | none => .error e') := by
  rcases h.trySkipText htext with ⟨hp, hq⟩ | ⟨n, hn, hp, hq, hsame⟩
  · rw [hp, hq]
    trivial
  · rw [hp, hq]
    exact .advance hsame hn

theorem isNumberCharacter_of_start {c : UInt8} (h : isNumberStart c = true) : isNumberCharacter c = true := by
  simp only [isNumberStart, isNumberCharacter, Bool.or_eq_true] at h ⊢
  tauto

theorem data_cons_of_peekChar {c : UInt8} (h : p.peekChar = c) (hc : c ≠ 0) : ∃ tail, p.data = c :: tail := by
  rw [peekChar] at h
  cases hdata : p.data with
  | nil =>
    rw [hdata] at h
    exact absurd h.symm hc
  | cons d tail =>
    simp [hdata, ← h]

/-- One call decodes a value and the other one skips it, or both return an error. -/
theorem values_agree (depth : Nat) (h : Same p q) : Agree (After p) (decodeValue depth p) (skipValue depth q) := by
  induction depth generalizing p q with
  | zero => trivial
  | succ depth ih =>
    rw [decodeValue, skipValue]
    have hspace := h.skipWhitespaces
    have hptr := ptr_le_skipWhitespaces p
    have hlength : p.skipWhitespaces.buffer.length = p.buffer.length := rfl
    have hpeek : q.skipWhitespaces.peekChar = p.skipWhitespaces.peekChar := by
      rw [peekChar, peekChar, hspace.data]
    generalize p.skipWhitespaces = p' at hspace hptr hlength hpeek ⊢
    generalize q.skipWhitespaces = q' at hspace hpeek ⊢
    dsimp only
    rw [hpeek]
    suffices hagree : Agree (After p') (_ : Outcome (JsonValue Slice × Parser)) _ from
      hagree.mono fun _ _ hafter => hafter.mono hptr hlength
    generalize hc : p'.peekChar = c
    iterate 3
      split
      · exact word_agree (by decide) hspace ..
    split
    · have hstrings := agree_map (jsonStrings_agree hspace) JsonValue.string id
      rwa [show (do let r ← jsonStringSkip q'; pure (id r.1, r.2)) = jsonStringSkip q' from bind_ok _] at hstrings
    have hdata (hc0 : c ≠ 0) : 0 < p'.data.length := by
      obtain ⟨tail, htail⟩ := data_cons_of_peekChar hc hc0
      simp [htail]
    split
    next hbracket =>
      have hvalue : ∀ {p q}, Same p q → Agree (After p) (decodeValue depth p) (skipValue depth q) :=
        fun hsame => ih hsame
      exact agree_map (bracketed_agree hvalue (chr ']') _ _ _ _ hspace (hdata (by rw [hbracket]; decide)))
        JsonValue.array fun _ => ()
    split
    next hbrace =>
      have hfield : ∀ {p q}, Same p q →
          Agree (After p) (field jsonStringDecode (decodeValue depth) p) (field jsonStringSkip (skipValue depth) q) :=
        fun hsame => field_agree (fun hsame => ih hsame) hsame
      exact agree_map (bracketed_agree hfield (chr '\x7d') _ _ _ _ hspace (hdata (by rw [hbrace]; decide)))
        JsonValue.object fun _ => ()
    split
    next hstart =>
      rw [countWhile, countWhile, ← hspace.data]
      have hpos : 0 < (p'.data.takeWhile isNumberCharacter).length := by
        obtain ⟨tail, htail⟩ := data_cons_of_peekChar hc (by rintro rfl; exact absurd hstart (by decide))
        simp [htail, takeWhile_cons_of_pos (isNumberCharacter_of_start hstart)]
      exact .advance (hspace.advance (takeWhile_sublist _).length_le) hpos
    split <;> trivial

end

/-- **The two parsers accept the same texts**, whatever the bytes and the depth,
and leave off at the same position. -/
theorem doJsonDecode_agrees_doJsonSkip (json : Bytes) (maxDepth : Int) :
    ((doJsonDecode ⟨json, 0⟩ maxDepth).isOk = true ↔ (doJsonSkip ⟨json, 0⟩ maxDepth).isOk = true) ∧
      ∀ value parser skipped parser', doJsonDecode ⟨json, 0⟩ maxDepth = .ok (value, parser) →
        doJsonSkip ⟨json, 0⟩ maxDepth = .ok (skipped, parser') → parser.ptr = parser'.ptr := by
  have hagree := values_agree (maxDepth + 1).toNat (p := ⟨json, 0⟩) ⟨rfl, Nat.zero_le _, rfl, rfl⟩
  refine ⟨by rw [doJsonDecode, doJsonSkip, hagree.isOk_eq], ?_⟩
  intro value parser skipped parser' hdecode hskip
  rw [doJsonDecode] at hdecode
  rw [doJsonSkip] at hskip
  rw [hdecode, hskip] at hagree
  exact hagree.same.ptr

end Tdlib.Json
