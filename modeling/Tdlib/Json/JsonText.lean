/-
The text that `json_encode` writes (`jsonEncode_eq`): each character of a string
in its own escaped form, the items of arrays and objects with separators and,
if the text is to be pretty, line breaks. No assertion of the scopes fails.
-/
import Tdlib.Json.JsonBuilder

namespace Tdlib.Json

open JsonScope
open List hiding pure_def
open Text Utf8 Outcome JsonBuilder JsonValue

/-! ## Trees -/

variable {σ : Type} {items : List (JsonValue Bytes)} {fields : List (Bytes × JsonValue Bytes)} {jb : JsonBuilder}
variable {v : JsonValue Bytes}

theorem JsonValue.induction {P : JsonValue σ → Prop} (null : P .null) (boolean : ∀ b, P (.boolean b))
    (number : ∀ n, P (.number n)) (string : ∀ s, P (.string s)) (array : ∀ items, (∀ v ∈ items, P v) → P (.array items))
    (object : ∀ fields, (∀ f ∈ fields, P f.2) → P (.object fields)) (v : JsonValue σ) : P v := by
  refine @rec σ P (fun items => ∀ v ∈ items, P v) (fun fields => ∀ f ∈ fields, P f.2) (fun f => P f.2)
    null boolean number string array object ?_ ?_ ?_ ?_ ?_ v
  · simp
  · intro v vs hv hvs
    simpa using ⟨hv, hvs⟩
  · simp
  · intro f fs hf hfs g hg
    rcases mem_cons.mp hg with rfl | hg
    · exact hf
    · exact hfs g hg
  · intro _ _ h
    exact h

mutual

/-- The greatest number of arrays and objects around a value of the tree. -/
def JsonValue.nesting {σ : Type} : JsonValue σ → Nat
  | .null | .boolean _ | .number _ | .string _ => 0
  | .array items => nestingItems items
  | .object fields => nestingFields fields

def nestingItems {σ : Type} : List (JsonValue σ) → Nat
  | [] => 0
  | v :: vs => max (v.nesting + 1) (nestingItems vs)

def nestingFields {σ : Type} : List (σ × JsonValue σ) → Nat
  | [] => 0
  | (_, v) :: fs => max (v.nesting + 1) (nestingFields fs)

end

/-- A number as it is written: number characters, of which the first one can
begin a number. -/
def isNumber (n : Bytes) : Bool := isNumberStart (n.headD 0) && n.all isNumberCharacter

mutual

/-- All strings are valid UTF-8, and all numbers are such. -/
def JsonValue.isEncodable : JsonValue Bytes → Bool
  | .null | .boolean _ => true
  | .number n => isNumber n
  | .string s => checkUtf8 s
  | .array items => encodableItems items
  | .object fields => encodableFields fields

def encodableItems : List (JsonValue Bytes) → Bool
  | [] => true
  | v :: vs => v.isEncodable && encodableItems vs

def encodableFields : List (Bytes × JsonValue Bytes) → Bool
  | [] => true
  | (name, v) :: fs => checkUtf8 name && v.isEncodable && encodableFields fs

end

theorem nestingItems_lt {items : List (JsonValue σ)} {v : JsonValue σ} (h : v ∈ items) :
    v.nesting < nestingItems items := by
  induction items with
  | nil => cases h
  | cons w items ih =>
    rw [nestingItems]
    rcases mem_cons.mp h with rfl | h
    · omega
    · have := ih h
      omega

theorem nestingFields_lt {fields : List (σ × JsonValue σ)} {f : σ × JsonValue σ} (h : f ∈ fields) :
    f.2.nesting < nestingFields fields := by
  induction fields with
  | nil => cases h
  | cons g fields ih =>
    obtain ⟨name, w⟩ := g
    rw [nestingFields]
    rcases mem_cons.mp h with rfl | h
    · exact Nat.lt_of_lt_of_le (Nat.lt_succ_self _) (Nat.le_max_left ..)
    · exact Nat.lt_of_lt_of_le (ih h) (Nat.le_max_right ..)

theorem encodableItems_iff : encodableItems items = true ↔ ∀ v ∈ items, v.isEncodable = true := by
  induction items with
  | nil => simp [encodableItems]
  | cons v items ih => simp [encodableItems, ih]

theorem encodableFields_iff :
    encodableFields fields = true ↔ ∀ f ∈ fields, checkUtf8 f.1 = true ∧ f.2.isEncodable = true := by
  induction fields with
  | nil => simp [encodableFields]
  | cons f fields ih =>
    obtain ⟨name, v⟩ := f
    simp [encodableFields, ih]

/-! ## Strings -/

/-- What is written for a byte of one character. -/
def escapeAscii (ch : UInt8) : Bytes :=
  if ch = chr '"' then ascii "\\\""
  else if ch = chr '\\' then ascii "\\\\"
  else if ch = 8 then ascii "\\b"
  else if ch = 12 then ascii "\\f"
  else if ch = 10 then ascii "\\n"
  else if ch = 13 then ascii "\\r"
  else if ch = 9 then ascii "\\t"
  else if ch.toNat ≤ 31 then jsonOneChar ch.toNat
  else [ch]

/-- What is written for a character. -/
def escapeChar (c : Char) : Bytes :=
  if c.toNat < 0x80 then escapeAscii (UInt8.ofNat c.toNat)
  else if c.toNat < 0x10000 then jsonOneChar c.toNat
  else jsonOneChar (0xD7C0 + (c.toNat >>> 10)) ++ jsonOneChar (0xDC00 + (c.toNat &&& 0x3FF))

theorem jsonChar_toNat {c : Char} (h : 0x80 ≤ c.toNat) : jsonChar c.toNat = .ok (escapeChar c) := by
  have hc := toNat_ranges c
  rw [jsonChar, escapeChar, if_neg (show ¬ c.toNat < 0x80 by omega)]
  by_cases hsmall : c.toNat < 0x10000
  · rw [if_pos hsmall, if_pos hsmall, if_neg (by omega)]
  · rw [if_neg hsmall, if_neg hsmall, if_pos (by omega)]

theorem jsonStringLoop_ascii {a : UInt8} (ha : a.toNat < 0x80) (s : Bytes) :
    jsonStringLoop (a :: s) = (jsonStringLoop s >>= fun text => .ok (escapeAscii a ++ text)) := by
  have hlast : ¬ 128 ≤ a.toNat := by omega
  rw [jsonStringLoop.eq_def, escapeAscii]
  simp only [if_neg hlast]
  repeat' split
  all_goals rfl

/-- No case before the last one takes a byte of a longer character. -/
theorem high_byte {a : UInt8} (h : 0x80 ≤ a.toNat) :
    ¬ a = chr '"' ∧ ¬ a = chr '\\' ∧ ¬ a = 8 ∧ ¬ a = 12 ∧ ¬ a = 10 ∧ ¬ a = 13 ∧ ¬ a = 9 ∧ ¬ a.toNat ≤ 31 := by
  have hne : ∀ b : UInt8, b.toNat < 0x80 → ¬ a = b := by
    rintro b hb rfl
    omega
  exact ⟨hne _ (by decide), hne _ (by decide), hne _ (by decide), hne _ (by decide), hne _ (by decide),
    hne _ (by decide), hne _ (by decide), by omega⟩

theorem or_pos_of_three {a b : UInt8} (lead : 0xE0 ≤ a.toNat ∧ a.toNat < 0xF0) (second : Trail b)
    (shortest : a.toNat = 0xE0 → 0xA0 ≤ b.toNat) : (a.toNat &&& 0x0f) ||| (b.toNat &&& 0x20) > 0 := by
  obtain ⟨hb1, hb2⟩ := second
  rw [gt_iff_lt, Nat.pos_iff_ne_zero, ne_eq, Nat.or_eq_zero_iff, (lead_values _ a.toNat_lt).2.1 lead.1 lead.2,
    ((trail_masks _ b.toNat_lt).2 hb1 hb2).2.1]
  rintro ⟨ha, hb⟩
  have := shortest (by omega)
  omega

theorem or_pos_of_four {a b : UInt8} (lead : 0xF0 ≤ a.toNat ∧ a.toNat < 0xF5) (second : Trail b)
    (shortest : a.toNat = 0xF0 → 0x90 ≤ b.toNat) : (a.toNat &&& 0x07) ||| (b.toNat &&& 0x30) > 0 := by
  obtain ⟨hb1, hb2⟩ := second
  rw [gt_iff_lt, Nat.pos_iff_ne_zero, ne_eq, Nat.or_eq_zero_iff,
    (lead_values _ a.toNat_lt).2.2.1 lead.1 (by omega), ((trail_masks _ b.toNat_lt).2 hb1 hb2).2.2]
  rintro ⟨ha, hb⟩
  have := shortest (by omega)
  omega

/-- A character of a string is written in its escaped form. -/
theorem jsonStringLoop_spells {c : Char} {bs : Bytes} (h : Spells c bs) (s : Bytes) :
    jsonStringLoop (bs ++ s) = (jsonStringLoop s >>= fun text => .ok (escapeChar c ++ text)) := by
  cases h with
  | one a v lead =>
    rw [singleton_append, jsonStringLoop_ascii lead, escapeChar, v, if_pos lead, UInt8.ofNat_toNat]
  | two a b v lead second =>
    obtain ⟨-, h1, h2⟩ := (lead_masks _ a.toNat_lt).2.1.mpr (by omega)
    have h3 : a.toNat &&& 0x1e > 0 := ((lead_values _ a.toNat_lt).1 (by omega) (by omega)).2.mpr lead.1
    obtain ⟨n1, n2, n3, n4, n5, n6, n7, n8⟩ := high_byte (show 0x80 ≤ a.toNat by omega)
    have hchar := jsonChar_toNat (c := c) (by omega)
    rw [cons_append, singleton_append, jsonStringLoop.eq_def]
    simp only [n1, n2, n3, n4, n5, n6, n7, n8, if_false, if_pos (show 128 ≤ a.toNat by omega), h2, if_true,
      check_true h1, check_true h3, check_true ((mask_trail_iff b).mpr second), ok_bind, code_two lead second, ← v,
      hchar]
    rfl
  | three a b d v lead second third shortest scalar =>
    obtain ⟨-, h1, h2, h3⟩ := (lead_masks _ a.toNat_lt).2.2.1.mpr lead
    have h4 := or_pos_of_three lead second shortest
    obtain ⟨n1, n2, n3, n4, n5, n6, n7, n8⟩ := high_byte (show 0x80 ≤ a.toNat by omega)
    have hlow : 0x80 ≤ c.toNat := by
      have := second.1
      omega
    rw [cons_append, cons_append, singleton_append, jsonStringLoop.eq_def]
    simp only [n1, n2, n3, n4, n5, n6, n7, n8, if_false, if_pos (show 128 ≤ a.toNat by omega), h2, h3, if_true,
      check_true h1, check_true h4, check_true ((mask_trail_iff b).mpr second),
      check_true ((mask_trail_iff d).mpr third), ok_bind, code_three lead second third, ← v, jsonChar_toNat hlow]
    rfl
  | four a b d e v lead second third fourth shortest scalar =>
    obtain ⟨-, h1, h2, h3, h4⟩ := (lead_masks _ a.toNat_lt).2.2.2.mpr (by omega)
    have h5 := or_pos_of_four lead second shortest
    obtain ⟨n1, n2, n3, n4, n5, n6, n7, n8⟩ := high_byte (show 0x80 ≤ a.toNat by omega)
    have hlow : 0x80 ≤ c.toNat := by
      have := second.1
      omega
    rw [cons_append, cons_append, cons_append, singleton_append, jsonStringLoop.eq_def]
    simp only [n1, n2, n3, n4, n5, n6, n7, n8, if_false, if_pos (show 128 ≤ a.toNat by omega), h2, h3,
      check_true h1, check_true h4, check_true h5, check_true ((mask_trail_iff b).mpr second),
      check_true ((mask_trail_iff d).mpr third), check_true ((mask_trail_iff e).mpr fourth), ok_bind,
      code_four lead second third fourth, ← v, jsonChar_toNat hlow]
    rfl

theorem jsonStringLoop_encode (cs : List Char) : jsonStringLoop (encode cs) = .ok (cs.flatMap escapeChar) := by
  induction cs with
  | nil => rw [encode_nil, jsonStringLoop.eq_def]; rfl
  | cons c cs ih => rw [encode_cons, jsonStringLoop_spells (spells_utf8EncodeChar c), ih, ok_bind, flatMap_cons]

/-! ## The whole text -/

/-- The indentation within an array or an object. -/
def deeper (offset : Int) : Int := if 0 ≤ offset then offset + 1 else offset

/-- The text of a string. -/
def stringText (s : Bytes) : Bytes := (jsonString s).getD []

mutual

/-- The text of a value that is indented by `offset`. -/
def JsonValue.text (offset : Int) : JsonValue Bytes → Bytes
  | .null => ascii "null"
  | .boolean true => ascii "true"
  | .boolean false => ascii "false"
  | .number n => n
  | .string s => stringText s
  | .array items => chr '[' :: (itemsText (deeper offset) false items ++ (offsetText offset ++ [chr ']']))
  | .object fields =>
    chr '\x7b' :: (fieldsText (deeper offset) false fields ++ (offsetText offset ++ [chr '\x7d']))

def itemsText (offset : Int) (isFirst : Bool) : List (JsonValue Bytes) → Bytes
  | [] => []
  | v :: vs =>
    (if isFirst then ascii "," else []) ++
      (offsetText offset ++ (v.text offset ++ itemsText offset true vs))

def fieldsText (offset : Int) (isFirst : Bool) : List (Bytes × JsonValue Bytes) → Bytes
  | [] => []
  | (name, v) :: fs =>
    (if isFirst then ascii "," else []) ++ (offsetText offset ++
      (stringText name ++ ((if 0 ≤ offset then ascii " : " else ascii ":") ++
        (v.text offset ++ fieldsText offset true fs))))

end

theorem jsonString_eq {s : Bytes} (h : checkUtf8 s = true) : jsonString s = .ok (stringText s) := by
  obtain ⟨cs, rfl⟩ := checkUtf8_iff.mp h
  rw [stringText, jsonString, jsonStringLoop_encode]
  rfl

theorem stringText_encode (cs : List Char) :
    stringText (encode cs) = chr '"' :: (cs.flatMap escapeChar ++ [chr '"']) := by
  rw [stringText, jsonString, jsonStringLoop_encode]
  rfl

/-- `jb'` is `jb` after `text` was written to it, with all scopes left again. -/
structure Wrote (jb : JsonBuilder) (text : Bytes) (jb' : JsonBuilder) : Prop where
  sb : jb'.sb = jb.sb ++ text
  scope : jb'.scope = jb.scope
  offset : jb'.offset = jb.offset

theorem Wrote.trans {jb1 jb2 jb3 : JsonBuilder} {text text' : Bytes} (h : Wrote jb1 text jb2)
    (h' : Wrote jb2 text' jb3) : Wrote jb1 (text ++ text') jb3 where
  sb := by rw [h'.sb, h.sb, append_assoc]
  scope := h'.scope.trans h.scope
  offset := h'.offset.trans h.offset

theorem wrote_write (jb : JsonBuilder) (text : Bytes) : Wrote jb text (jb.write text) := ⟨rfl, rfl, rfl⟩

theorem wrote_separator (jb : JsonBuilder) (isFirst : Bool) :
    Wrote jb ((if isFirst then ascii "," else []) ++ offsetText jb.offset)
      (if isFirst then jb.write (ascii ",") else jb).printOffset := by
  cases isFirst with
  | true => exact (wrote_write jb _).trans (wrote_write _ _)
  | false => exact wrote_write jb _

theorem enter_eq (jb : JsonBuilder) :
    enter jb = .ok (⟨jb.made, jb.scope⟩, { jb with scope := some jb.made, made := jb.made + 1 }) := by
  rw [enter]
  simp [isActive]

theorem leave_eq {scope : JsonScope} (h : jb.scope = some scope.this) :
    scope.leave jb = .ok { jb with scope := scope.saveScope } := by
  rw [leave]
  simp [isActive, h]

theorem enter_value_wrote {text : Bytes} {store : JsonBuilder → Outcome JsonBuilder}
    (h : ∀ jb1, jb1.offset = jb.offset → ∃ jb2, store jb1 = .ok jb2 ∧ Wrote jb1 text jb2) :
    ∃ scope jb1 jb2 jb3, enter jb = .ok (scope, jb1) ∧ store jb1 = .ok jb2 ∧ scope.leave jb2 = .ok jb3 ∧
      Wrote jb text jb3 := by
  obtain ⟨jb2, hstore, hwrote⟩ := h { jb with scope := some jb.made, made := jb.made + 1 } rfl
  exact ⟨_, _, jb2, _, enter_eq jb, hstore, leave_eq hwrote.scope, hwrote.sb, rfl, hwrote.offset⟩

theorem incOffset_eq (jb : JsonBuilder) : jb.incOffset = { jb with offset := deeper jb.offset } := by
  rw [incOffset, deeper]
  split <;> rfl

theorem decOffset_eq {offset : Int} (h : jb.offset = deeper offset) : jb.decOffset = .ok { jb with offset } := by
  obtain ⟨sb, scope, offset', made⟩ := jb
  obtain rfl : offset' = deeper offset := h
  rw [decOffset, deeper]
  dsimp only
  split
  next hpretty =>
    grind [check_true, ok_bind, pure_def]
  next => rfl

theorem storeItems_wrote
    (hitems : ∀ v ∈ items, ∀ jb, ∃ jb', v.store false jb = .ok jb' ∧ Wrote jb (v.text jb.offset) jb')
    (scope : JsonScope) (isFirst : Bool) (jb : JsonBuilder) (hactive : jb.scope = some scope.this) :
    ∃ jb', storeItems scope isFirst jb items = .ok jb' ∧ Wrote jb (itemsText jb.offset isFirst items) jb' := by
  induction items generalizing jb isFirst with
  | nil => exact ⟨jb, by rw [storeItems], by rw [itemsText]; exact ⟨(append_nil _).symm, rfl, rfl⟩⟩
  | cons v items ih =>
    rw [storeItems, check_true (by simpa [isActive] using hactive), ok_bind]
    have hsep := wrote_separator jb isFirst
    generalize (if isFirst then jb.write (ascii ",") else jb).printOffset = jb0 at hsep ⊢
    have hvalue : ∀ jb1, jb1.offset = jb0.offset →
        ∃ jb2, v.store false jb1 = .ok jb2 ∧ Wrote jb1 (v.text jb.offset) jb2 := by
      intro jb1 hoffset
      simp [← hsep.offset, ← hoffset, hitems]
    obtain ⟨value, jb1, jb2, jb3, henter, hstore, hleave, hwrote⟩ := enter_value_wrote hvalue
    have hfirst := hsep.trans hwrote
    obtain ⟨jb', hrest, hwrote'⟩ := ih (fun w hw => hitems w (mem_cons_of_mem _ hw)) true jb3
      (hfirst.scope.trans hactive)
    rw [hfirst.offset] at hwrote'
    refine ⟨jb', ?_, ?_⟩
    · simp [henter, hstore, hleave, ok_bind, hrest]
    · rw [itemsText, ← append_assoc, ← append_assoc]
      exact hfirst.trans hwrote'

theorem storeFields_wrote (hnames : ∀ f ∈ fields, checkUtf8 f.1 = true)
    (hvalues : ∀ f ∈ fields, ∀ jb, ∃ jb', f.2.store false jb = .ok jb' ∧ Wrote jb (f.2.text jb.offset) jb')
    (scope : JsonScope) (isFirst : Bool) (jb : JsonBuilder) (hactive : jb.scope = some scope.this) :
    ∃ jb', storeFields scope isFirst jb fields = .ok jb' ∧ Wrote jb (fieldsText jb.offset isFirst fields) jb' := by
  induction fields generalizing jb isFirst with
  | nil => exact ⟨jb, by rw [storeFields], by rw [fieldsText]; exact ⟨(append_nil _).symm, rfl, rfl⟩⟩
  | cons f fields ih =>
    obtain ⟨name, v⟩ := f
    rw [storeFields, check_true (by simpa [isActive] using hactive), ok_bind]
    have hsep := wrote_separator jb isFirst
    generalize (if isFirst then jb.write (ascii ",") else jb).printOffset = jb0 at hsep ⊢
    have hname : ∀ jb1, jb1.offset = jb0.offset →
        ∃ jb2, writeOnce false (jsonString name) jb1 = .ok jb2 ∧ Wrote jb1 (stringText name) jb2 := by
      intro jb1 _
      rw [jsonString_eq (hnames (name, v) mem_cons_self)]
      exact ⟨_, rfl, wrote_write jb1 _⟩
    obtain ⟨nameScope, jb1, jb2, jb3, henter, hstore, hleave, hwrote⟩ := enter_value_wrote hname
    have hfirst := (hsep.trans hwrote).trans (wrote_write jb3 (if jb3.isPretty then ascii " : " else ascii ":"))
    have hpretty : (if jb3.isPretty then ascii " : " else ascii ":") =
        if 0 ≤ jb.offset then ascii " : " else ascii ":" := by
      rw [isPretty, (hsep.trans hwrote).offset]
      simp
    generalize hcolon : jb3.write (if jb3.isPretty then ascii " : " else ascii ":") = jb4 at hfirst
    have hvalue : ∀ jb5, jb5.offset = jb4.offset →
        ∃ jb6, v.store false jb5 = .ok jb6 ∧ Wrote jb5 (v.text jb.offset) jb6 := by
      intro jb5 hoffset
      rw [← hfirst.offset, ← hoffset]
      exact hvalues (name, v) mem_cons_self jb5
    obtain ⟨valueScope, jb5, jb6, jb7, henter', hstore', hleave', hwrote'⟩ := enter_value_wrote hvalue
    have hsecond := hfirst.trans hwrote'
    obtain ⟨jb', hrest, hwrote''⟩ := ih (fun w hw => hnames w (mem_cons_of_mem _ hw))
      (fun w hw => hvalues w (mem_cons_of_mem _ hw)) true jb7 (hsecond.scope.trans hactive)
    rw [hsecond.offset] at hwrote''
    refine ⟨jb', ?_, ?_⟩
    · simp [henter, hstore, hleave, ok_bind, hcolon, henter', hstore', hleave', hrest]
    · have hall := hsecond.trans hwrote''
      simpa [hpretty, fieldsText, append_assoc] using hall

/-- **What `store` writes**: the text of the value. No assertion fails. -/
theorem store_wrote (hv : v.isEncodable = true) (jb : JsonBuilder) :
    ∃ jb', v.store false jb = .ok jb' ∧ Wrote jb (v.text jb.offset) jb' := by
  induction v using induction generalizing jb with
  | null | number => exact ⟨_, rfl, wrote_write jb _⟩
  | boolean b => cases b <;> exact ⟨_, rfl, wrote_write jb _⟩
  | string s =>
    rw [store, jsonString_eq hv]
    exact ⟨_, rfl, wrote_write jb _⟩
  | array items ih =>
    rw [isEncodable, encodableItems_iff] at hv
    rw [store, check_true rfl, ok_bind, enter_eq, ok_bind]
    dsimp only
    rw [incOffset_eq]
    obtain ⟨jb1, hitems, hwrote⟩ := storeItems_wrote (fun v hmem jb => ih v hmem (hv v hmem) jb) ⟨jb.made, jb.scope⟩
      false (write ⟨jb.sb, some jb.made, deeper jb.offset, jb.made + 1⟩ (ascii "[")) rfl
    rw [hitems, ok_bind, decOffset_eq hwrote.offset, ok_bind, leave_eq hwrote.scope]
    refine ⟨_, rfl, ?_, rfl, rfl⟩
    simp [write, printOffset, hwrote.sb, text, ascii]
  | object fields ih =>
    rw [isEncodable, encodableFields_iff] at hv
    rw [store, check_true rfl, ok_bind, enter_eq, ok_bind]
    dsimp only
    rw [incOffset_eq]
    obtain ⟨jb1, hfields, hwrote⟩ := storeFields_wrote (fun f hmem => (hv f hmem).1)
      (fun f hmem jb => ih f hmem (hv f hmem).2 jb) ⟨jb.made, jb.scope⟩ false
      (write ⟨jb.sb, some jb.made, deeper jb.offset, jb.made + 1⟩ (ascii "\x7b")) rfl
    rw [hfields, ok_bind, decOffset_eq hwrote.offset, ok_bind, leave_eq hwrote.scope]
    refine ⟨_, rfl, ?_, rfl, rfl⟩
    simp [write, printOffset, hwrote.sb, text, ascii]

/-- **What `json_encode` returns.** -/
theorem jsonEncode_eq (hv : v.isEncodable = true) (pretty : Bool) :
    jsonEncode v pretty = .ok (v.text (if pretty then 0 else -1) ++ if pretty then ascii "\n" else []) := by
  rw [jsonEncode]
  generalize hoffset : (if pretty then 0 else -1 : Int) = offset
  have hvalue : ∀ jb1 : JsonBuilder, jb1.offset = (mk [] none offset 0).offset →
      ∃ jb2, v.store false jb1 = .ok jb2 ∧ Wrote jb1 (v.text offset) jb2 := by
    intro jb1 hjb1
    have hstore := store_wrote hv jb1
    rwa [hjb1] at hstore
  obtain ⟨scope, jb1, jb2, jb3, henter, hstore, hleave, hwrote⟩ := enter_value_wrote hvalue
  have hsb : jb3.sb = v.text offset := hwrote.sb
  simp only [henter, hstore, hleave, ok_bind, pure_def]
  cases pretty <;> simp [write, hsb]

end Tdlib.Json
