/-
Writing and reading JSON (`tdutils/td/utils/JsonBuilder.h`, `JsonBuilder.cpp`,
`Parser.h`).

A `StringBuilder` that owns its buffer grows as needed, so it is the bytes
written so far. The reader works on a buffer that it rewrites: a decoded string
is put over its own text, and the strings of a decoded value are slices of the
buffer.
-/
import Tdlib.Text.Misc
import Tdlib.Text.Utf8

namespace Tdlib.Json

open Text

/-! ## Values -/

/-- A JSON value. Its strings are bytes, or slices of a buffer. -/
inductive JsonValue (σ : Type) where
  | null
  | boolean (value : Bool)
  | number (value : σ)
  | string (value : σ)
  | array (items : List (JsonValue σ))
  | object (fields : List (σ × JsonValue σ))

/-- A range of a buffer. -/
structure Slice where
  pos : Nat
  size : Nat

/-- The bytes of a slice. -/
def Slice.read (buffer : Bytes) (slice : Slice) : Bytes := (buffer.drop slice.pos).take slice.size

/-! ## Writing -/

/-- `JsonBuilder`. A scope is known by its number; `made` is that of the next
one. -/
structure JsonBuilder where
  sb : Bytes
  scope : Option Nat
  offset : Int
  made : Nat

/-- `JsonScope`, with the scope that was the active one before it. -/
structure JsonScope where
  this : Nat
  saveScope : Option Nat

namespace JsonBuilder

def write (jb : JsonBuilder) (text : Bytes) : JsonBuilder := { jb with sb := jb.sb ++ text }

def isPretty (jb : JsonBuilder) : Bool := 0 ≤ jb.offset

/-- What `print_offset` writes. -/
def offsetText (offset : Int) : Bytes :=
  if 0 ≤ offset then chr '\n' :: (List.replicate offset.toNat (ascii "   ")).flatten else []

def printOffset (jb : JsonBuilder) : JsonBuilder := jb.write (offsetText jb.offset)

def decOffset (jb : JsonBuilder) : Outcome JsonBuilder :=
  if 0 ≤ jb.offset then do
    .check (0 < jb.offset)
    pure { jb with offset := jb.offset - 1 }
  else pure jb

def incOffset (jb : JsonBuilder) : JsonBuilder :=
  if 0 ≤ jb.offset then { jb with offset := jb.offset + 1 } else jb

end JsonBuilder

namespace JsonScope

def isActive (scope : JsonScope) (jb : JsonBuilder) : Bool := jb.scope = some scope.this

/-- `JsonScope(jb)`. -/
def enter (jb : JsonBuilder) : Outcome (JsonScope × JsonBuilder) := do
  let scope : JsonScope := { this := jb.made, saveScope := jb.scope }
  let jb := { jb with scope := some scope.this, made := jb.made + 1 }
  .check (scope.isActive jb)
  pure (scope, jb)

def leave (scope : JsonScope) (jb : JsonBuilder) : Outcome JsonBuilder := do
  .check (scope.isActive jb)
  pure { jb with scope := scope.saveScope }

end JsonScope

def lowerHexDigits : Bytes := ascii "0123456789abcdef"

/-- `JsonOneChar`. -/
def jsonOneChar (c : Nat) : Bytes :=
  [chr '\\', chr 'u', lowerHexDigits.getD (c >>> 12) 0, lowerHexDigits.getD ((c >>> 8) &&& 15) 0,
    lowerHexDigits.getD ((c >>> 4) &&& 15) 0, lowerHexDigits.getD (c &&& 15) 0]

/-- `JsonChar`. -/
def jsonChar (c : Nat) : Outcome Bytes :=
  if c < 0x10000 then
    if 0xD7FF < c ∧ c < 0xE000 then .fatal else .ok (jsonOneChar c)
  else if c ≤ 0x10ffff then .ok (jsonOneChar (0xD7C0 + (c >>> 10)) ++ jsonOneChar (0xDC00 + (c &&& 0x3FF)))
  else .fatal

/-- The loop of `operator<<(sb, JsonString)`, from one character on. -/
def jsonStringLoop : Bytes → Outcome Bytes
  | [] => .ok []
  | ch :: s =>
    if ch = chr '"' then do pure (ascii "\\\"" ++ (← jsonStringLoop s))
    else if ch = chr '\\' then do pure (ascii "\\\\" ++ (← jsonStringLoop s))
    else if ch = 8 then do pure (ascii "\\b" ++ (← jsonStringLoop s))
    else if ch = 12 then do pure (ascii "\\f" ++ (← jsonStringLoop s))
    else if ch = 10 then do pure (ascii "\\n" ++ (← jsonStringLoop s))
    else if ch = 13 then do pure (ascii "\\r" ++ (← jsonStringLoop s))
    else if ch = 9 then do pure (ascii "\\t" ++ (← jsonStringLoop s))
    else if ch.toNat ≤ 31 then do pure (jsonOneChar ch.toNat ++ (← jsonStringLoop s))
    else if 128 ≤ ch.toNat then do
      let a := ch.toNat
      .check (a &&& 0x40 ≠ 0)
      match s with
      | [] => .fatal
      | b :: s =>
        let b := b.toNat
        .check (b &&& 0xc0 = 0x80)
        if a &&& 0x20 = 0 then do
          .check (a &&& 0x1e > 0)
          let text ← jsonChar ((a &&& 0x1f) <<< 6 ||| (b &&& 0x3f))
          pure (text ++ (← jsonStringLoop s))
        else
          match s with
          | [] => .fatal
          | c :: s =>
            let c := c.toNat
            .check (c &&& 0xc0 = 0x80)
            if a &&& 0x10 = 0 then do
              .check ((a &&& 0x0f) ||| (b &&& 0x20) > 0)
              let text ← jsonChar ((a &&& 0x0f) <<< 12 ||| (b &&& 0x3f) <<< 6 ||| (c &&& 0x3f))
              pure (text ++ (← jsonStringLoop s))
            else
              match s with
              | [] => .fatal
              | d :: s =>
                let d := d.toNat
                .check (d &&& 0xc0 = 0x80)
                .check (a &&& 0x08 = 0)
                .check ((a &&& 0x07) ||| (b &&& 0x30) > 0)
                let text ←
                  jsonChar ((a &&& 0x07) <<< 18 ||| (b &&& 0x3f) <<< 12 ||| (c &&& 0x3f) <<< 6 ||| (d &&& 0x3f))
                pure (text ++ (← jsonStringLoop s))
    else do pure (ch :: (← jsonStringLoop s))

/-- `JsonString`. -/
def jsonString (s : Bytes) : Outcome Bytes := do
  pure (chr '"' :: (← jsonStringLoop s) ++ [chr '"'])

/-- `JsonValueScope::operator<<` of a text, in a scope with the flag `was_`. -/
def writeOnce (was : Bool) (text : Outcome Bytes) (jb : JsonBuilder) : Outcome JsonBuilder := do
  .check (was = false)
  pure (jb.write (← text))

mutual

/-- `JsonValue::store`. -/
def JsonValue.store (was : Bool) (jb : JsonBuilder) : JsonValue Bytes → Outcome JsonBuilder
  | .null => writeOnce was (.ok (ascii "null")) jb
  | .boolean true => writeOnce was (.ok (ascii "true")) jb
  | .boolean false => writeOnce was (.ok (ascii "false")) jb
  | .number value => writeOnce was (.ok value) jb
  | .string value => writeOnce was (jsonString value) jb
  | .array items => do
    .check (was = false)
    let (scope, jb) ← JsonScope.enter jb
    let jb ← storeItems scope false (jb.incOffset.write (ascii "[")) items
    scope.leave ((← jb.decOffset).printOffset.write (ascii "]"))
  | .object fields => do
    .check (was = false)
    let (scope, jb) ← JsonScope.enter jb
    let jb ← storeFields scope false (jb.incOffset.write (ascii "\x7b")) fields
    scope.leave ((← jb.decOffset).printOffset.write (ascii "\x7d"))

/-- `JsonArrayScope::operator()` for each of the items. -/
def storeItems (scope : JsonScope) (isFirst : Bool) (jb : JsonBuilder) : List (JsonValue Bytes) → Outcome JsonBuilder
  | [] => .ok jb
  | item :: items => do
    .check (scope.isActive jb)
    let jb := (if isFirst then jb.write (ascii ",") else jb).printOffset
    let (valueScope, jb) ← JsonScope.enter jb
    let jb ← item.store false jb
    storeItems scope true (← valueScope.leave jb) items

/-- `JsonObjectScope::operator()` for each of the fields. -/
def storeFields (scope : JsonScope) (isFirst : Bool) (jb : JsonBuilder) :
    List (Bytes × JsonValue Bytes) → Outcome JsonBuilder
  | [] => .ok jb
  | (name, value) :: fields => do
    .check (scope.isActive jb)
    let jb := (if isFirst then jb.write (ascii ",") else jb).printOffset
    let (nameScope, jb) ← JsonScope.enter jb
    let jb ← nameScope.leave (← writeOnce false (jsonString name) jb)
    let jb := jb.write (if jb.isPretty then ascii " : " else ascii ":")
    let (valueScope, jb) ← JsonScope.enter jb
    let jb ← value.store false jb
    storeFields scope true (← valueScope.leave jb) fields

end

/-- `json_encode`. -/
def jsonEncode (value : JsonValue Bytes) (pretty : Bool) : Outcome Bytes := do
  let jb : JsonBuilder := { sb := [], scope := none, offset := if pretty then 0 else -1, made := 0 }
  let (scope, jb) ← JsonScope.enter jb
  let jb ← scope.leave (← value.store false jb)
  pure (if pretty then jb.write (ascii "\n") else jb).sb

/-! ## Reading -/

/-- A `Parser` at `ptr` of its buffer. -/
structure Parser where
  buffer : Bytes
  ptr : Nat

namespace Parser

/-- What is not read yet. -/
def data (parser : Parser) : Bytes := parser.buffer.drop parser.ptr

def empty (parser : Parser) : Bool := parser.data.isEmpty

/-- The pointer moved, to a position that was seen not to be past the end. -/
def advance (parser : Parser) (diff : Nat) : Parser := { parser with ptr := parser.ptr + diff }

def peekChar (parser : Parser) : UInt8 := parser.data.headD 0

def trySkip (parser : Parser) (c : UInt8) : Option Parser :=
  if parser.data.head? = some c then some (parser.advance 1) else none

def trySkipText (parser : Parser) (text : Bytes) : Option Parser :=
  if parser.data.take text.length = text then some (parser.advance text.length) else none

/-- `read_while`, as the number of bytes read. -/
def countWhile (parser : Parser) (f : UInt8 → Bool) : Nat := (parser.data.takeWhile f).length

def isWhitespace (c : UInt8) : Bool := c == chr ' ' || c == chr '\t' || c == chr '\r' || c == chr '\n'

def skipWhitespaces (parser : Parser) : Parser := parser.advance (parser.countWhile isWhitespace)

end Parser

/-- Four hexadecimal digits. -/
def hexNumber (buffer : Bytes) (src : Nat) : Outcome Nat :=
  [0, 1, 2, 3].foldlM (fun num i => do
    let d := hexToInt (buffer.getD (src + i) 0)
    .ensure (d ≠ 16) "Invalid \\u -- not hex digit"
    pure (num * 16 + d)) 0

def IsSurrogate (num : Nat) : Prop := 0xD7FF < num ∧ num < 0xE000

instance : DecidablePred IsSurrogate := fun _ => inferInstanceAs (Decidable (_ ∧ _))

/-- The case `u` of `json_string_decode`, from the first digit on: the code and
where it ends. -/
def unicodeDecode (buffer : Bytes) (src : Nat) : Outcome (Nat × Nat) := do
  .ensure (src + 4 ≤ buffer.length) "\\u has less than 4 symbols"
  let num ← hexNumber buffer src
  let src := src + 4
  if IsSurrogate num ∧ src + 6 ≤ buffer.length ∧ buffer.getD src 0 = chr '\\' ∧
      buffer.getD (src + 1) 0 = chr 'u' then do
    let newNum ← hexNumber buffer (src + 2)
    if IsSurrogate newNum then pure (((num &&& 0x3FF) <<< 10 ||| (newNum &&& 0x3FF)) + 0x10000, src + 6)
    else pure (num, src)
  else pure (num, src)

/-- The `switch` of `json_string_decode` after a backslash: the bytes it writes
and where it goes on reading. -/
def escapeDecode (buffer : Bytes) (src : Nat) : Outcome (Bytes × Nat) :=
  let c := buffer.getD src 0
  if c = chr 'b' then .ok ([8], src + 1)
  else if c = chr 'f' then .ok ([12], src + 1)
  else if c = chr 'n' then .ok ([10], src + 1)
  else if c = chr 'r' then .ok ([13], src + 1)
  else if c = chr 't' then .ok ([9], src + 1)
  else if c = chr 'u' then do
    let (num, src) ← unicodeDecode buffer (src + 1)
    pure (appendUtf8Character [] num, src)
  else .ok ([c], src + 1)

/-- Bytes written from a position on. -/
def writeAt (buffer : Bytes) (dest : Nat) : Bytes → Bytes
  | [] => buffer
  | b :: bytes => writeAt (buffer.set dest b) (dest + 1) bytes

/-- The loop of `json_string_decode`: the buffer, the position of the closing
quote and that behind the last byte written. -/
def stringDecodeLoop : Nat → Bytes → Nat → Nat → Outcome (Bytes × Nat × Nat)
  | 0, _, _, _ => .fatal
  | fuel + 1, buffer, src, dest => do
    .ensure (src ≠ buffer.length) "Closing '\"' not found"
    let c := buffer.getD src 0
    if c = chr '"' then pure (buffer, src, dest)
    else if c = chr '\\' then do
      .ensure (src + 1 ≠ buffer.length) "Closing '\"' not found"
      let (bytes, src) ← escapeDecode buffer (src + 1)
      stringDecodeLoop fuel (writeAt buffer dest bytes) src (dest + bytes.length)
    else stringDecodeLoop fuel (buffer.set dest c) (src + 1) (dest + 1)

/-- `json_string_decode`. -/
def jsonStringDecode (parser : Parser) : Outcome (Slice × Parser) := do
  match parser.trySkip (chr '"') with
  | none => .error "Opening '\"' expected"
  | some parser =>
    let start := parser.ptr
    let (buffer, src, dest) ← stringDecodeLoop (parser.data.length + 1) parser.buffer start start
    .check (src + 1 ≤ buffer.length)
    pure ({ pos := start, size := dest - start }, { buffer, ptr := src + 1 })

/-- The case `u` of `json_string_skip`, from the first digit on. -/
def unicodeSkip (buffer : Bytes) (src : Nat) : Outcome Nat := do
  .ensure (src + 4 ≤ buffer.length) "\\u has less than 4 symbols"
  let num ← hexNumber buffer src
  let src := src + 4
  if IsSurrogate num ∧ src + 6 ≤ buffer.length ∧ buffer.getD src 0 = chr '\\' ∧
      buffer.getD (src + 1) 0 = chr 'u' then do
    let newNum ← hexNumber buffer (src + 2)
    if IsSurrogate newNum then pure (src + 6) else pure src
  else pure src

/-- The `switch` of `json_string_skip` after a backslash. -/
def escapeSkip (buffer : Bytes) (src : Nat) : Outcome Nat :=
  if buffer.getD src 0 = chr 'u' then unicodeSkip buffer (src + 1) else .ok (src + 1)

/-- The loop of `json_string_skip`: the position of the closing quote. -/
def stringSkipLoop (buffer : Bytes) : Nat → Nat → Outcome Nat
  | 0, _ => .fatal
  | fuel + 1, src => do
    .ensure (src ≠ buffer.length) "Closing '\"' not found"
    let c := buffer.getD src 0
    if c = chr '"' then pure src
    else if c = chr '\\' then do
      .ensure (src + 1 ≠ buffer.length) "Closing '\"' not found"
      stringSkipLoop buffer fuel (← escapeSkip buffer (src + 1))
    else stringSkipLoop buffer fuel (src + 1)

/-- `json_string_skip`. -/
def jsonStringSkip (parser : Parser) : Outcome (Unit × Parser) := do
  match parser.trySkip (chr '"') with
  | none => .error "Opening '\"' expected"
  | some parser =>
    let src ← stringSkipLoop parser.buffer (parser.data.length + 1) parser.ptr
    .check (src + 1 ≤ parser.buffer.length)
    pure ((), { parser with ptr := src + 1 })

/-- The loop over the items of an array or the fields of an object, up to the
closing bracket. It stops with one error at the end of the text and with
another one at anything else that is neither the bracket nor a comma. -/
def itemsLoop {α : Type} (close : UInt8) (atEnd : String) (atOther : Parser → String)
    (item : Parser → Outcome (α × Parser)) : Nat → List α → Parser → Outcome (List α × Parser)
  | 0, _, _ => .fatal
  | fuel + 1, res, parser => do
    .ensure (parser.empty = false) atEnd
    let (value, parser) ← item parser
    let parser := parser.skipWhitespaces
    match parser.trySkip close with
    | some parser => pure (res ++ [value], parser)
    | none =>
      match parser.trySkip (chr ',') with
      | some parser => itemsLoop close atEnd atOther item fuel (res ++ [value]) parser.skipWhitespaces
      | none => .error (atOther parser)

/-- The items between brackets, of which the opening one is at `parser`. -/
def bracketed {α : Type} (close : UInt8) (atEnd : String) (atOther : Parser → String)
    (item : Parser → Outcome (α × Parser)) (parser : Parser) : Outcome (List α × Parser) :=
  let parser := (parser.advance 1).skipWhitespaces
  match parser.trySkip close with
  | some parser => .ok ([], parser)
  | none => itemsLoop close atEnd atOther item (parser.data.length + 1) [] parser

/-- A field of an object: its name and its value. -/
def field {α β : Type} (name : Parser → Outcome (α × Parser)) (value : Parser → Outcome (β × Parser))
    (parser : Parser) : Outcome ((α × β) × Parser) := do
  let (key, parser) ← name parser
  match parser.skipWhitespaces.trySkip (chr ':') with
  | none => .error "':' expected"
  | some parser =>
    let (value, parser) ← value parser
    pure ((key, value), parser)

def isNumberStart (c : UInt8) : Bool := c == chr '-' || c == chr '+' || c == chr '.' || isDigit c

def isNumberCharacter (c : UInt8) : Bool :=
  c == chr '-' || isDigit c || c == chr 'e' || c == chr 'E' || c == chr '+' || c == chr '.'

/-- The error for a character that begins no value. -/
def unexpectedSymbol (c : UInt8) : String :=
  if 0 < c.toNat ∧ c.toNat < 127 then "Unexpected symbol '" ++ String.singleton (Char.ofNat c.toNat) ++ "'"
  else "Unexpected symbol"

/-- The error of `do_json_decode` after an item. -/
def decodeError (other : String) (parser : Parser) : String :=
  if parser.empty then "Unexpected string end" else other

/-- `do_json_decode`, for a depth that counts from one; zero stands for all
negative depths. -/
def decodeValue : Nat → Parser → Outcome (JsonValue Slice × Parser)
  | 0, _ => .error "Too big object depth"
  | depth + 1, parser =>
    let parser := parser.skipWhitespaces
    let c := parser.peekChar
    if c = chr 'f' then
      match parser.trySkipText (ascii "false") with
      | some parser => .ok (.boolean false, parser)
      | none => .error "Token starts with 'f' -- false expected"
    else if c = chr 't' then
      match parser.trySkipText (ascii "true") with
      | some parser => .ok (.boolean true, parser)
      | none => .error "Token starts with 't' -- true expected"
    else if c = chr 'n' then
      match parser.trySkipText (ascii "null") with
      | some parser => .ok (.null, parser)
      | none => .error "Token starts with 'n' -- null expected"
    else if c = chr '"' then do
      let (slice, parser) ← jsonStringDecode parser
      pure (.string slice, parser)
    else if c = chr '[' then do
      let (items, parser) ← bracketed (chr ']') "Unexpected string end"
        (decodeError "Unexpected symbol while parsing JSON Array") (decodeValue depth) parser
      pure (.array items, parser)
    else if c = chr '\x7b' then do
      let (fields, parser) ← bracketed (chr '\x7d') "Unexpected string end"
        (decodeError "Unexpected symbol while parsing JSON Object") (field jsonStringDecode (decodeValue depth)) parser
      pure (.object fields, parser)
    else if isNumberStart c then
      let size := parser.countWhile isNumberCharacter
      .ok (.number { pos := parser.ptr, size }, parser.advance size)
    else if c = 0 then .error "Unexpected string end"
    else .error (unexpectedSymbol c)

/-- `do_json_decode`. -/
def doJsonDecode (parser : Parser) (maxDepth : Int) : Outcome (JsonValue Slice × Parser) :=
  decodeValue (maxDepth + 1).toNat parser

/-- `do_json_skip`, for a depth that counts from one. -/
def skipValue : Nat → Parser → Outcome (Unit × Parser)
  | 0, _ => .error "Too big object depth"
  | depth + 1, parser =>
    let parser := parser.skipWhitespaces
    let c := parser.peekChar
    if c = chr 'f' then
      match parser.trySkipText (ascii "false") with
      | some parser => .ok ((), parser)
      | none => .error "Starts with 'f' -- false expected"
    else if c = chr 't' then
      match parser.trySkipText (ascii "true") with
      | some parser => .ok ((), parser)
      | none => .error "Starts with 't' -- true expected"
    else if c = chr 'n' then
      match parser.trySkipText (ascii "null") with
      | some parser => .ok ((), parser)
      | none => .error "Starts with 'n' -- null expected"
    else if c = chr '"' then jsonStringSkip parser
    else if c = chr '[' then do
      let (_, parser) ← bracketed (chr ']') "Unexpected end" (fun _ => "Unexpected symbol") (skipValue depth) parser
      pure ((), parser)
    else if c = chr '\x7b' then do
      let (_, parser) ← bracketed (chr '\x7d') "Unexpected end" (fun _ => "Unexpected symbol")
        (field jsonStringSkip (skipValue depth)) parser
      pure ((), parser)
    else if isNumberStart c then .ok ((), parser.advance (parser.countWhile isNumberCharacter))
    else if c = 0 then .error "Unexpected end"
    else .error (unexpectedSymbol c)

/-- `do_json_skip`. -/
def doJsonSkip (parser : Parser) (maxDepth : Int) : Outcome (Unit × Parser) :=
  skipValue (maxDepth + 1).toNat parser

/-- `json_decode`, with the buffer as it is left behind. -/
def jsonDecode (json : Bytes) : Outcome (JsonValue Slice × Bytes) := do
  let (value, parser) ← doJsonDecode { buffer := json, ptr := 0 } 100
  .ensure (parser.skipWhitespaces.empty = true) "Expected string end"
  pure (value, parser.buffer)

end Tdlib.Json
