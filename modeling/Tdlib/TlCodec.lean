/-
Values of any shape in the TL wire format: the templates `store` and `parse` of
`tl_helpers.h` over the two storers of `tl_storers.h` and over `TlParser`.

`serialize` makes two passes over a value with the same code, one that counts
bytes and one that writes them. What they have in common is `Shape.store`, which
is told by a `Storer` what a fixed-width value and a string add.
-/
import Mathlib.Data.List.FinRange
import Tdlib.TlObject

namespace Tdlib

open BitVec hiding append_assoc
open Outcome TlParser List

namespace TlCodec

/-! ## The two storers -/

/-- What a storer does with a value of fixed width, given as its bytes, and with
a string. -/
structure Storer (σ : Type) where
  storeBinary : Bytes → σ → σ
  storeString : Bytes → σ → Outcome σ

/-- `TlStorerUnsafe`, by the bytes written so far. -/
def tlStorerUnsafe : Storer Bytes where
  storeBinary bytes written := written ++ bytes
  storeString str written := do
    let bytes ← storeString str
    pure (written ++ bytes)

/-- `TlStorerCalcLength::store_string`: what a string adds to the length. -/
def calcStringLength (str : Bytes) : Nat :=
  let add :=
    if str.length < 254 then str.length + 1
    else if str.length < 2 ^ 24 then str.length + 4
    else str.length + 8
  (add + 3) / 4 * 4

/-- `TlStorerCalcLength`, by its `length`. -/
def tlStorerCalcLength : Storer Nat where
  storeBinary bytes length := length + bytes.length
  storeString str length := .ok (length + calcStringLength str)

/-! ## Shapes and their values -/

/-- The types that are stored: `flags` is a word of so many flags, fewer than 31
of them as `END_STORE_FLAGS` asks. -/
inductive Shape
  | int32
  | int64
  | double
  | bool
  | flags (n : Fin 31)
  | string
  | vector (s : Shape)
  | pair (s t : Shape)
  deriving DecidableEq, Repr

namespace Shape

/-- The values of a shape, a `double` by its bits. -/
abbrev Value : Shape → Type
  | int32 => BitVec 32
  | int64 => BitVec 64
  | double => BitVec 64
  | bool => Bool
  | flags n => Fin n → Bool
  | string => Bytes
  | vector s => List s.Value
  | pair s t => s.Value × t.Value

end Shape

/-- The word `STORE_FLAG` makes of the flags, the first of them in the lowest bit. -/
def flagsStore {n : Nat} (flag : Fin n → Bool) : BitVec 32 :=
  (List.finRange n).foldl (fun word i => word ||| BitVec.ofNat 32 (flag i).toNat <<< i.val) 0

/-- `PARSE_FLAG`. -/
def parseFlag {n : Nat} (word : BitVec 32) (i : Fin n) : Bool := word >>> i.val &&& 1 != 0

/-- A word of `n` flags, with `END_PARSE_FLAGS`. -/
def parseFlags (n : Nat) (p : TlParser) : (Fin n → Bool) × TlParser :=
  let (word, p) := p.fetchBits 4 32
  (parseFlag word,
    if word &&& ~~~((1 : BitVec 32) <<< n - 1) ≠ 0 then
      p.failHere ("Invalid flags " ++ toString word.toNat ++ " left, current bit is " ++ toString n)
    else p)

namespace Shape

/-- `store`. The number of elements of a vector has to be an `int32`. -/
def store {σ : Type} (storer : Storer σ) : (s : Shape) → s.Value → σ → Outcome σ
  | int32, x, out => .ok (storer.storeBinary (storeBits 4 (n := 32) x) out)
  | int64, x, out => .ok (storer.storeBinary (storeBits 8 (n := 64) x) out)
  | double, x, out => .ok (storer.storeBinary (storeBits 8 (n := 64) x) out)
  | bool, x, out => .ok (storer.storeBinary (leBytes 4 (Bool.toNat x)) out)
  | flags _, x, out => .ok (storer.storeBinary (storeBits 4 (flagsStore x)) out)
  | string, x, out => storer.storeString x out
  | vector s, xs, out => do
    check (List.length xs < 2 ^ 31)
    List.foldlM (fun out x => s.store storer x out) (storer.storeBinary (leBytes 4 (List.length xs)) out) xs
  | pair s t, x, out => do
    let out ← s.store storer (Prod.fst x) out
    t.store storer (Prod.snd x) out

/-- `parse`. -/
def parse : (s : Shape) → TlParser → s.Value × TlParser
  | int32, p => p.fetchBits 4 32
  | int64, p => p.fetchBits 8 64
  | double, p => p.fetchBits 8 64
  | bool, p =>
    let (x, p) := p.fetchInt
    ((x != 0 : Bool), p)
  | flags n, p => parseFlags n p
  | string, p => p.fetchString
  | vector s, p => p.fetchVector s.parse
  | pair s t, p =>
    let (x, p) := s.parse p
    let (y, p) := t.parse p
    ((x, y), p)

/-- The strings of a value are shorter than `2 ^ 32` and its vectors than `2 ^ 31`. -/
def Storable : (s : Shape) → s.Value → Prop
  | int32, _ | int64, _ | double, _ | bool, _ | flags _, _ => True
  | string, x => List.length x < 2 ^ 32
  | vector s, xs => List.length xs < 2 ^ 31 ∧ ∀ x ∈ (xs : List s.Value), s.Storable x
  | pair s t, x => s.Storable (Prod.fst x) ∧ t.Storable (Prod.snd x)

end Shape

/-- A value with its shape. -/
abbrev Item := (s : Shape) × s.Value

/-- Values stored one after another. -/
def storeAll {σ : Type} (storer : Storer σ) (items : List Item) (out : σ) : Outcome σ :=
  items.foldlM (fun out item => item.1.store storer item.2 out) out

/-- The shapes read one after another. -/
def parseAll : List Shape → TlParser → List Item × TlParser
  | [], p => ([], p)
  | s :: shapes, p =>
    let (x, p) := s.parse p
    let (items, p) := parseAll shapes p
    (⟨s, x⟩ :: items, p)

/-- `serialize`: the buffer is as long as was counted, and has to be full. -/
def serialize (items : List Item) : Outcome Bytes := do
  let length ← storeAll tlStorerCalcLength items 0
  let written ← storeAll tlStorerUnsafe items []
  check (written.length = length)
  pure written

/-- `unserialize`: the values, and the status of the parser. -/
def unserialize (shapes : List Shape) (data : Bytes) : List Item × Outcome Unit :=
  let (items, p) := parseAll shapes (new data)
  (items, p.fetchEnd.getStatus)

/-! ## A word of flags -/

theorem getLsbD_flag (b : Bool) (i k : Nat) (hk : k < 32) :
    (BitVec.ofNat 32 b.toNat <<< i).getLsbD k = (b && decide (i = k)) := by
  have hbit : (BitVec.ofNat 32 b.toNat).getLsbD (k - i) = (b && decide (k - i = 0)) := by
    cases b with
    | false => simp
    | true => simp
  cases b with
  | false => simp
  | true =>
    grind

variable {n : Nat}

theorem getLsbD_foldl_flags (flag : Fin n → Bool) (l : List (Fin n)) (word : BitVec 32) {k : Nat}
    (hk : k < 32) : (l.foldl (fun word i => word ||| BitVec.ofNat 32 (flag i).toNat <<< i.val) word).getLsbD k =
      (word.getLsbD k || l.any fun i => flag i && decide (i.val = k)) := by
  induction l generalizing word with
  | nil => simp
  | cons i l ih => rw [foldl_cons, ih, getLsbD_or, getLsbD_flag _ _ _ hk, any_cons, Bool.or_assoc]

theorem getLsbD_flagsStore (flag : Fin n → Bool) {k : Nat} (hk : k < 32) :
    (flagsStore flag).getLsbD k = if h : k < n then flag ⟨k, h⟩ else false := by
  rw [flagsStore, getLsbD_foldl_flags flag _ _ hk]
  split
  next h =>
    rw [Bool.eq_iff_iff]
    simp only [ofNat_eq_ofNat, getLsbD_zero, Bool.false_or, any_eq_true, mem_finRange,
      true_and, Bool.and_eq_true, decide_eq_true_eq]
    constructor
    · rintro ⟨i, hi, rfl⟩
      exact hi
    · intro hflag
      exact ⟨⟨k, h⟩, hflag, rfl⟩
  next h =>
    have hnone : ((List.finRange n).any fun i => flag i && decide (i.val = k)) = false := by
      rw [any_eq_false]
      intro i _
      simp [show i.val ≠ k by omega]
    simp [hnone]

theorem parseFlag_eq (word : BitVec 32) (i : Fin n) : parseFlag word i = word.getLsbD i := by
  rw [parseFlag, show (1 : BitVec 32) = 1#32 from rfl, and_one_eq_setWidth_ofBool_getLsbD,
    getLsbD_ushiftRight, Nat.add_zero]
  cases word.getLsbD i <;> rfl

theorem parseFlag_flagsStore (hn : n < 31) (flag : Fin n → Bool) : parseFlag (flagsStore flag) = flag := by
  funext i
  rw [parseFlag_eq, getLsbD_flagsStore flag (by omega), dif_pos i.isLt]

theorem getLsbD_lowMask (hn : n < 31) (k : Nat) : ((1 : BitVec 32) <<< n - 1).getLsbD k = decide (k < n) := by
  have hpow : 2 ^ n < 2 ^ 31 := Nat.pow_lt_pow_right (by decide) hn
  have hpos : 0 < 2 ^ n := Nat.two_pow_pos n
  have hval : ((1 : BitVec 32) <<< n - 1).toNat = 2 ^ n - 1 := by
    rw [toNat_sub, toNat_shiftLeft, Nat.shiftLeft_eq]
    simp only [ofNat_eq_ofNat, toNat_ofNat]
    omega
  rw [BitVec.getLsbD, hval, Nat.testBit_two_pow_sub_one]

theorem flagsStore_and_highMask (hn : n < 31) (flag : Fin n → Bool) :
    flagsStore flag &&& ~~~((1 : BitVec 32) <<< n - 1) = 0 := by
  apply eq_of_getLsbD_eq
  intro k hk
  rw [getLsbD_and, getLsbD_not, getLsbD_lowMask hn k, getLsbD_flagsStore flag hk]
  by_cases h : k < n
  · simp [h]
  · simp [h]

theorem parseFlags_flagsStore (hn : n < 31) (flag : Fin n → Bool) (rest : Bytes) (len : Nat) :
    parseFlags n ⟨storeBits 4 (flagsStore flag) ++ rest, len, none⟩ = (flag, ⟨rest, len, none⟩) := by
  rw [parseFlags, fetchBits_storeBits rfl]
  dsimp only
  rw [parseFlag_flagsStore hn, if_neg (not_not_intro (flagsStore_and_highMask hn flag))]

/-! ## What is stored -/

/-- The length pass rounds a string as the writer pads it. -/
theorem calcStringLength_eq {str bytes : Bytes} (h : storeString str = .ok bytes) :
    calcStringLength str = bytes.length := by
  unfold storeString at h
  dsimp only at h
  unfold calcStringLength
  split_ifs at h with h1 h2 h3
  · cases h
    simp only [h1, if_true, length_cons, length_append, length_padding]
    omega
  · cases h
    simp only [h1, h2, if_true, if_false, length_cons, length_append, length_padding, length_leBytes]
    omega
  · cases h
    simp only [h1, h2, if_false, length_cons, length_append, length_padding, length_leBytes]
    omega

/-- What storing `x` comes to: the bytes that are written, wherever they are
written, are as many as are counted, are a multiple of four, and read back as
`x`, whatever follows them. -/
structure Stored {α : Type} (count : Nat → Outcome Nat) (write : Bytes → Outcome Bytes)
    (parse : TlParser → α × TlParser) (x : α) (bytes : Bytes) : Prop where
  counted : ∀ n, count n = .ok (n + bytes.length)
  written : ∀ out, write out = .ok (out ++ bytes)
  aligned : bytes.length % 4 = 0
  parsed : ∀ rest len, parse ⟨bytes ++ rest, len, none⟩ = (x, ⟨rest, len, none⟩)

theorem length_storeBits (w : Nat) (x : BitVec n) : (storeBits w x).length = w := by
  rw [storeBits, length_leBytes]

section

variable {α β : Type}
variable {parse : TlParser → α × TlParser} {count : α → Nat → Outcome Nat} {write : α → Bytes → Outcome Bytes}
variable {xs : List α}

theorem stored_binary {x : α} {bytes : Bytes} (haligned : bytes.length % 4 = 0)
    (hparsed : ∀ rest len, parse ⟨bytes ++ rest, len, none⟩ = (x, ⟨rest, len, none⟩)) :
    Stored (fun n => .ok (tlStorerCalcLength.storeBinary bytes n))
      (fun out => .ok (tlStorerUnsafe.storeBinary bytes out)) parse x bytes :=
  ⟨fun _ => rfl, fun _ => rfl, haligned, hparsed⟩

theorem stored_bits (w n : Nat) (hn : n = 8 * w) (hw : w % 4 = 0) (x : BitVec n) :
    Stored (fun m => .ok (tlStorerCalcLength.storeBinary (storeBits w x) m))
      (fun out => .ok (tlStorerUnsafe.storeBinary (storeBits w x) out)) (fetchBits w n) x (storeBits w x) :=
  stored_binary (by rw [length_storeBits, hw]) (fetchBits_storeBits hn x)

theorem stored_string {str bytes : Bytes} (h : storeString str = .ok bytes) :
    Stored (tlStorerCalcLength.storeString str) (tlStorerUnsafe.storeString str) fetchString str bytes where
  counted n := by
    rw [← calcStringLength_eq h]
    rfl
  written out := by
    simp [tlStorerUnsafe, h]
  aligned := (storeString_aligned h).1
  parsed := readsBack_string str bytes h

theorem stored_pair {count1 count2 : Nat → Outcome Nat} {write1 write2 : Bytes → Outcome Bytes}
    {parse1 : TlParser → α × TlParser} {parse2 : TlParser → β × TlParser} {x : α} {y : β} {bytes1 bytes2 : Bytes}
    (h1 : Stored count1 write1 parse1 x bytes1) (h2 : Stored count2 write2 parse2 y bytes2) :
    Stored (fun n => count1 n >>= count2) (fun out => write1 out >>= write2)
      (fun p => let (x, p) := parse1 p; let (y, p) := parse2 p; ((x, y), p)) (x, y) (bytes1 ++ bytes2) where
  counted n := by
    rw [h1.counted, ok_bind, h2.counted, length_append, Nat.add_assoc]
  written out := by
    rw [h1.written, ok_bind, h2.written, append_assoc]
  aligned := by
    have := h1.aligned
    have := h2.aligned
    rw [length_append]
    omega
  parsed rest len := by
    simp [h1.parsed, h2.parsed]

/-- The elements of a vector. Each takes at least four bytes, so that the bytes
left are not fewer than the elements left. -/
theorem stored_items (h : ∀ x ∈ xs, ∃ bytes, Stored (count x) (write x) parse x bytes ∧ 4 ≤ bytes.length) :
    ∃ bytes, Stored (fun n => xs.foldlM (fun n x => count x n) n) (fun out => xs.foldlM (fun out x => write x out) out)
      (fetchItems parse xs.length) xs bytes ∧ xs.length ≤ bytes.length := by
  induction xs with
  | nil => exact ⟨[], ⟨fun _ => rfl, fun out => by rw [append_nil]; rfl, rfl, fun _ _ => rfl⟩, Nat.le_refl _⟩
  | cons x xs ih =>
    obtain ⟨bytes1, hx, hfour⟩ := h x (by simp)
    obtain ⟨bytes2, hxs, hle⟩ := ih fun y hy => h y (by simp [hy])
    have hboth := stored_pair hx hxs
    refine ⟨bytes1 ++ bytes2, ⟨?_, ?_, hboth.aligned, ?_⟩, ?_⟩
    · intro n
      simpa only [foldlM_cons] using hboth.counted n
    · intro out
      simpa only [foldlM_cons] using hboth.written out
    · intro rest len
      simp [fetchItems, append_assoc, hx.parsed, hxs.parsed]
    · rw [length_cons, length_append]
      omega

theorem stored_vector (hlen : xs.length < 2 ^ 31)
    (h : ∀ x ∈ xs, ∃ bytes, Stored (count x) (write x) parse x bytes ∧ 4 ≤ bytes.length) :
    ∃ bytes, Stored (fun n => xs.foldlM (fun n x => count x n) (tlStorerCalcLength.storeBinary (leBytes 4 xs.length) n))
      (fun out => xs.foldlM (fun out x => write x out) (tlStorerUnsafe.storeBinary (leBytes 4 xs.length) out))
      (fetchVector parse) xs bytes ∧ 4 ≤ bytes.length := by
  obtain ⟨bytes, hitems, hle⟩ := stored_items h
  refine ⟨leBytes 4 xs.length ++ bytes, ⟨?_, ?_, ?_, ?_⟩, by simp⟩
  · intro n
    rw [length_append, ← Nat.add_assoc]
    exact hitems.counted _
  · intro out
    rw [← append_assoc]
    exact hitems.written _
  · have := hitems.aligned
    simp_all
  · intro rest len
    rw [fetchVector, append_assoc, fetchInt_append (by omega)]
    dsimp only
    rw [if_neg (by rw [length_append]; omega), hitems.parsed]

end

/-! ## Every storable value is stored and read back -/

theorem parse_bool (b : Bool) (rest : Bytes) (len : Nat) :
    Shape.bool.parse ⟨leBytes 4 b.toNat ++ rest, len, none⟩ = (b, ⟨rest, len, none⟩) := by
  have hlt : b.toNat < 256 ^ 4 := by cases b <;> decide
  cases b <;> rfl

/-- A storable value is stored, in four bytes at least. -/
theorem exists_stored (s : Shape) (x : s.Value) (h : s.Storable x) :
    ∃ bytes, Stored (s.store tlStorerCalcLength x) (s.store tlStorerUnsafe x) s.parse x bytes ∧ 4 ≤ bytes.length := by
  induction s with
  | int32 => exact ⟨_, stored_bits 4 32 rfl rfl x, by rw [length_storeBits]⟩
  | int64 => exact ⟨_, stored_bits 8 64 rfl rfl x, by rw [length_storeBits]; decide⟩
  | double => exact ⟨_, stored_bits 8 64 rfl rfl x, by rw [length_storeBits]; decide⟩
  | bool =>
    exact ⟨_, stored_binary (by rw [length_leBytes]) (parse_bool x), by rw [length_leBytes]⟩
  | flags n =>
    exact ⟨_, stored_binary (by rw [length_storeBits]) (parseFlags_flagsStore n.isLt x), by rw [length_storeBits]⟩
  | string =>
    obtain ⟨bytes, hbytes⟩ := storeString_ok h
    exact ⟨bytes, stored_string hbytes, (storeString_aligned hbytes).2⟩
  | vector s ih =>
    obtain ⟨hlen, hitems⟩ := h
    obtain ⟨bytes, hstored, hfour⟩ := stored_vector hlen fun x hx => ih x (hitems x hx)
    have hcheck : check (List.length x < 2 ^ 31) = .ok () := check_true hlen
    refine ⟨bytes, ⟨?_, ?_, hstored.aligned, hstored.parsed⟩, hfour⟩
    · intro n
      rw [Shape.store, hcheck]
      exact hstored.counted n
    · intro out
      rw [Shape.store, hcheck]
      exact hstored.written out
  | pair s t ihs iht =>
    obtain ⟨bytes1, h1, hfour⟩ := ihs x.1 h.1
    obtain ⟨bytes2, h2, -⟩ := iht x.2 h.2
    have hboth := stored_pair h1 h2
    refine ⟨bytes1 ++ bytes2, { hboth with }, ?_⟩
    rw [length_append]
    omega

theorem exists_stored_all {items : List Item} (h : ∀ item ∈ items, item.1.Storable item.2) :
    ∃ bytes, Stored (storeAll tlStorerCalcLength items) (storeAll tlStorerUnsafe items)
      (parseAll (items.map Sigma.fst)) items bytes := by
  induction items with
  | nil => exact ⟨[], fun _ => rfl, fun out => by rw [append_nil]; rfl, rfl, fun _ _ => rfl⟩
  | cons item items ih =>
    obtain ⟨bytes1, hitem, -⟩ := exists_stored item.1 item.2 (h item (by simp))
    obtain ⟨bytes2, hitems⟩ := ih fun other hother => h other (by simp [hother])
    have hboth := stored_pair hitem hitems
    refine ⟨bytes1 ++ bytes2, ?_, ?_, hboth.aligned, ?_⟩
    · intro n
      exact hboth.counted n
    · intro out
      exact hboth.written out
    · intro rest len
      simp [parseAll, append_assoc, hitem.parsed, hitems.parsed]

/-- **The codec.** Values of any shapes whose strings are shorter than `2 ^ 32`
bytes and whose vectors have fewer than `2 ^ 31` elements are stored one after
another in as many bytes as are counted, a multiple of four; `serialize` returns
these bytes, and reading the same shapes from them returns the same values, leaves
nothing and reports no error. -/
theorem unserialize_serialize {items : List Item} (h : ∀ item ∈ items, item.1.Storable item.2) :
    ∃ bytes, storeAll tlStorerCalcLength items 0 = .ok bytes.length ∧
      storeAll tlStorerUnsafe items [] = .ok bytes ∧
      bytes.length % 4 = 0 ∧
      serialize items = .ok bytes ∧
      parseAll (items.map Sigma.fst) (new bytes) = (items, ⟨[], bytes.length, none⟩) ∧
      unserialize (items.map Sigma.fst) bytes = (items, .ok ()) := by
  obtain ⟨bytes, hstored⟩ := exists_stored_all h
  have hcount : storeAll tlStorerCalcLength items 0 = .ok bytes.length := by
    rw [hstored.counted, Nat.zero_add]
  have hwrite : storeAll tlStorerUnsafe items [] = .ok bytes := by
    rw [hstored.written, nil_append]
  have hparse : parseAll (items.map Sigma.fst) (new bytes) = (items, ⟨[], bytes.length, none⟩) := by
    have := hstored.parsed [] bytes.length
    rwa [append_nil] at this
  refine ⟨bytes, hcount, hwrite, hstored.aligned, ?_, hparse, ?_⟩
  · simp [serialize, hcount, ok_bind, hwrite]
  · rw [unserialize, hparse]
    rfl

/-- A list of pairs of an integer and a string, and a word of two flags after it. -/
def pairsAndFlags : List Item :=
  [⟨.vector (.pair .int32 .string), [(7#32, [1, 2, 3])]⟩, ⟨.flags 2, fun i => i.val == 1⟩]

theorem unserialize_serialize_pairs : (∀ item ∈ pairsAndFlags, item.1.Storable item.2) ∧
    ∃ bytes, serialize pairsAndFlags = .ok bytes ∧ bytes.length % 4 = 0 ∧
      unserialize [.vector (.pair .int32 .string), .flags 2] bytes = (pairsAndFlags, .ok ()) := by
  have hstorable : ∀ item ∈ pairsAndFlags, item.1.Storable item.2 := by
    simp [pairsAndFlags, Shape.Storable]
  obtain ⟨bytes, -, -, haligned, hbytes, -, hread⟩ := unserialize_serialize hstorable
  exact ⟨hstorable, bytes, hbytes, haligned, hread⟩

/-- A vector of `2 ^ 31` elements is not stored at all: its length is not an
`int32`, and `narrow_cast` aborts. -/
theorem store_vector_fatal :
    (Shape.vector .int32).store tlStorerCalcLength (List.replicate 2147483648 (0 : BitVec 32)) 0 = .fatal ∧
    (Shape.vector .int32).store tlStorerUnsafe (List.replicate 2147483648 (0 : BitVec 32)) [] = .fatal := by
  have hcheck : check ((List.replicate 2147483648 (0 : BitVec 32)).length < 2 ^ 31) = .fatal := by
    rw [length_replicate]
    exact if_neg (by omega)
  constructor
  · rw [Shape.store, hcheck]
    rfl
  · rw [Shape.store, hcheck]
    rfl

end TlCodec

end Tdlib
