/-
Objects in the TL wire format: `tl_object_store.h` and `tl_object_parse.h`, and
what the code generated from a scheme makes of them.

A fetch gives a value in any case. After an error it is never looked at, and
the parser does not change any more, so that the early returns of the generated
code are left out.
-/
import Tdlib.Tl

namespace Tdlib

open Outcome TlParser List

/-! ## Storing -/

/-- `store_binary` of a value of `w` bytes. -/
def storeBits (w : Nat) {n : Nat} (x : BitVec n) : Bytes := leBytes w x.toNat

/-- `TlStoreVector`: the length has to be an `int32`. -/
def storeVector {α : Type} (store : α → Outcome Bytes) (xs : List α) : Outcome Bytes := do
  Outcome.check (xs.length < 2 ^ 31)
  let items ← xs.mapM store
  pure (leBytes 4 xs.length ++ items.flatten)

/-- `TlStoreBoxed`. -/
def storeBoxed (id : Nat) (body : Outcome Bytes) : Outcome Bytes := do
  let body ← body
  pure (leBytes 4 id ++ body)

/-! ## Parsing -/

namespace TlParser

/-- `set_error` where the parser is. -/
def failHere (p : TlParser) (message : String) : TlParser := p.setError message p.data.length

/-- `fetch_binary` of a value of `w` bytes. -/
def fetchBits (w n : Nat) (p : TlParser) : BitVec n × TlParser :=
  let (bytes, p) := p.fetchBinary w
  (BitVec.ofNat n (leNat bytes), p)

/-- A variable of type `#`. -/
def fetchFlags (p : TlParser) : BitVec 32 × TlParser :=
  let (flags, p) := p.fetchBits 4 32
  (flags, if flags.toInt < 0 then p.failHere "Variable of type # can't be negative" else p)

def fetchItems {α : Type} (fetch : TlParser → α × TlParser) : Nat → TlParser → List α × TlParser
  | 0, p => ([], p)
  | n + 1, p =>
    let (x, p) := fetch p
    let (xs, p) := fetchItems fetch n p
    (x :: xs, p)

/-- `TlFetchVector`. -/
def fetchVector {α : Type} (fetch : TlParser → α × TlParser) (p : TlParser) : List α × TlParser :=
  let (multiplicity, p) := p.fetchInt
  if p.data.length < multiplicity then ([], p.failHere "Wrong vector length")
  else fetchItems fetch multiplicity p

/-- `TlFetchBoxed`. -/
def fetchBoxed {α : Type} [Inhabited α] (id : Nat) (fetch : TlParser → α × TlParser) (p : TlParser) : α × TlParser :=
  let (found, p) := p.fetchInt
  if found ≠ id then
    (default, p.failHere
      ("Wrong constructor " ++ toString (int32OfBits found) ++ " found instead of " ++ toString (int32OfBits id)))
  else fetch p

/-- A field that is there if the bit of the flags is set. -/
def fetchOptional {α : Type} (flag : Bool) (fetch : TlParser → α × TlParser) (p : TlParser) : Option α × TlParser :=
  if flag then
    let (x, p) := fetch p
    (some x, p)
  else (none, p)

end TlParser

/-- `format::as_hex` of an `int32`. -/
def asHex (n : Nat) : String := "0x" ++ String.ofList ((List.range 8).map fun i => Nat.digitChar (n / 16 ^ (7 - i) % 16))

/-! ## Reading back -/

/-- What is stored of `x` is read as `x`, whatever follows it. -/
def ReadsBack {α : Type} (stored : Outcome Bytes) (fetch : TlParser → α × TlParser) (x : α) : Prop :=
  ∀ bytes, stored = .ok bytes → ∀ rest len, fetch ⟨bytes ++ rest, len, none⟩ = (x, ⟨rest, len, none⟩)

section

variable {α : Type}

theorem ofNat_leNat_storeBits {w n : Nat} (h : n = 8 * w) (x : BitVec n) :
    BitVec.ofNat n (leNat (storeBits w x)) = x := by
  have hpow : 2 ^ n = 256 ^ w := by rw [h, Nat.pow_mul]
  rw [storeBits, leNat_leBytes_of_lt (Nat.lt_of_lt_of_eq x.isLt hpow), BitVec.ofNat_toNat, BitVec.setWidth_eq]

theorem fetchBits_storeBits {w n : Nat} (h : n = 8 * w) (x : BitVec n) (rest : Bytes) (len : Nat) :
    fetchBits w n ⟨storeBits w x ++ rest, len, none⟩ = (x, ⟨rest, len, none⟩) := by
  have hfetch := fetchBinary_append (storeBits w x) rest len none
  grind [storeBits, length_leBytes, fetchBits, ofNat_leNat_storeBits]

theorem fetchFlags_storeBits {x : BitVec 32} (hx : 0 ≤ x.toInt) (rest : Bytes) (len : Nat) :
    fetchFlags ⟨storeBits 4 x ++ rest, len, none⟩ = (x, ⟨rest, len, none⟩) := by
  simp [fetchFlags, fetchBits_storeBits rfl, (Int.not_lt.mpr hx)]

variable {fetch : TlParser → α × TlParser}

theorem fetchItems_append {store : α → Outcome Bytes} {xs : List α}
    (h : ∀ x ∈ xs, ReadsBack (store x) fetch x) {items : List Bytes} (hitems : xs.mapM store = .ok items)
    (rest : Bytes) (len : Nat) :
    fetchItems fetch xs.length ⟨items.flatten ++ rest, len, none⟩ = (xs, ⟨rest, len, none⟩) := by
  induction xs generalizing items with
  | nil => cases hitems; rfl
  | cons x xs ih =>
    obtain ⟨item, items', hitem, hitems', rfl⟩ := mapM_cons_ok hitems
    rw [length_cons, fetchItems, flatten_cons, append_assoc, h x (by simp) item hitem]
    simp [ih (fun x hx => h x (by simp [hx])) hitems']

section

variable {store : α → Outcome Bytes} {xs : List α} (hpos : ∀ x ∈ xs, ∀ bytes, store x = .ok bytes → 0 < bytes.length)

include hpos

theorem length_le_flatten {items : List Bytes} (hitems : xs.mapM store = .ok items) :
    xs.length ≤ items.flatten.length := by
  induction xs generalizing items with
  | nil => exact Nat.zero_le _
  | cons x xs ih =>
    obtain ⟨item, items', hitem, hitems', rfl⟩ := mapM_cons_ok hitems
    have := hpos x (by simp) item hitem
    have := ih (fun x hx => hpos x (by simp [hx])) hitems'
    rw [flatten_cons, length_append, length_cons]
    omega

theorem readsBack_vector (h : ∀ x ∈ xs, ReadsBack (store x) fetch x) :
    ReadsBack (storeVector store xs) (fetchVector fetch) xs := by
  intro bytes hbytes rest len
  rw [storeVector, bind_ok_iff] at hbytes
  obtain ⟨_, hlen, hbytes⟩ := hbytes
  rw [check_ok_iff] at hlen
  rw [bind_ok_iff] at hbytes
  obtain ⟨items, hitems, hbytes⟩ := hbytes
  cases hbytes
  have hle := length_le_flatten hpos hitems
  grind [fetchVector, append_assoc, fetchInt_append, fetchItems_append, length_append]

end

theorem readsBack_boxed [Inhabited α] {stored : Outcome Bytes} {x : α} {id : Nat}
    (hid : id < 256 ^ 4) (h : ReadsBack stored fetch x) :
    ReadsBack (storeBoxed id stored) (fetchBoxed id fetch) x := by
  intro bytes hbytes rest len
  rw [storeBoxed, bind_ok_iff] at hbytes
  obtain ⟨body, hbody, hbytes⟩ := hbytes
  cases hbytes
  simp [fetchBoxed, append_assoc, fetchInt_append hid, (not_not_intro rfl), h body hbody]

theorem readsBack_string (s : Bytes) : ReadsBack (storeString s) fetchString s := by
  intro bytes hbytes rest len
  exact fetchString_storeString hbytes rfl

end

end Tdlib
