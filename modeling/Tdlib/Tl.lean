/-
The TL wire format: `TlStorerUnsafe::store_string` and `TlParser`.

A `TlParser` that has failed keeps failing: it reads zeros from then on, and
its status reports the first error. Integers are read as their bit patterns.
-/
import Tdlib.Lib.Bytes
import Tdlib.Lib.Outcome

namespace Tdlib

open List

/-! ## Storing -/

/-- The zero bytes that round `n` up to a multiple of four. -/
def padding (n : Nat) : Bytes := List.replicate ((4 - n % 4) % 4) 0

/-- `TlStorerUnsafe::store_string`. -/
def storeString (str : Bytes) : Outcome Bytes :=
  let len := str.length
  if len < 254 then .ok (UInt8.ofNat len :: (str ++ padding (len + 1)))
  else if len < 2 ^ 24 then .ok (254 :: (leBytes 3 len ++ (str ++ padding len)))
  else if len < 2 ^ 32 then .ok (255 :: (leBytes 7 len ++ (str ++ padding len)))
  else .fatal

@[simp] theorem length_padding (n : Nat) : (padding n).length = (4 - n % 4) % 4 := by
  simp [padding]

theorem storeString_ok {str : Bytes} (h : str.length < 2 ^ 32) : ∃ bs, storeString str = .ok bs := by
  unfold storeString
  dsimp only
  split_ifs <;> exact ⟨_, rfl⟩

theorem storeString_fatal {str : Bytes} (h : 2 ^ 32 ≤ str.length) : storeString str = .fatal := by
  unfold storeString
  rw [if_neg (by omega), if_neg (by omega), if_neg (by omega)]

section

variable {str bs : Bytes} (h : storeString str = .ok bs)

include h

/-- The three forms of a stored string. -/
theorem storeString_cases : (str.length < 254 ∧ bs = UInt8.ofNat str.length :: (str ++ padding (str.length + 1))) ∨
    (str.length < 2 ^ 24 ∧ bs = 254 :: (leBytes 3 str.length ++ (str ++ padding str.length))) ∨
    (str.length < 2 ^ 32 ∧ bs = 255 :: (leBytes 7 str.length ++ (str ++ padding str.length))) := by
  unfold storeString at h
  dsimp only at h
  split_ifs at h with h1 h2 h3 <;> cases h
  · exact .inl ⟨h1, rfl⟩
  · exact .inr (.inl ⟨h2, rfl⟩)
  · exact .inr (.inr ⟨h3, rfl⟩)

theorem storeString_aligned : bs.length % 4 = 0 ∧ 4 ≤ bs.length := by
  rcases storeString_cases h with ⟨-, rfl⟩ | ⟨-, rfl⟩ | ⟨-, rfl⟩ <;>
    simp only [length_cons, length_append, length_padding, length_leBytes] <;> omega

theorem storeString_length : str.length ≤ bs.length ∧ bs.length ≤ str.length + 12 := by
  rcases storeString_cases h with ⟨-, rfl⟩ | ⟨-, rfl⟩ | ⟨-, rfl⟩ <;>
    simp only [length_cons, length_append, length_padding, length_leBytes] <;> omega

end

/-! ## Parsing -/

/-- A parser: the bytes left, the length it started with, and its first
error with the position of it. -/
structure TlParser where
  data : Bytes
  dataLen : Nat
  error : Option (String × Nat)
  deriving DecidableEq, Repr

namespace TlParser

def new (slice : Bytes) : TlParser := ⟨slice, slice.length, none⟩

theorem new_eq {slice bs : Bytes} (h : slice = bs) : new slice = ⟨bs, slice.length, none⟩ := by
  subst h; rfl

/-- `set_error`, with `leftLen` bytes left: only the first error counts. -/
def setError (p : TlParser) (message : String) (leftLen : Nat) : TlParser :=
  match p.error with
  | none => { data := [], dataLen := 0, error := some (message, p.dataLen - leftLen) }
  | some _ => p

def getStatus (p : TlParser) : Outcome Unit :=
  match p.error with
  | none => .ok ()
  | some (message, pos) => .error (message ++ " at " ++ toString pos)

theorem getStatus_ne_fatal (p : TlParser) : p.getStatus ≠ .fatal := by
  rw [getStatus]
  split <;> simp

def notEnough : String := "Not enough data to read"

/-- `fetch_binary`: `n` bytes, zeros after an error. -/
def fetchBinary (n : Nat) (p : TlParser) : Bytes × TlParser :=
  if p.data.length < n then (List.replicate n 0, p.setError notEnough p.data.length)
  else (p.data.take n, { p with data := p.data.drop n })

def fetchInt (p : TlParser) : Nat × TlParser :=
  let (bs, p) := p.fetchBinary 4
  (leNat bs, p)

def fetchLong (p : TlParser) : Nat × TlParser :=
  let (bs, p) := p.fetchBinary 8
  (leNat bs, p)

/-- `fetch_string_raw`: `size` bytes, none of them after an error. -/
def fetchStringRaw (size : Nat) (p : TlParser) : Bytes × TlParser :=
  if p.data.length < size then ([], p.setError notEnough p.data.length)
  else match p.error with
    | some _ => ([], p)
    | none => (p.data.take size, { p with data := p.data.drop size })

/-- The end of `fetch_string`: a body of `len` bytes that starts `head`
bytes in and is aligned to `aligned` bytes, after `skip` bytes of header. -/
def fetchBody (p : TlParser) (head skip len aligned : Nat) : Bytes × TlParser :=
  if p.data.length - skip < aligned then ([], p.setError notEnough (p.data.length - skip))
  else ((p.data.drop head).take len, { p with data := p.data.drop (skip + aligned) })

def fetchString (p : TlParser) : Bytes × TlParser :=
  if p.data.length < 4 then ([], p.setError notEnough p.data.length)
  else
    let len := leNat (p.data.take 1)
    if len < 254 then p.fetchBody 1 4 len (len / 4 * 4)
    else if len = 254 then
      let len := leNat ((p.data.drop 1).take 3)
      p.fetchBody 4 4 len ((len + 3) / 4 * 4)
    else if p.data.length < 8 then ([], p.setError notEnough (p.data.length - 4))
    else
      let len := leNat ((p.data.drop 1).take 7)
      p.fetchBody 8 8 len ((len + 3) / 4 * 4)

def fetchEnd (p : TlParser) : TlParser :=
  if p.data.length ≠ 0 then p.setError "Too much data to fetch" p.data.length else p

/-! ### Reading back -/

theorem fetchBinary_append (bs rest : Bytes) (len : Nat) (err : Option (String × Nat)) :
    fetchBinary bs.length ⟨bs ++ rest, len, err⟩ = (bs, ⟨rest, len, err⟩) := by
  unfold fetchBinary
  rw [if_neg (by rw [length_append]; omega), take_left, drop_left]

variable {n : Nat} {p : TlParser}

theorem fetchInt_append (hn : n < 256 ^ 4) (rest : Bytes) (len : Nat) (err : Option (String × Nat)) :
    fetchInt ⟨leBytes 4 n ++ rest, len, err⟩ = (n, ⟨rest, len, err⟩) := by
  have h := fetchBinary_append (leBytes 4 n) rest len err
  rw [length_leBytes] at h
  simp [fetchInt, h, leNat_leBytes_of_lt hn]

theorem fetchLong_append (hn : n < 256 ^ 8) (rest : Bytes) (len : Nat) (err : Option (String × Nat)) :
    fetchLong ⟨leBytes 8 n ++ rest, len, err⟩ = (n, ⟨rest, len, err⟩) := by
  have h := fetchBinary_append (leBytes 8 n) rest len err
  rw [length_leBytes] at h
  simp [fetchLong, h, leNat_leBytes_of_lt hn]

theorem fetchStringRaw_append {bs : Bytes} (hn : bs.length = n) (rest : Bytes) (len : Nat) :
    fetchStringRaw n ⟨bs ++ rest, len, none⟩ = (bs, ⟨rest, len, none⟩) := by
  unfold fetchStringRaw
  rw [if_neg (by rw [length_append]; omega), ← hn, take_left, drop_left]

theorem fetchBody_append (header body pad rest : Bytes) {skip aligned : Nat}
    (hd : p.data = header ++ (body ++ (pad ++ rest)))
    (hlen : header.length + body.length + pad.length = skip + aligned) :
    p.fetchBody header.length skip body.length aligned = (body, { p with data := rest }) := by
  have hlong : ¬ p.data.length - skip < aligned := by
    rw [hd]; simp only [length_append]; omega
  have hdrop : p.data.drop (skip + aligned) = rest := by
    simp [hd, ← hlen, ← length_append, ← append_assoc header, ← append_assoc]
  unfold fetchBody
  rw [if_neg hlong, hdrop, hd, drop_left, take_left]

theorem leNat_field {marker : UInt8} {w : Nat} {rest : Bytes} (hn : n < 256 ^ w) :
    leNat (((marker :: (leBytes w n ++ rest)).drop 1).take w) = n := by
  simp [drop_succ_cons, drop_zero, leNat_leBytes_of_lt hn]

/-- **Strings read back.** A parser at a stored string reads the string and
stops after it. -/
theorem fetchString_storeString {str bs rest : Bytes} (hs : storeString str = .ok bs)
    (hd : p.data = bs ++ rest) : p.fetchString = (str, { p with data := rest }) := by
  have hfour : ¬ p.data.length < 4 := by
    have := (storeString_aligned hs).2
    rw [hd, length_append]; omega
  unfold fetchString
  rw [if_neg hfour]
  rcases storeString_cases hs with ⟨hlen, rfl⟩ | ⟨hlen, rfl⟩ | ⟨hlen, rfl⟩
  · have hl : leNat (p.data.take 1) = str.length := by
      rw [hd]
      simp only [cons_append, take_succ_cons, take_zero, leNat, UInt8.toNat_ofNat']
      omega
    simp only [hl, if_pos hlen]
    exact fetchBody_append [UInt8.ofNat str.length] str (padding (str.length + 1)) rest
      (by rw [hd]; simp) (by simp only [length_singleton, length_padding]; omega)
  · have hl : leNat (p.data.take 1) = 254 := by rw [hd]; simp [leNat]
    have hl3 : leNat ((p.data.drop 1).take 3) = str.length := by
      rw [hd, cons_append, append_assoc, leNat_field (by omega)]
    have hbody := fetchBody_append (p := p) (254 :: leBytes 3 str.length) str (padding str.length) rest
      (by rw [hd]; simp)
      (show _ = 4 + (str.length + 3) / 4 * 4 by
        simp only [length_cons, length_leBytes, length_padding]; omega)
    simp_all
  · have hl : leNat (p.data.take 1) = 255 := by rw [hd]; simp [leNat]
    have hl7 : leNat ((p.data.drop 1).take 7) = str.length := by
      rw [hd, cons_append, append_assoc, leNat_field (by omega)]
    have hbody := fetchBody_append (p := p) (255 :: leBytes 7 str.length) str (padding str.length) rest
      (by rw [hd]; simp)
      (show _ = 8 + (str.length + 3) / 4 * 4 by
        simp only [length_cons, length_leBytes, length_padding]; omega)
    simp_all

/-- Stored strings are prefix free. -/
theorem storeString_append_inj {s t bs cs xs ys : Bytes} (hs : storeString s = .ok bs)
    (ht : storeString t = .ok cs) (h : bs ++ xs = cs ++ ys) : s = t ∧ xs = ys := by
  have h1 : (new (bs ++ xs)).fetchString = (s, _) := fetchString_storeString hs rfl
  have h2 : (new (bs ++ xs)).fetchString = (t, _) := fetchString_storeString ht h
  simpa [h1, Prod.mk.injEq, TlParser.mk.injEq, and_true] using h2

end TlParser

end Tdlib
