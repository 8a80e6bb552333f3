/-
Extending a CRC-32C by the CRC of what follows, from `td/utils/crypto.cpp`.

One bit of the message is one step of a shift register, which is linear over
exclusive or. `crc32c_extend` takes the old checksum through eight steps for
each byte of the second part, with the matrices of 2^n steps.
-/
import Mathlib.Logic.Function.Iterate
import Tdlib.Lib.Bytes
import Tdlib.Lib.Outcome

namespace Tdlib.Crc32c

open BitVec hiding not_not
open Outcome

/-! ## The code -/

/-- `gf32_matrix_times`: a row for each bit of the vector. -/
def gf32MatrixTimes (sum : BitVec 32) : List (BitVec 32) → BitVec 32 → BitVec 32
  | [], _ => sum
  | row :: matrix, vector =>
    if vector = 0#32 then sum
    else gf32MatrixTimes (if vector.getLsbD 0 then sum ^^^ row else sum) matrix (vector >>> 1)

def gf32MatrixSquare (matrix : List (BitVec 32)) : List (BitVec 32) := matrix.map (gf32MatrixTimes 0#32 matrix)

/-- The matrix `n` of `power_buf`. -/
def powerMatrix : Nat → List (BitVec 32)
  | 0 => 0x82F63B78 :: (List.range 31).map fun n => 1 <<< n
  | n + 1 => gf32MatrixSquare (powerMatrix n)

/-- The loop of `crc32c_extend` at the matrix `n`. There are 32 of them. -/
def extendLoop (n : Nat) (oldCrc : BitVec 32) (dataSize : Nat) : Outcome (BitVec 32) := do
  if dataSize = 0 then pure oldCrc
  else
    check (n < 32)
    extendLoop (n + 1) (if dataSize % 2 = 1 then gf32MatrixTimes 0#32 (powerMatrix n) oldCrc else oldCrc) (dataSize / 2)

def crc32cExtend (oldCrc dataCrc : BitVec 32) (dataSize : Nat) : Outcome (BitVec 32) := do
  if dataSize = 0 then pure oldCrc
  else
    let oldCrc ← extendLoop 3 oldCrc dataSize
    pure (oldCrc ^^^ dataCrc)

/-! ## CRC-32C -/

/-- One step of the register. -/
def shift (crc : BitVec 32) : BitVec 32 := (crc >>> 1) ^^^ if crc.getLsbD 0 then 0x82F63B78#32 else 0#32

/-- The register after some bytes, the low bits of a byte first. -/
def register (crc : BitVec 32) (data : Bytes) : BitVec 32 :=
  data.foldl (fun crc byte => shift^[8] (crc ^^^ byte.toBitVec.setWidth 32)) crc

def crc32c (data : Bytes) : BitVec 32 := ~~~register (.allOnes 32) data

/-! ## Linear maps and their matrices -/

def Linear (f : BitVec 32 → BitVec 32) : Prop := ∀ x y, f (x ^^^ y) = f x ^^^ f y

variable {f : BitVec 32 → BitVec 32}

theorem Linear.map_zero (h : Linear f) : f 0#32 = 0#32 := by simpa using h 0#32 0#32

theorem Linear.iterate (h : Linear f) (n : Nat) : Linear f^[n] := by
  induction n with
  | zero => exact fun _ _ => rfl
  | succ n ih => exact fun x y => by rw [Function.iterate_succ_apply, h, ih]; rfl

theorem shift_linear : Linear shift := by
  intro x y
  have hlow : ∀ a b : Bool, (if a ^^ b then 0x82F63B78#32 else 0#32 : BitVec 32) =
      (if a then 0x82F63B78 else 0) ^^^ if b then 0x82F63B78#32 else 0#32 := by decide
  simp only [shift, getLsbD_xor, hlow, ushiftRight_xor_distrib]
  ac_rfl

/-- The rows of a matrix are the images of the single bits. -/
def Rows (f : BitVec 32 → BitVec 32) (matrix : List (BitVec 32)) : Prop :=
  ∀ j row, matrix[j]? = some row → row = f (.twoPow 32 j)

theorem eq_low_xor_shift (x : BitVec 32) : x = (if x.getLsbD 0 then 1#32 else 0#32) ^^^ (x >>> 1) <<< 1 := by
  apply eq_of_getLsbD_eq
  intro i hi
  cases i with
  | zero => cases x.getLsbD 0 <;> simp
  | succ i => cases x.getLsbD 0 <;> simp [Nat.add_comm, hi]

theorem Rows.times {matrix : List (BitVec 32)} (rows : Rows f matrix) (linear : Linear f) (sum vector : BitVec 32)
    (hvector : vector.toNat < 2 ^ matrix.length) : gf32MatrixTimes sum matrix vector = sum ^^^ f vector := by
  induction matrix generalizing f sum vector with
  | nil =>
    obtain rfl : vector = 0#32 := eq_of_toNat_eq (by simpa using hvector)
    rw [gf32MatrixTimes, linear.map_zero, xor_zero]
  | cons row matrix ih =>
    have hrow : row = f 1#32 := rows 0 row rfl
    rw [gf32MatrixTimes]
    split
    next hzero => rw [hzero, linear.map_zero, xor_zero]
    next =>
      -- the other rows are those of the map after a shift
      rw [ih (f := fun x => f (x <<< 1))]
      · conv_rhs => rw [eq_low_xor_shift vector, linear]
        split
        · rw [hrow, xor_assoc]
        · rw [linear.map_zero, BitVec.zero_xor]
      · intro j r hr
        rw [rows (j + 1) r hr, twoPow_eq, twoPow_eq, shiftLeft_add]
      · intro x y
        simp only [shiftLeft_xor_distrib, linear _ _]
      · rw [toNat_ushiftRight, Nat.shiftRight_one]
        rw [List.length_cons, Nat.pow_succ] at hvector
        omega

theorem length_powerMatrix (n : Nat) : (powerMatrix n).length = 32 := by
  induction n with
  | zero => rfl
  | succ n ih => simpa [powerMatrix, gf32MatrixSquare] using ih

theorem powerMatrix_rows (n : Nat) : Rows shift^[2 ^ n] (powerMatrix n) := by
  induction n with
  | zero =>
    intro j row hrow
    have hj := (List.getElem?_eq_some_iff.mp hrow).1
    rw [length_powerMatrix] at hj
    have hall : ∀ j < 32, (powerMatrix 0)[j]? = some (shift (.twoPow 32 j)) := by decide +kernel
    rw [hall j hj] at hrow
    exact (Option.some.inj hrow).symm
  | succ n ih =>
    intro j row hrow
    rw [powerMatrix, gf32MatrixSquare, List.getElem?_map, Option.map_eq_some_iff] at hrow
    obtain ⟨r, hr, rfl⟩ := hrow
    rw [ih.times (shift_linear.iterate _) _ _ (by rw [length_powerMatrix]; exact r.isLt), ih j r hr, BitVec.zero_xor,
      ← Function.iterate_add_apply, Nat.pow_succ, Nat.mul_two]

theorem extendLoop_eq (n : Nat) (oldCrc : BitVec 32) (dataSize : Nat) (h : dataSize < 2 ^ (32 - n)) :
    extendLoop n oldCrc dataSize = .ok (shift^[2 ^ n * dataSize] oldCrc) := by
  induction dataSize using Nat.strongRecOn generalizing n oldCrc with
  | ind dataSize ih =>
    rw [extendLoop]
    split
    next hzero => rw [hzero]; rfl
    next hpos =>
      have hn : n < 32 := by
        by_contra hge
        rw [show 32 - n = 0 by omega] at h
        omega
      rw [show 32 - n = 32 - (n + 1) + 1 by omega, Nat.pow_succ] at h
      have htimes := (powerMatrix_rows n).times (shift_linear.iterate _) 0#32 oldCrc
        (by rw [length_powerMatrix]; exact oldCrc.isLt)
      rw [check_true hn, ok_bind, ih _ (by omega) _ _ (by omega), htimes, BitVec.zero_xor, Nat.pow_succ, Nat.mul_assoc]
      split
      next hodd => rw [← Function.iterate_add_apply, ← Nat.mul_add_one, show 2 * (dataSize / 2) + 1 = dataSize by omega]
      next heven => rw [show 2 * (dataSize / 2) = dataSize by omega]

theorem register_xor (x y : BitVec 32) (data : Bytes) :
    register (x ^^^ y) data = shift^[8 * data.length] x ^^^ register y data := by
  induction data generalizing x y with
  | nil => rfl
  | cons byte data ih =>
    rw [register, List.foldl_cons, xor_assoc, shift_linear.iterate]
    have := ih (shift^[8] x) (shift^[8] (y ^^^ byte.toBitVec.setWidth 32))
    rw [← Function.iterate_add_apply] at this
    exact this

/-- **Extending a checksum.** -/
theorem crc32cExtend_append (a b : Bytes) (h : b.length < 2 ^ 29) :
    crc32cExtend (crc32c a) (crc32c b) b.length = .ok (crc32c (a ++ b)) := by
  have happend : crc32c (a ++ b) = shift^[8 * b.length] (crc32c a) ^^^ crc32c b := by
    have hones : register (.allOnes 32) a = crc32c a ^^^ .allOnes 32 := by
      rw [crc32c, BitVec.xor_allOnes, BitVec.not_not]
    have hregister : register (.allOnes 32) (a ++ b) = register (register (.allOnes 32) a) b := List.foldl_append ..
    rw [crc32c, ← BitVec.xor_allOnes, hregister, hones, register_xor, BitVec.xor_assoc, BitVec.xor_allOnes, crc32c]
    rfl
  rw [crc32cExtend]
  split
  next hzero =>
    obtain rfl := List.length_eq_zero_iff.mp hzero
    rw [List.append_nil]
    rfl
  next => rw [extendLoop_eq 3 _ _ h, happend]; rfl

theorem crc32cExtend_append_bytes :
    crc32cExtend (crc32c [0x31]) (crc32c [0x32, 0x33]) 2 = .ok (crc32c [0x31, 0x32, 0x33]) :=
  crc32cExtend_append [0x31] [0x32, 0x33] (by decide)

end Tdlib.Crc32c
