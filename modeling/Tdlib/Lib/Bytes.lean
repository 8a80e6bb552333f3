/-
Byte strings: little-endian integers of a fixed width, and the exclusive or
with a key stream.
-/
import Mathlib.Data.Nat.Bitwise
import Mathlib.Data.List.Basic
import Mathlib.Tactic.Ring

namespace Tdlib

abbrev Bytes := List UInt8

/-! ## Little-endian integers -/

/-- The low `w` bytes of `n`, the least significant first. -/
def leBytes : Nat → Nat → Bytes
  | 0, _ => []
  | w + 1, n => UInt8.ofNat n :: leBytes w (n / 256)

/-- The integer a byte string spells, the least significant byte first. -/
def leNat : Bytes → Nat
  | [] => 0
  | b :: bs => b.toNat + 256 * leNat bs

theorem leBytes_zero (n : Nat) : leBytes 0 n = [] := rfl

theorem leBytes_succ (w n : Nat) : leBytes (w + 1) n = UInt8.ofNat n :: leBytes w (n / 256) := rfl

theorem leNat_nil : leNat [] = 0 := rfl

theorem leNat_cons (b : UInt8) (bs : Bytes) : leNat (b :: bs) = b.toNat + 256 * leNat bs := rfl

@[simp] theorem length_leBytes (w n : Nat) : (leBytes w n).length = w := by
  induction w generalizing n with
  | zero => rfl
  | succ w ih => simp [leBytes_succ, ih]

theorem leNat_leBytes (w n : Nat) : leNat (leBytes w n) = n % 256 ^ w := by
  induction w generalizing n with
  | zero => simp [leBytes_zero, leNat_nil, Nat.mod_one]
  | succ w ih =>
    simp only [leBytes_succ, leNat_cons, ih, UInt8.toNat_ofNat', Nat.reducePow]
    rw [Nat.pow_succ, Nat.mul_comm (256 ^ w) 256, Nat.mod_mul]

theorem leNat_leBytes_of_lt {w n : Nat} (h : n < 256 ^ w) : leNat (leBytes w n) = n := by
  rw [leNat_leBytes, Nat.mod_eq_of_lt h]

theorem leBytes_injective {w n m : Nat} (hn : n < 256 ^ w) (hm : m < 256 ^ w)
    (h : leBytes w n = leBytes w m) : n = m := by
  rw [← leNat_leBytes_of_lt hn, h, leNat_leBytes_of_lt hm]

theorem leBytes_leNat (bs : Bytes) : leBytes bs.length (leNat bs) = bs := by
  induction bs with
  | nil => rfl
  | cons b bs ih =>
    have hhead : UInt8.ofNat (b.toNat + 256 * leNat bs) = b := by
      apply UInt8.toNat_inj.mp
      have := b.toNat_lt
      rw [UInt8.toNat_ofNat']
      omega
    have htail : (b.toNat + 256 * leNat bs) / 256 = leNat bs := by
      have := b.toNat_lt
      omega
    rw [List.length_cons, leBytes_succ, leNat_cons, hhead, htail, ih]

theorem leNat_lt (bs : Bytes) : leNat bs < 256 ^ bs.length := by
  induction bs with
  | nil => exact Nat.one_pos
  | cons b bs ih =>
    have := b.toNat_lt
    rw [leNat_cons, List.length_cons, Nat.pow_succ]
    omega

/-! ## Two's complement -/

/-- The 32-bit pattern of a signed integer. -/
def int32Bits (i : Int) : Nat := (i % 2 ^ 32).toNat

/-- The signed integer a 32-bit pattern stands for. -/
def int32OfBits (n : Nat) : Int := if n < 2 ^ 31 then n else n - 2 ^ 32

theorem int32Bits_lt (i : Int) : int32Bits i < 256 ^ 4 := by
  unfold int32Bits
  omega

theorem int32OfBits_int32Bits {i : Int} (lo : -2 ^ 31 ≤ i) (hi : i < 2 ^ 31) : int32OfBits (int32Bits i) = i := by
  unfold int32OfBits int32Bits
  split <;> omega

/-- The 64-bit pattern of a signed integer. -/
def int64Bits (i : Int) : Nat := (i % 2 ^ 64).toNat

/-- The signed integer a 64-bit pattern stands for. -/
def int64OfBits (n : Nat) : Int := if n < 2 ^ 63 then n else n - 2 ^ 64

theorem int64Bits_lt (i : Int) : int64Bits i < 256 ^ 8 := by
  unfold int64Bits
  omega

theorem int64OfBits_int64Bits {i : Int} (lo : -2 ^ 63 ≤ i) (hi : i < 2 ^ 63) : int64OfBits (int64Bits i) = i := by
  unfold int64OfBits int64Bits
  split <;> omega

theorem int64Bits_natCast {n : Nat} (h : n < 2 ^ 64) : int64Bits n = n := by
  unfold int64Bits
  omega

/-! ## Key streams -/

/-- Exclusive or with the key stream `ks`, read from position `pos` on. -/
def xorStream (ks : Nat → UInt8) : Nat → Bytes → Bytes
  | _, [] => []
  | pos, b :: bs => (b ^^^ ks pos) :: xorStream ks (pos + 1) bs

section

variable (ks : Nat → UInt8) (pos : Nat)

include ks pos

theorem xorStream_cons (b : UInt8) (bs : Bytes) :
    xorStream ks pos (b :: bs) = (b ^^^ ks pos) :: xorStream ks (pos + 1) bs := rfl

@[simp] theorem length_xorStream (bs : Bytes) : (xorStream ks pos bs).length = bs.length := by
  induction bs generalizing pos with
  | nil => rfl
  | cons b bs ih => simp [xorStream_cons, ih]

theorem xorStream_append (as bs : Bytes) :
    xorStream ks pos (as ++ bs) = xorStream ks pos as ++ xorStream ks (pos + as.length) bs := by
  induction as generalizing pos with
  | nil => rfl
  | cons a as ih =>
    simp only [List.cons_append, xorStream_cons, ih, List.length_cons]
    rw [show pos + 1 + as.length = pos + (as.length + 1) by omega]

@[simp] theorem xorStream_xorStream (bs : Bytes) : xorStream ks pos (xorStream ks pos bs) = bs := by
  induction bs generalizing pos with
  | nil => rfl
  | cons b bs ih => rw [xorStream_cons, xorStream_cons, ih, UInt8.xor_assoc, UInt8.xor_self, UInt8.xor_zero]

end

theorem xorStream_take (ks : Nat → UInt8) (pos n : Nat) (bs : Bytes) :
    xorStream ks pos (bs.take n) = (xorStream ks pos bs).take n := by
  induction bs generalizing pos n with
  | nil =>
    rw [List.take_nil]
    exact List.take_nil.symm
  | cons b bs ih =>
    cases n with
    | zero => rfl
    | succ n => simp [xorStream_cons, ih]

end Tdlib
