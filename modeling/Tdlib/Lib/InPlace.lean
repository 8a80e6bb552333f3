/-
A list rewritten in place: one position is read, another one behind it is
written. As long as the written position does not pass the read one, the part
before it is what was put out and the part from the read position on is what
was there at first.
-/
import Mathlib.Data.List.Basic

namespace Tdlib

open List

variable {α : Type} {buffer : List α} {w r : Nat} {out rest : List α} {x d : α}

/-- A buffer written up to `w` and read up to `r`: it holds `out` before `w` and
`rest` from `r` on. -/
structure InPlace (buffer : List α) (w r : Nat) (out rest : List α) : Prop where
  behind : w ≤ r
  within : r ≤ buffer.length
  written : buffer.take w = out
  unread : buffer.drop r = rest

namespace InPlace

theorem start (buffer : List α) : InPlace buffer 0 0 [] buffer := ⟨Nat.le_refl _, Nat.zero_le _, rfl, rfl⟩

section

variable (h : InPlace buffer w r out rest)

include h

theorem length_out : out.length = w := by
  have hle := Nat.le_trans h.behind h.within
  rw [← h.written, length_take, Nat.min_eq_left hle]

theorem length_eq : buffer.length = r + rest.length := by
  have hle := h.within
  rw [← h.unread, length_drop]
  omega

theorem getD_read (k : Nat) (d : α) : buffer.getD (r + k) d = rest.getD k d := by
  rw [← h.unread, getD_eq_getElem?_getD, getD_eq_getElem?_getD, List.getElem?_drop]

end

theorem getD_zero (h : InPlace buffer w r out (x :: rest)) (d : α) : buffer.getD r d = x := h.getD_read 0 d

theorem getD_written (h : InPlace buffer w r out rest) {k : Nat} (hk : k < w) (d : α) :
    buffer.getD k d = out.getD k d := by
  rw [← h.written, getD_eq_getElem?_getD, getD_eq_getElem?_getD, List.getElem?_take_of_lt hk]

theorem skip {xs : List α} (h : InPlace buffer w r out (xs ++ rest)) : InPlace buffer w (r + xs.length) out rest where
  behind := Nat.le_add_right_of_le h.behind
  within := by
    have hlength := h.length_eq
    rw [length_append] at hlength
    omega
  written := h.written
  unread := by rw [← drop_drop, h.unread, drop_left]

theorem skip_one (h : InPlace buffer w r out (x :: rest)) : InPlace buffer w (r + 1) out rest :=
  skip (show InPlace buffer w r out ([x] ++ rest) from h)

theorem take_set {b : α} (hw : w < buffer.length) : (buffer.set w b).take (w + 1) = buffer.take w ++ [b] := by
  rw [take_succ_eq_append_getElem (by rw [List.length_set]; exact hw), take_set_of_le (Nat.le_refl _),
    getElem_set_self]

theorem put (h : InPlace buffer w r out rest) (hlt : w < r) (b : α) :
    InPlace (buffer.set w b) (w + 1) r (out ++ [b]) rest where
  behind := hlt
  within := by rw [List.length_set]; exact h.within
  written := by rw [take_set (Nat.lt_of_lt_of_le hlt h.within), h.written]
  unread := by rw [drop_set_of_lt hlt, h.unread]

theorem move (h : InPlace buffer w r out (x :: rest)) (b : α) :
    InPlace (buffer.set w b) (w + 1) (r + 1) (out ++ [b]) rest :=
  h.skip_one.put (Nat.lt_succ_of_le h.behind) b

end InPlace

end Tdlib
