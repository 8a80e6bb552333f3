/-
Replay windows: the keys seen last, in their order.

A window refuses what is in it, and what is smaller than all that is in it.
What it refuses it keeps refusing, while keys are added that it does not refuse
and the smallest ones are dropped, as long as something is left.
-/
import Tdlib.Lib.OrderedMap

namespace Tdlib.SeenWindow

open OrderedMap (Sorted emplace)

variable {α κ : Type} [LinearOrder κ] {key : α → κ} {window rest : List α} {a b x : α}

/-- The element is in the window, or before all of it. -/
def Refuses (key : α → κ) (window : List α) (a : α) : Prop := a ∈ window ∨ ∃ b ∈ window.head?, key a < key b

theorem not_refuses_nil : ¬ Refuses key [] a := by simp [Refuses]

theorem refuses_cons : Refuses key (b :: rest) a ↔ a ∈ b :: rest ∨ key a < key b := by simp [Refuses]

section

variable (hinj : Function.Injective key)

include hinj

theorem key_ne_of_not_refuses (hx : ¬ Refuses key window x) : ∀ b ∈ window, key b ≠ key x := by
  intro b hb heq
  exact hx (.inl (hinj heq ▸ hb))

theorem refuses_emplace_self (hx : ¬ Refuses key window x) : Refuses key (emplace key x window) x :=
  .inl ((OrderedMap.mem_emplace (key_ne_of_not_refuses hinj hx)).mpr (.inl rfl))

theorem emplace_cons (hx : ¬ Refuses key (b :: rest) x) : emplace key x (b :: rest) = b :: emplace key x rest := by
  rw [refuses_cons, not_or] at hx
  have hne : key b ≠ key x := fun heq => hx.1 (hinj heq ▸ List.mem_cons_self ..)
  rw [emplace, if_neg hx.2, if_pos (lt_of_le_of_ne (not_lt.1 hx.2) hne)]

theorem Refuses.emplace (h : Refuses key window a) (hx : ¬ Refuses key window x) :
    Refuses key (OrderedMap.emplace key x window) a := by
  cases window with
  | nil => exact absurd h not_refuses_nil
  | cons b rest =>
    have hmem := OrderedMap.mem_emplace (x := a) (key_ne_of_not_refuses hinj hx)
    rw [refuses_cons] at h
    rcases h with h | hlt
    · exact .inl (hmem.mpr (.inr h))
    · rw [emplace_cons hinj hx]
      exact refuses_cons.mpr (.inr hlt)

end

/-- The smallest elements can be dropped, but not all of them. -/
theorem Refuses.drop {dropped : List α} (hsorted : Sorted key (dropped ++ rest)) (hne : rest ≠ [])
    (h : Refuses key (dropped ++ rest) a) : Refuses key rest a := by
  cases dropped with
  | nil => exact h
  | cons b dropped =>
    cases rest with
    | nil => exact absurd rfl hne
    | cons c rest =>
      obtain ⟨hbelow, -⟩ := hsorted.lt_of_split
      rw [List.cons_append, refuses_cons, ← List.cons_append, List.mem_append] at h
      rw [refuses_cons]
      rcases h with (h | h) | hlt
      · exact .inr (hbelow a h)
      · exact .inl h
      · exact .inr (lt_trans hlt (hbelow b (List.mem_cons_self ..)))

end Tdlib.SeenWindow
