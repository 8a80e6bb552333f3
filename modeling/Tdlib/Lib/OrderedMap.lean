/-
Ordered maps and sets as lists: elements that carry their keys, in the order
of these.
-/
import Mathlib.Order.Lattice
import Mathlib.Data.List.Pairwise
import Mathlib.Data.List.Perm.Basic

namespace Tdlib.OrderedMap

open List

variable {α κ : Type} [LinearOrder κ] (key : α → κ)

/-- The element takes the place of the one with its key, if there is one. -/
def assign (a : α) : List α → List α
  | [] => [a]
  | b :: l => if key a < key b then a :: b :: l else if key b < key a then b :: assign a l else a :: l

/-- The element is put in unless there is one with its key. -/
def emplace (a : α) : List α → List α
  | [] => [a]
  | b :: l => if key a < key b then a :: b :: l else if key b < key a then b :: emplace a l else b :: l

def erase (k : κ) (l : List α) : List α := l.filter fun a => key a ≠ k

def Sorted (l : List α) : Prop := l.Pairwise fun a b => key a < key b

variable {key} {a b x : α} {l r : List α} {k : κ}

theorem Sorted.of_sublist (h : Sorted key l) (hsub : r.Sublist l) : Sorted key r := h.sublist hsub

theorem Sorted.eq_of_key (h : Sorted key l) (ha : a ∈ l) (hb : b ∈ l) (hkey : key a = key b) : a = b := by
  induction l with
  | nil => cases ha
  | cons c l ih =>
    obtain ⟨hc, hl⟩ := pairwise_cons.1 h
    rcases mem_cons.1 ha with rfl | ha'
    · rcases mem_cons.1 hb with rfl | hb'
      · rfl
      · exact absurd hkey (hc b hb').ne
    · rcases mem_cons.1 hb with rfl | hb'
      · exact absurd hkey (hc a ha').ne'
      · exact ih hl ha' hb'

theorem Sorted.lt_of_split (h : Sorted key (l ++ b :: r)) : (∀ x ∈ l, key x < key b) ∧ ∀ x ∈ r, key b < key x := by
  obtain ⟨-, hcons, hcross⟩ := pairwise_append.1 h
  refine ⟨fun x hx => hcross x hx b (mem_cons_self ..), (pairwise_cons.1 hcons).1⟩

theorem Sorted.le_of_mem_dropWhile (h : Sorted key l) (hx : x ∈ l.dropWhile fun a => key a < k) : k ≤ key x := by
  induction l with
  | nil => cases hx
  | cons b l ih =>
    obtain ⟨hb, hl⟩ := pairwise_cons.1 h
    rw [dropWhile_cons] at hx
    split at hx
    · exact ih hl hx
    · next hle =>
      have hkb : k ≤ key b := not_lt.1 (by simpa using hle)
      rcases mem_cons.1 hx with rfl | hx
      · exact hkb
      · exact le_trans hkb (le_of_lt (hb x hx))

/-! ## A key above all others -/

theorem assign_of_lt (h : ∀ x ∈ l, key x < key a) : assign key a l = l ++ [a] := by
  induction l with
  | nil => rfl
  | cons b l ih =>
    have hb := h b (mem_cons_self ..)
    simp [assign, (lt_asymm hb), hb, cons_append, ih fun x hx => h x (mem_cons_of_mem _ hx)]

theorem Sorted.append_of_lt (h : Sorted key l) (ha : ∀ x ∈ l, key x < key a) : Sorted key (l ++ [a]) := by
  refine pairwise_append.2 ⟨h, pairwise_singleton _ _, fun x hx y hy => ?_⟩
  rw [mem_singleton.1 hy]
  exact ha x hx

/-! ## A key that is there -/

theorem assign_mid (h : Sorted key (l ++ b :: r)) (hkey : key a = key b) :
    assign key a (l ++ b :: r) = l ++ a :: r := by
  induction l with
  | nil => simp only [nil_append, assign, hkey, lt_irrefl, if_false]
  | cons c l ih =>
    have hc : key c < key a := by
      rw [hkey]
      exact h.lt_of_split.1 c (mem_cons_self ..)
    simp [cons_append, assign, (lt_asymm hc), hc, ih (pairwise_cons.1 h).2]

theorem Sorted.replace (h : Sorted key (l ++ b :: r)) (hkey : key a = key b) : Sorted key (l ++ a :: r) := by
  obtain ⟨hleft, hright⟩ := h.lt_of_split
  obtain ⟨h1, h2, h3⟩ := pairwise_append.1 h
  refine pairwise_append.2 ⟨h1, pairwise_cons.2 ⟨fun x hx => ?_, (pairwise_cons.1 h2).2⟩,
    fun x hx y hy => ?_⟩
  · rw [hkey]; exact hright x hx
  · rcases mem_cons.1 hy with rfl | hy
    · rw [hkey]; exact hleft x hx
    · exact h3 x hx y (mem_cons_of_mem _ hy)

theorem erase_eq_self (h : ∀ x ∈ l, key x ≠ k) : erase key k l = l :=
  filter_eq_self.2 fun x hx => decide_eq_true (h x hx)

theorem erase_mid (h : Sorted key (l ++ b :: r)) : erase key (key b) (l ++ b :: r) = l ++ r := by
  obtain ⟨hleft, hright⟩ := h.lt_of_split
  have hl : erase key (key b) l = l := erase_eq_self fun x hx => ne_of_lt (hleft x hx)
  have hr : erase key (key b) r = r := erase_eq_self fun x hx => ne_of_gt (hright x hx)
  have hsplit : erase key (key b) (l ++ b :: r) = erase key (key b) l ++ erase key (key b) r := by
    simp [erase]
  rw [hsplit, hl, hr]

theorem mem_erase : x ∈ erase key k l ↔ x ∈ l ∧ key x ≠ k := by
  simp [erase]

/-! ## Membership -/

theorem mem_emplace (h : ∀ b ∈ l, key b ≠ key a) : x ∈ emplace key a l ↔ x = a ∨ x ∈ l := by
  induction l with
  | nil => simp [emplace]
  | cons b l ih =>
    have hb := h b (mem_cons_self ..)
    simp only [emplace]
    split
    · simp
    · next hlt =>
      have hgt : key b < key a := lt_of_le_of_ne (not_lt.1 hlt) hb
      rw [if_pos hgt]
      simp only [mem_cons, ih fun c hc => h c (mem_cons_of_mem _ hc)]
      constructor
      · rintro (rfl | rfl | hx)
        · exact .inr (.inl rfl)
        · exact .inl rfl
        · exact .inr (.inr hx)
      · rintro (rfl | rfl | hx)
        · exact .inr (.inl rfl)
        · exact .inl rfl
        · exact .inr (.inr hx)

theorem Sorted.emplace (hl : Sorted key l) (h : ∀ b ∈ l, key b ≠ key a) : Sorted key (emplace key a l) := by
  induction l with
  | nil => exact pairwise_singleton _ _
  | cons b l ih =>
    obtain ⟨hb, hl⟩ := pairwise_cons.1 hl
    have htail : ∀ c ∈ l, key c ≠ key a := fun c hc => h c (mem_cons_of_mem _ hc)
    simp only [OrderedMap.emplace]
    split
    · next hlt =>
      refine pairwise_cons.2 ⟨fun c hc => ?_, pairwise_cons.2 ⟨hb, hl⟩⟩
      rcases mem_cons.1 hc with rfl | hc
      · exact hlt
      · exact lt_trans hlt (hb c hc)
    · next hlt =>
      have hgt : key b < key a := lt_of_le_of_ne (not_lt.1 hlt) (h b (mem_cons_self ..))
      rw [if_pos hgt]
      refine pairwise_cons.2 ⟨fun c hc => ?_, ih hl htail⟩
      rcases (mem_emplace htail).1 hc with rfl | hc
      · exact hgt
      · exact hb c hc

section

variable (h : ∀ b ∈ l, key b ≠ key a)

include h

theorem emplace_perm : (emplace key a l).Perm (a :: l) := by
  induction l with
  | nil => exact .refl _
  | cons b l ih =>
    have hb := h b (mem_cons_self ..)
    simp only [emplace]
    split
    · exact .refl _
    · next hlt =>
      rw [if_pos (lt_of_le_of_ne (not_lt.1 hlt) hb)]
      exact ((ih fun c hc => h c (mem_cons_of_mem _ hc)).cons b).trans (.swap a b l)

theorem length_emplace : (emplace key a l).length = l.length + 1 := (emplace_perm h).length_eq

theorem assign_eq_emplace : assign key a l = emplace key a l := by
  induction l with
  | nil => rfl
  | cons b l ih =>
    have hb := h b (mem_cons_self ..)
    simp only [assign, emplace]
    split
    · rfl
    · next hlt =>
      have hgt : key b < key a := lt_of_le_of_ne (not_lt.1 hlt) hb
      rw [if_pos hgt, if_pos hgt, ih fun c hc => h c (mem_cons_of_mem _ hc)]

end

theorem emplace_of_lt (h : ∀ x ∈ l, key x < key a) : emplace key a l = l ++ [a] := by
  rw [← assign_eq_emplace fun x hx => ne_of_lt (h x hx), assign_of_lt h]

theorem Sorted.emplace_of_mem (hl : Sorted key l) (h : ∃ b ∈ l, key b = key a) : OrderedMap.emplace key a l = l := by
  induction l with
  | nil => simp at h
  | cons b l ih =>
    obtain ⟨hb, hl⟩ := pairwise_cons.1 hl
    obtain ⟨c, hc, hkey⟩ := h
    simp only [OrderedMap.emplace]
    rcases mem_cons.1 hc with rfl | hc
    · rw [hkey, if_neg (lt_irrefl _), if_neg (lt_irrefl _)]
    · have hlt : key b < key a := by rw [← hkey]; exact hb c hc
      rw [if_neg (lt_asymm hlt), if_pos hlt, ih hl ⟨c, hc, hkey⟩]

theorem mem_of_mem_emplace (h : x ∈ emplace key a l) : x = a ∨ x ∈ l := by
  induction l with
  | nil => exact .inl (mem_singleton.1 h)
  | cons b l ih =>
    simp only [emplace] at h
    split at h
    · exact mem_cons.1 h
    · split at h
      · rcases mem_cons.1 h with rfl | h
        · exact .inr (mem_cons_self ..)
        · exact (ih h).imp_right (mem_cons_of_mem _)
      · exact .inr h

theorem exists_emplace : (∃ b ∈ emplace key a l, key b = k) ↔ key a = k ∨ ∃ b ∈ l, key b = k := by
  induction l with
  | nil => simp [emplace]
  | cons c l ih =>
    simp only [emplace]
    split
    · simp
    · split
      · simp only [exists_mem_cons_iff, ih]
        exact or_left_comm
      · next hlt hgt =>
        have hkey : key c = key a := le_antisymm (not_lt.1 hlt) (not_lt.1 hgt)
        simp [hkey]

theorem filter_emplace {p : α → Bool} (ha : p a = false) : (emplace key a l).filter p = l.filter p := by
  induction l with
  | nil => simp [emplace, ha]
  | cons b l ih =>
    simp only [emplace]
    split
    · rw [filter_cons, ha]
      rfl
    · split
      · rw [filter_cons, filter_cons, ih]
      · rfl

end Tdlib.OrderedMap
