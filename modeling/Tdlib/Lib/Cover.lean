/-
Lists of finite sets that do not meet: how many elements they have together, and
that they fill a set which has no more.
-/
import Mathlib.Algebra.BigOperators.Group.Finset.Basic
import Mathlib.Algebra.GroupWithZero.Nat

namespace Tdlib.Cover

variable {α β : Type} [DecidableEq β] {f : α → Finset β} {l : List α} {s : Finset β}

/-- What the sets of a list cover. -/
def cover (f : α → Finset β) : List α → Finset β
  | [] => ∅
  | a :: l => f a ∪ cover f l

theorem mem_cover {x : β} : x ∈ cover f l ↔ ∃ a ∈ l, x ∈ f a := by
  induction l with
  | nil => simp [cover]
  | cons a l ih => simp [cover, ih]

theorem cover_subset (h : ∀ a ∈ l, f a ⊆ s) : cover f l ⊆ s := by
  intro x hx
  obtain ⟨a, ha, hxa⟩ := mem_cover.mp hx
  exact h a ha hxa

theorem subset_cover {a : α} (ha : a ∈ l) : f a ⊆ cover f l := fun _ hx => mem_cover.mpr ⟨a, ha, hx⟩

theorem cover_append (l1 l2 : List α) : cover f (l1 ++ l2) = cover f l1 ∪ cover f l2 := by
  induction l1 with
  | nil => simp [cover]
  | cons a l1 ih => simp [cover, ih]

/-- Sets that do not meet have as many elements as all of them together. -/
theorem card_cover (h : l.Pairwise fun a b => Disjoint (f a) (f b)) :
    (cover f l).card = (l.map fun a => (f a).card).sum := by
  induction l with
  | nil => rfl
  | cons a l ih =>
    obtain ⟨hhead, htail⟩ := List.pairwise_cons.mp h
    have hdisjoint : Disjoint (f a) (cover f l) := by
      rw [Finset.disjoint_left]
      intro x hxa hx
      obtain ⟨b, hb, hxb⟩ := mem_cover.mp hx
      exact Finset.disjoint_left.mp (hhead b hb) hxa hxb
    rw [cover, Finset.card_union_of_disjoint hdisjoint, ih htail, List.map_cons, List.sum_cons]

section

variable (hdisjoint : l.Pairwise fun a b => Disjoint (f a) (f b)) (hsub : ∀ a ∈ l, f a ⊆ s)

include hdisjoint hsub

theorem sum_card_le : (l.map fun a => (f a).card).sum ≤ s.card := by
  rw [← card_cover hdisjoint]
  exact Finset.card_le_card (cover_subset hsub)

theorem cover_eq_of_card_le (hcard : s.card ≤ (l.map fun a => (f a).card).sum) : cover f l = s := by
  apply Finset.eq_of_subset_of_card_le (cover_subset hsub)
  rw [card_cover hdisjoint]
  exact hcard

end

end Tdlib.Cover
