/-
Digests of binary tries, and tries with parts replaced by their digests.

The digest of a node is a function `N` of its depth, its own bits and value,
and the digests of its children. A trie that prunes another one answers every
lookup and every write as the other does, or not at all (`Prunes.lookup`,
`Prunes.set`). Where `N` has no collision between the nodes of two tries,
equal digests leave no other way (`Prunes.of_digest_eq`).
-/
import Tdlib.Lib.BitTrie

namespace Tdlib

namespace BitTrie

variable {V H : Type}

/-- A node as its digest sees it. -/
inductive Shape (V H : Type)
  | empty
  | leaf (suffix : List Bool) (value : V)
  | inner (pfx : List Bool) (left right : H)

structure Preimage (V H : Type) where
  depth : Nat
  shape : Shape V H

/-- The digest of a trie whose keys start at bit `d` of the whole key. -/
def digest (N : Preimage V H → H) : BitTrie V H → Nat → H
  | .empty, d => N ⟨d, .empty⟩
  | .leaf s v, d => N ⟨d, .leaf s v⟩
  | .inner p l r, d => N ⟨d, .inner p (l.digest N (d + p.length + 1)) (r.digest N (d + p.length + 1))⟩
  | .hole h, _ => h

/-- What the digests of the nodes of a trie are taken over. -/
def preimages (N : Preimage V H → H) : BitTrie V H → Nat → List (Preimage V H)
  | .empty, d => [⟨d, .empty⟩]
  | .leaf s v, d => [⟨d, .leaf s v⟩]
  | .inner p l r, d =>
    ⟨d, .inner p (l.digest N (d + p.length + 1)) (r.digest N (d + p.length + 1))⟩ ::
      (l.preimages N (d + p.length + 1) ++ r.preimages N (d + p.length + 1))
  | .hole _, _ => []

/-- The first trie is the second one with some parts replaced by their
digests. -/
inductive Prunes (N : Preimage V H → H) : Nat → BitTrie V H → BitTrie V H → Prop
  | empty {d : Nat} : Prunes N d .empty .empty
  | leaf {d : Nat} (s : List Bool) (v : V) : Prunes N d (.leaf s v) (.leaf s v)
  | inner {d : Nat} (p : List Bool) {l r l' r' : BitTrie V H} (hl : Prunes N (d + p.length + 1) l l')
      (hr : Prunes N (d + p.length + 1) r r') : Prunes N d (.inner p l r) (.inner p l' r')
  | hole {d : Nat} (t : BitTrie V H) : Prunes N d (.hole (t.digest N d)) t

section

variable {N : Preimage V H → H} {d n : Nat} {p t : BitTrie V H} {k : List Bool}

theorem Prunes.digest (h : Prunes N d p t) : p.digest N d = t.digest N d := by
  induction h with
  | empty | leaf | hole => rfl
  | inner p hl hr ihl ihr => simp [BitTrie.digest, ihl, ihr]

theorem Prunes.sized (h : Prunes N d p t) (ht : t.Sized n) : p.Sized n := by
  induction h generalizing n with
  | empty | hole => trivial
  | leaf => exact ht
  | inner p hl hr ihl ihr =>
    obtain ⟨hp, hsl, hsr⟩ := ht
    exact ⟨hp, ihl hsl, ihr hsr⟩

theorem Prunes.lookup (h : Prunes N d p t) (k : List Bool) : p.lookup k = none ∨ p.lookup k = t.lookup k := by
  induction h generalizing k with
  | empty | leaf => exact .inr rfl
  | hole => exact .inl rfl
  | inner p hl hr ihl ihr =>
    simp only [BitTrie.lookup]
    split_ifs
    · exact ihr _
    · exact ihl _
    · exact .inr rfl

theorem Prunes.branch {c : List Bool} {a : Bool} {p' u' : BitTrie V H} (ht : Prunes N (d + c.length + 1) p t)
    (hu : Prunes N (d + c.length + 1) p' u') : Prunes N d (branch c a p p') (branch c a t u') := by
  cases a
  · exact .inner c ht hu
  · exact .inner c hu ht

/-- A write to a pruned trie needs a missing part, or does what it does to the
whole trie. -/
theorem Prunes.set (h : Prunes N d p t) (ht : t.Sized n) (hk : k.length = n) (v : V) :
    p.set k v = none ∨ ∃ p' t', p.set k v = some p' ∧ t.set k v = some t' ∧ Prunes N d p' t' := by
  induction h generalizing n k with
  | empty => exact .inr ⟨_, _, rfl, rfl, .leaf k v⟩
  | hole => exact .inl rfl
  | leaf s w =>
    rcases leaf_cases (show k.length = s.length by rw [hk, ht]) with rfl | ⟨c, a, x, y, rfl, rfl⟩
    · exact .inr ⟨_, _, if_pos rfl, if_pos rfl, .leaf k v⟩
    · exact .inr ⟨_, _, set_leaf_diverge .., set_leaf_diverge .., .branch (.leaf x v) (.leaf y w)⟩
  | @inner d p l r l' r' hl hr ihl ihr =>
    obtain ⟨hp, hsl, hsr⟩ := ht
    rcases sized_key_cases hp hk with ⟨b, z, rfl, hz⟩ | ⟨c, a, x, y, rfl, rfl⟩
    · rw [set_inner_append, set_inner_append]
      cases b with
      | false =>
        rcases ihl hsl hz with h | ⟨p', t', h, h', hpt⟩
        · exact .inl (by simp [h])
        · exact .inr ⟨BitTrie.branch p false p' r, BitTrie.branch p false t' r', by simp [h], by simp [h'],
            .branch hpt hr⟩
      | true =>
        rcases ihr hsr hz with h | ⟨p', t', h, h', hpt⟩
        · exact .inl (by simp [h])
        · exact .inr ⟨BitTrie.branch p true p' l, BitTrie.branch p true t' l', by simp [h], by simp [h'],
            .branch hpt hl⟩
    · refine .inr ⟨_, _, set_inner_diverge .., set_inner_diverge .., .branch (.inner x ?_ ?_) (.leaf y v)⟩
      · simpa [Nat.add_assoc, Nat.add_comm, Nat.add_left_comm] using hl
      · simpa [Nat.add_assoc, Nat.add_comm, Nat.add_left_comm] using hr

/-- **Equal digests.** A trie with the digest of a full one prunes it, unless
`N` collides on the nodes of the two. -/
theorem Prunes.of_digest_eq (hfull : t = .empty ∨ t.Full)
    (inj : ∀ x ∈ p.preimages N d, ∀ y ∈ t.preimages N d, x.depth = y.depth → N x = N y → x = y)
    (h : p.digest N d = t.digest N d) : Prunes N d p t := by
  induction p generalizing d t with
  | hole hash =>
    obtain rfl : hash = t.digest N d := h
    exact .hole t
  | empty =>
    cases t with
    | empty => exact .empty
    | hole => rcases hfull with h | h <;> cases h
    | leaf | inner => cases inj _ (.head _) _ (.head _) rfl h
  | leaf s v =>
    cases t with
    | hole => rcases hfull with h | h <;> cases h
    | leaf s' v' =>
      cases inj _ (.head _) _ (.head _) rfl h
      exact .leaf s v
    | empty | inner => cases inj _ (.head _) _ (.head _) rfl h
  | inner p l r ihl ihr =>
    cases t with
    | hole => rcases hfull with h | h <;> cases h
    | empty | leaf => cases inj _ (.head _) _ (.head _) rfl h
    | inner p' l' r' =>
      obtain ⟨hfl, hfr⟩ := full_children hfull
      have heq := inj _ (.head _) _ (.head _) rfl h
      simp only [Preimage.mk.injEq, Shape.inner.injEq, true_and] at heq
      obtain ⟨rfl, hl, hr⟩ := heq
      refine .inner p (ihl (.inr hfl) ?_ hl) (ihr (.inr hfr) ?_ hr)
      · intro x hx y hy
        exact inj x (by simp [preimages, hx]) y (by simp [preimages, hy])
      · intro x hx y hy
        exact inj x (by simp [preimages, hx]) y (by simp [preimages, hy])

end

/-! ## Pruning to a list of keys -/

/-- The rests of the keys that go on the side `b` of an inner node. -/
def keysOn (p : List Bool) (b : Bool) (keys : List (List Bool)) : List (List Bool) :=
  keys.filterMap fun k =>
    if lcp k p = p.length ∧ k.getD p.length false = b then some (k.drop (p.length + 1)) else none

/-- The trie without the parts no key of the list needs. -/
def prune (N : Preimage V H → H) : BitTrie V H → Nat → List (List Bool) → Option (BitTrie V H)
  | .empty, _, _ => some .empty
  | .hole _, _, _ => none
  | .leaf s v, d, keys => some (if keys = [] then .hole ((leaf s v).digest N d) else .leaf s v)
  | .inner p l r, d, keys =>
    if keys = [] then some (.hole ((inner p l r).digest N d))
    else
      (l.prune N (d + p.length + 1) (keysOn p false keys)).bind fun l' =>
        (r.prune N (d + p.length + 1) (keysOn p true keys)).map (.inner p l')

theorem keysOn_cons (p : List Bool) (b : Bool) (k : List Bool) (keys : List (List Bool)) : keysOn p b (k :: keys) =
      if lcp k p = p.length ∧ k.getD p.length false = b then k.drop (p.length + 1) :: keysOn p b keys
      else keysOn p b keys := by
  rw [keysOn, List.filterMap_cons]
  split_ifs <;> rfl

variable {p : List Bool} {keys : List (List Bool)} {k : List Bool}

theorem length_of_mem_keysOn {b : Bool} {n : Nat}
    (h : ∀ k ∈ keys, k.length = n) (hk : k ∈ keysOn p b keys) : k.length = n - (p.length + 1) := by
  simp only [keysOn, List.mem_filterMap, Option.ite_none_right_eq_some, Option.some.injEq] at hk
  obtain ⟨k0, hk0, -, rfl⟩ := hk
  rw [List.length_drop, h k0 hk0]

theorem mem_keysOn {b : Bool} (h : p ++ b :: k ∈ keys) : k ∈ keysOn p b keys := by
  simp only [keysOn, List.mem_filterMap]
  exact ⟨_, h, by simp [lcp_comm _ p, lcp_append]⟩

theorem Sized.prune {N : Preimage V H → H} {t p : BitTrie V H} {n d : Nat} (ht : t.Sized n)
    (h : t.prune N d keys = some p) : p.Sized n := by
  induction t generalizing n d keys p with
  | empty => cases h; trivial
  | hole => cases h
  | leaf s v =>
    rw [BitTrie.prune, Option.some.injEq] at h
    subst h
    split_ifs
    · trivial
    · exact ht
  | inner q l r ihl ihr =>
    obtain ⟨hq, hsl, hsr⟩ := ht
    rw [BitTrie.prune] at h
    split_ifs at h
    · cases h; trivial
    · simp only [Option.bind_eq_some_iff, Option.map_eq_some_iff] at h
      obtain ⟨l', hl', r', hr', rfl⟩ := h
      exact ⟨hq, ihl hsl hl', ihr hsr hr'⟩

/-- Pruning a full trie succeeds, and every key of the list stays readable. -/
theorem prune_spec (N : Preimage V H → H) {t : BitTrie V H} {n d : Nat}
    (hfull : t = .empty ∨ t.Full) (ht : t.Sized n) (hkeys : ∀ k ∈ keys, k.length = n) :
    ∃ p, t.prune N d keys = some p ∧ Prunes N d p t ∧ ∀ k ∈ keys, (p.lookup k).isSome := by
  induction t generalizing n d keys with
  | empty => exact ⟨_, rfl, .empty, fun _ _ => rfl⟩
  | hole => rcases hfull with h | h <;> cases h
  | leaf s v =>
    by_cases hempty : keys = []
    · exact ⟨_, by rw [prune, if_pos hempty], .hole _, by simp [hempty]⟩
    · exact ⟨_, by rw [prune, if_neg hempty], .leaf s v, fun _ _ => rfl⟩
  | inner p l r ihl ihr =>
    by_cases hempty : keys = []
    · exact ⟨_, by rw [prune, if_pos hempty], .hole _, by simp [hempty]⟩
    obtain ⟨hp, hsl, hsr⟩ := ht
    obtain ⟨hfl, hfr⟩ := full_children hfull
    have hbelow : ∀ b, ∀ k ∈ keysOn p b keys, k.length = n - (p.length + 1) :=
      fun b k hk => length_of_mem_keysOn hkeys hk
    obtain ⟨l', hl', hpl, hkl⟩ := ihl (d := d + p.length + 1) (.inr hfl) hsl (hbelow false)
    obtain ⟨r', hr', hpr, hkr⟩ := ihr (d := d + p.length + 1) (.inr hfr) hsr (hbelow true)
    refine ⟨.inner p l' r', by rw [prune, if_neg hempty, hl', hr']; rfl, .inner p hpl hpr, ?_⟩
    intro k hk
    rcases key_cases (show p.length < k.length by rw [hkeys k hk]; omega) with
      ⟨b, z, rfl⟩ | ⟨c, a, x, y, rfl, rfl⟩
    · rw [lookup_inner_append]
      cases b with
      | false => exact hkl z (mem_keysOn hk)
      | true => exact hkr z (mem_keysOn hk)
    · simp

end BitTrie

end Tdlib
