/-
Compressed binary tries over keys of one length, parts of which may be
missing.

A trie stands for a finite map; `hole` stands for a part that is known only by
its digest. `lookup` and `set` give `none` where they need such a part. Writing
a key is an update of the map (`lookup_set`), and a trie without holes and
without empty children is determined by its map (`Full.ext`).
-/
import Tdlib.Lib.Bits

namespace Tdlib

open List

inductive BitTrie (V H : Type)
  | empty
  | leaf (suffix : List Bool) (value : V)
  | inner (pfx : List Bool) (left right : BitTrie V H)
  | hole (hash : H)

namespace BitTrie

variable {V H : Type}

/-- The value under a key, if any, unless a missing part decides it. -/
def lookup : BitTrie V H → List Bool → Option (Option V)
  | .empty, _ => some none
  | .leaf s v, k => some (if k = s then some v else none)
  | .inner p l r, k =>
    if lcp k p = p.length then
      if k.getD p.length false then r.lookup (k.drop (p.length + 1)) else l.lookup (k.drop (p.length + 1))
    else some none
  | .hole _, _ => none

/-- An inner node with `t` on the side of `bit` and `u` on the other one. -/
def branch (pfx : List Bool) (bit : Bool) (t u : BitTrie V H) : BitTrie V H :=
  if bit then .inner pfx u t else .inner pfx t u

def set : BitTrie V H → List Bool → V → Option (BitTrie V H)
  | .empty, k, v => some (.leaf k v)
  | .leaf s w, k, v =>
    if k = s then some (.leaf k v)
    else
      let i := lcp k s
      some (branch (k.take i) (k.getD i false) (.leaf (k.drop (i + 1)) v) (.leaf (s.drop (i + 1)) w))
  | .inner p l r, k, v =>
    let i := lcp p k
    if i < p.length then
      some (branch (p.take i) (p.getD i false) (.inner (p.drop (i + 1)) l r) (.leaf (k.drop (i + 1)) v))
    else if k.getD i false then (r.set (k.drop (i + 1)) v).map (.inner p l)
    else (l.set (k.drop (i + 1)) v).map fun l' => .inner p l' r
  | .hole _, _, _ => none

/-- The keys of the trie have `n` bits. -/
def Sized : BitTrie V H → Nat → Prop
  | .leaf s _, n => s.length = n
  | .inner p l r, n => p.length < n ∧ l.Sized (n - (p.length + 1)) ∧ r.Sized (n - (p.length + 1))
  | _, _ => True

/-- No part is missing and no node is empty. -/
def Full : BitTrie V H → Prop
  | .leaf _ _ => True
  | .inner _ l r => l.Full ∧ r.Full
  | _ => False

/-! ## Keys against prefixes -/

theorem key_cases {p k : List Bool} (h : p.length < k.length) :
    (∃ b k', k = p ++ b :: k') ∨ ∃ c a x y, p = c ++ a :: x ∧ k = c ++ (!a) :: y := by
  rcases extends_or_diverge h.le with ⟨rest, rfl⟩ | hdiverge
  · cases rest with
    | nil => simp at h
    | cons b k' => exact .inl ⟨b, k', rfl⟩
  · exact .inr hdiverge

theorem sized_key_cases {p k : List Bool} {n : Nat} (hp : p.length < n) (hk : k.length = n) :
    (∃ b z, k = p ++ b :: z ∧ z.length = n - (p.length + 1)) ∨ ∃ c a x y, p = c ++ a :: x ∧ k = c ++ (!a) :: y := by
  subst hk
  rcases key_cases hp with ⟨b, z, rfl⟩ | hdiverge
  · exact .inl ⟨b, z, rfl, by simp; omega⟩
  · exact .inr hdiverge

theorem leaf_cases {s k : List Bool} (h : k.length = s.length) :
    k = s ∨ ∃ c a x y, k = c ++ a :: x ∧ s = c ++ (!a) :: y := by
  rcases extends_or_diverge h.le with ⟨rest, rfl⟩ | hdiverge
  · cases rest with
    | nil => exact .inl (by simp)
    | cons b k' => simp at h
  · exact .inr hdiverge

theorem append_cons_ne (c : List Bool) (a : Bool) (x y : List Bool) : c ++ a :: x ≠ c ++ (!a) :: y := by
  simp

@[simp] theorem lookup_inner_append (p : List Bool) (l r : BitTrie V H) (b : Bool) (k : List Bool) :
    (inner p l r).lookup (p ++ b :: k) = if b then r.lookup k else l.lookup k := by
  simp [lookup, lcp_comm _ p, lcp_append]

section

variable (c : List Bool) (a : Bool) (x y : List Bool)

include c a x y

@[simp] theorem lookup_inner_diverge (l r : BitTrie V H) :
    (inner (c ++ a :: x) l r).lookup (c ++ (!a) :: y) = some none := by
  rw [lookup, lcp_diverge (by simp), if_neg (by simp)]

theorem set_leaf_diverge (w v : V) :
    (leaf (c ++ (!a) :: y) w : BitTrie V H).set (c ++ a :: x) v = some (branch c a (.leaf x v) (.leaf y w)) := by
  simp [set, (append_cons_ne c a x y), lcp_diverge]

theorem set_inner_diverge (l r : BitTrie V H) (v : V) :
    (inner (c ++ a :: x) l r).set (c ++ (!a) :: y) v = some (branch c a (.inner x l r) (.leaf y v)) := by
  simp [set, lcp_diverge]

end

theorem set_inner_append (p : List Bool) (l r : BitTrie V H) (b : Bool) (k : List Bool) (v : V) :
    (inner p l r).set (p ++ b :: k) v =
      ((if b then r else l).set k v).map fun t => branch p b t (if b then l else r) := by
  cases b <;> simp [set, lcp_append, branch]

/-- A lookup that passes a part `c` of a prefix goes on with the rest of it. -/
theorem lookup_inner_push (c x z : List Bool) (l r : BitTrie V H) :
    (inner (c ++ x) l r).lookup (c ++ z) = (inner x l r).lookup z := by
  have hget : (c ++ z).getD (c.length + x.length) false = z.getD x.length false := by
    rw [getD_append_right _ _ _ _ (by omega), Nat.add_sub_cancel_left]
  have hdrop : (c ++ z).drop (c.length + x.length + 1) = z.drop (x.length + 1) := by
    rw [Nat.add_assoc, ← drop_drop, drop_left]
  simp only [lookup, lcp_append_left, length_append, Nat.add_left_cancel_iff, hget, hdrop]

theorem lookup_branch_append (c : List Bool) (a b : Bool) (t u : BitTrie V H) (k : List Bool) :
    (branch c a t u).lookup (c ++ b :: k) = if b = a then t.lookup k else u.lookup k := by
  cases a <;> cases b <;> simp [branch]

theorem lookup_branch_diverge (c : List Bool) (e a : Bool) (x y : List Bool) (t u : BitTrie V H) :
    (branch (c ++ e :: x) a t u).lookup (c ++ (!e) :: y) = some none := by
  cases a <;> exact lookup_inner_diverge ..

variable {p : List Bool} {l r : BitTrie V H} {k : List Bool} {v : V} {t t' : BitTrie V H} {n : Nat} {c : List Bool}

theorem lookup_inner_some
    (hk : p.length < k.length) (h : (inner p l r).lookup k = some (some v)) : ∃ b k', k = p ++ b :: k' := by
  rcases key_cases hk with found | ⟨c, a, x, y, rfl, rfl⟩
  · exact found
  · rw [lookup_inner_diverge] at h
    cases h

/-! ## Writing a key updates the map -/

/-- **Writing a key updates the map**, also when parts of the trie are missing. -/
theorem lookup_set {k' : List Bool} (ht : t.Sized n) (hk : k.length = n)
    (hk' : k'.length = n) (h : t.set k v = some t') :
    t'.lookup k' = if k' = k then some (some v) else t.lookup k' := by
  induction t generalizing n k k' t' with
  | empty =>
    cases h
    simp only [lookup]
    split_ifs <;> rfl
  | hole => cases h
  | leaf s w =>
    have hlen : k.length = s.length := by rw [hk, ht]
    rcases leaf_cases hlen with rfl | ⟨c, a, x, y, rfl, rfl⟩
    · rw [set, if_pos rfl] at h
      cases h
      simp only [lookup]
      split_ifs <;> rfl
    · rw [set_leaf_diverge] at h
      cases h
      -- a key leaves the common part, or goes to one of the two sides
      rcases key_cases (show c.length < k'.length by simp [hk', ← hk]) with
        ⟨b, z, rfl⟩ | ⟨c', e, x', y', rfl, rfl⟩
      · rw [lookup_branch_append]
        cases a <;> cases b <;> simp [lookup] <;> split_ifs <;> rfl
      · simp [lookup_branch_diverge, lookup]
  | inner p l r ihl ihr =>
    obtain ⟨hp, hl, hr⟩ := ht
    rcases sized_key_cases hp hk with ⟨b, z, rfl, hz⟩ | ⟨c, a, x, y, rfl, rfl⟩
    · rw [set_inner_append, Option.map_eq_some_iff] at h
      obtain ⟨t1, h1, rfl⟩ := h
      rcases sized_key_cases hp hk' with ⟨b', z', rfl, hz'⟩ | ⟨c', e, x', y', rfl, rfl⟩
      · have ih : t1.lookup z' = if z' = z then some (some v) else (if b then r else l).lookup z' := by
          cases b with
          | false => exact ihl hl hz hz' h1
          | true => exact ihr hr hz hz' h1
        rw [lookup_branch_append, lookup_inner_append, ih]
        cases b <;> cases b' <;> simp
      · rw [lookup_branch_diverge, lookup_inner_diverge, if_neg]
        simp
    · rw [set_inner_diverge] at h
      cases h
      have hlt : c.length < k'.length := by simp at hk; omega
      rcases key_cases hlt with
        ⟨b, z, rfl⟩ | ⟨c', e, x', y', rfl, rfl⟩
      · rw [lookup_branch_append]
        by_cases hb : b = a
        · subst hb
          rw [if_pos rfl, if_neg (append_cons_ne c b z y), append_cons c b x, append_cons c b z,
            lookup_inner_push]
        · have hb' : b = !a := by cases a <;> cases b <;> simp_all
          subst hb'
          rw [if_neg hb, lookup_inner_diverge]
          simp only [lookup, append_cancel_left_eq, List.cons.injEq, true_and]
          split_ifs <;> rfl
      · rw [lookup_branch_diverge, append_assoc c' _ (a :: x), cons_append, lookup_inner_diverge, if_neg]
        simp

/-- A key can be written exactly when it can be read. -/
theorem set_isSome (t : BitTrie V H) (ht : t.Sized n) (hk : k.length = n) (v : V) :
    (t.set k v).isSome = (t.lookup k).isSome := by
  induction t generalizing n k with
  | empty | hole => rfl
  | leaf s w =>
    simp only [set, lookup]
    split_ifs <;> rfl
  | inner p l r ihl ihr =>
    obtain ⟨hp, hl, hr⟩ := ht
    rcases sized_key_cases hp hk with ⟨b, z, rfl, hz⟩ | ⟨c, a, x, y, rfl, rfl⟩
    · rw [set_inner_append, lookup_inner_append, Option.isSome_map]
      cases b with
      | false => exact ihl hl hz
      | true => exact ihr hr hz
    · rw [set_inner_diverge, lookup_inner_diverge]
      rfl

theorem Sized.branch {a : Bool} {u : BitTrie V H} (hc : c.length < n)
    (ht : t.Sized (n - (c.length + 1))) (hu : u.Sized (n - (c.length + 1))) : (branch c a t u).Sized n := by
  cases a
  · exact ⟨hc, ht, hu⟩
  · exact ⟨hc, hu, ht⟩

theorem Sized.set (ht : t.Sized n) (hk : k.length = n) (h : t.set k v = some t') : t'.Sized n := by
  induction t generalizing n k t' with
  | empty => cases h; exact hk
  | hole => cases h
  | leaf s w =>
    have hlen : k.length = s.length := by rw [hk, ht]
    rcases leaf_cases hlen with rfl | ⟨c, a, x, y, rfl, rfl⟩
    · rw [BitTrie.set, if_pos rfl] at h
      cases h
      exact ht
    · rw [set_leaf_diverge] at h
      cases h
      simp only [Sized, length_append, length_cons] at ht hk
      exact .branch (by omega) (show x.length = _ by omega) (show y.length = _ by omega)
  | inner p l r ihl ihr =>
    obtain ⟨hp, hl, hr⟩ := ht
    rcases sized_key_cases hp hk with ⟨b, z, rfl, hz⟩ | ⟨c, a, x, y, rfl, rfl⟩
    · rw [set_inner_append, Option.map_eq_some_iff] at h
      obtain ⟨t1, h1, rfl⟩ := h
      cases b with
      | false => exact .branch hp (ihl hl hz h1) hr
      | true => exact .branch hp (ihr hr hz h1) hl
    · rw [set_inner_diverge] at h
      cases h
      simp only [length_append, length_cons] at hp hl hr hk
      have hn : n - (c.length + 1) - (x.length + 1) = n - (c.length + (x.length + 1) + 1) := by omega
      exact .branch (by omega) ⟨by omega, hn ▸ hl, hn ▸ hr⟩ (show y.length = _ by omega)

theorem Full.branch {a : Bool} {u : BitTrie V H} (ht : t.Full) (hu : u.Full) : (branch c a t u).Full := by
  cases a
  · exact ⟨ht, hu⟩
  · exact ⟨hu, ht⟩

theorem full_children (hfull : inner p l r = .empty ∨ (inner p l r).Full) : l.Full ∧ r.Full := by
  rcases hfull with h | h
  · cases h
  · exact h

/-- Writing to a trie with nothing missing gives one with nothing missing. -/
theorem Full.set (hfull : t = .empty ∨ t.Full) (ht : t.Sized n)
    (hk : k.length = n) (v : V) : ∃ t', t.set k v = some t' ∧ t'.Full := by
  induction t generalizing n k with
  | empty => exact ⟨_, rfl, trivial⟩
  | hole => rcases hfull with h | h <;> cases h
  | leaf s w =>
    have hlen : k.length = s.length := by rw [hk, ht]
    rcases leaf_cases hlen with rfl | ⟨c, a, x, y, rfl, rfl⟩
    · exact ⟨_, if_pos rfl, trivial⟩
    · exact ⟨_, set_leaf_diverge .., .branch trivial trivial⟩
  | inner p l r ihl ihr =>
    obtain ⟨hp, hl, hr⟩ := ht
    obtain ⟨hfl, hfr⟩ := full_children hfull
    rcases sized_key_cases hp hk with ⟨b, z, rfl, hz⟩ | ⟨c, a, x, y, rfl, rfl⟩
    · rw [set_inner_append]
      cases b with
      | false =>
        obtain ⟨t1, h1, hf1⟩ := ihl (.inr hfl) hl hz
        exact ⟨BitTrie.branch p false t1 r, by simp [h1], .branch hf1 hfr⟩
      | true =>
        obtain ⟨t1, h1, hf1⟩ := ihr (.inr hfr) hr hz
        exact ⟨BitTrie.branch p true t1 l, by simp [h1], .branch hf1 hfl⟩
    · refine ⟨_, set_inner_diverge .., .branch (t := inner x l r) ⟨hfl, hfr⟩ trivial⟩

theorem Full.lookup_isSome (hfull : t = .empty ∨ t.Full) (k : List Bool) : (t.lookup k).isSome := by
  induction t generalizing k with
  | empty | leaf => rfl
  | hole => rcases hfull with h | h <;> cases h
  | inner p l r ihl ihr =>
    obtain ⟨hfl, hfr⟩ := full_children hfull
    rw [lookup]
    split_ifs
    · exact ihr (.inr hfr) _
    · exact ihl (.inr hfl) _
    · rfl

/-! ## A trie is determined by its map -/

theorem Full.exists_key (hfull : t.Full) (ht : t.Sized n) : ∃ k v, k.length = n ∧ t.lookup k = some (some v) := by
  induction t generalizing n with
  | empty | hole => cases hfull
  | leaf s v => exact ⟨s, v, ht, by simp [lookup]⟩
  | inner p l r ihl ihr =>
    obtain ⟨hp, hl, hr⟩ := ht
    obtain ⟨k, v, hk, hv⟩ := ihl hfull.1 hl
    refine ⟨p ++ false :: k, v, ?_, by simpa using hv⟩
    simp only [length_append, length_cons]
    omega

theorem Full.exists_key_side (hfull : (inner p l r).Full) (ht : (inner p l r).Sized n) (b : Bool) :
    ∃ k v, (p ++ b :: k).length = n ∧ (inner p l r).lookup (p ++ b :: k) = some (some v) := by
  obtain ⟨hp, hl, hr⟩ := ht
  obtain ⟨k, v, hk, hv⟩ : ∃ k v, k.length = n - (p.length + 1) ∧
      (if b then r.lookup k else l.lookup k) = some (some v) := by
    cases b with
    | false => exact exists_key hfull.1 hl
    | true => exact exists_key hfull.2 hr
  refine ⟨k, v, ?_, by rw [lookup_inner_append, hv]⟩
  simp only [length_append, length_cons]
  omega

/-- The prefix of one of two tries with the same map is not longer than that
of the other: a key on either side of the first has to pass it. -/
theorem Full.pfx_le {q : List Bool} {l' r' : BitTrie V H} (hfull : (inner p l r).Full)
    (ht : (inner p l r).Sized n) (ht' : (inner q l' r').Sized n)
    (same : ∀ k, k.length = n → (inner p l r).lookup k = (inner q l' r').lookup k) :
    q.length ≤ p.length ∧ ∀ i < q.length, q[i]? = p[i]? := by
  have passes : ∀ b, ∃ k e k', p ++ b :: k = q ++ e :: k' := by
    intro b
    obtain ⟨k, v, hk, hv⟩ := hfull.exists_key_side ht b
    rw [same _ hk] at hv
    obtain ⟨e, k', h⟩ := lookup_inner_some (by rw [hk]; exact ht'.1) hv
    exact ⟨k, e, k', h⟩
  obtain ⟨k1, e1, k1', h1⟩ := passes false
  obtain ⟨k2, e2, k2', h2⟩ := passes true
  have hle : q.length ≤ p.length := by
    by_contra hgt
    have g1 := congrArg (·[p.length]?) h1
    have g2 := congrArg (·[p.length]?) h2
    simp only [List.getElem?_append_right (Nat.le_refl p.length), Nat.sub_self, List.getElem?_cons_zero,
      List.getElem?_append_left (show p.length < q.length by omega)] at g1 g2
    rw [← g1] at g2
    cases g2
  refine ⟨hle, fun i hi => ?_⟩
  have g1 := congrArg (·[i]?) h1
  have hlt : i < p.length := by omega
  simp only [List.getElem?_append_left hi, List.getElem?_append_left hlt] at g1
  exact g1.symm

/-- **A trie is determined by its map.** -/
theorem Full.ext (hfull : t.Full) (hfull' : t'.Full) (ht : t.Sized n)
    (ht' : t'.Sized n) (same : ∀ k, k.length = n → t.lookup k = t'.lookup k) : t = t' := by
  induction t generalizing t' n with
  | empty | hole => cases hfull
  | leaf s v =>
    cases t' with
    | empty | hole => cases hfull'
    | leaf s' v' =>
      have h := same s ht
      simp only [lookup, if_true, Option.some.injEq] at h
      split_ifs at h with hs
      cases h
      rw [hs]
    | inner q l' r' =>
      -- a leaf has one key only
      obtain ⟨k1, v1, hk1, h1⟩ := hfull'.exists_key_side ht' false
      obtain ⟨k2, v2, hk2, h2⟩ := hfull'.exists_key_side ht' true
      rw [← same _ hk1, lookup, Option.some.injEq] at h1
      rw [← same _ hk2, lookup, Option.some.injEq] at h2
      split_ifs at h1 h2 with e1 e2
      rw [← e1] at e2
      simp at e2
  | inner p l r ihl ihr =>
    cases t' with
    | empty | hole => cases hfull'
    | leaf s' v' =>
      obtain ⟨k1, v1, hk1, h1⟩ := hfull.exists_key_side ht false
      obtain ⟨k2, v2, hk2, h2⟩ := hfull.exists_key_side ht true
      rw [same _ hk1, lookup, Option.some.injEq] at h1
      rw [same _ hk2, lookup, Option.some.injEq] at h2
      split_ifs at h1 h2 with e1 e2
      rw [← e1] at e2
      simp at e2
    | inner q l' r' =>
      obtain ⟨hqp, heq⟩ := hfull.pfx_le ht ht' same
      obtain ⟨hpq, -⟩ := hfull'.pfx_le ht' ht fun k hk => (same k hk).symm
      obtain rfl : p = q := by
        apply ext_getElem? fun i => ?_
        by_cases hi : i < q.length
        · exact (heq i hi).symm
        · rw [List.getElem?_eq_none (by omega), List.getElem?_eq_none (by omega)]
      obtain ⟨hp, hl, hr⟩ := ht
      have side : ∀ (b : Bool) (k : List Bool), k.length = n - (p.length + 1) →
          (if b then r.lookup k else l.lookup k) = if b then r'.lookup k else l'.lookup k := by
        intro b k hk
        have := same (p ++ b :: k) (by simp only [length_append, length_cons]; omega)
        rwa [lookup_inner_append, lookup_inner_append] at this
      rw [ihl hfull.1 hfull'.1 hl ht'.2.1 (side false), ihr hfull.2 hfull'.2 hr ht'.2.2 (side true)]

end BitTrie

end Tdlib
