/-
Logs of updates of keyed values. An entry gives its key a value or removes
the key; replaying a log gives the entries that still count, in the order of
their keys. A log may be replaced by what its replay gives: that is what a
compaction does.
-/
import Mathlib.Data.List.Pairwise
import Mathlib.Data.List.Basic

namespace Tdlib.KeyLog

open List

/-- Log entries: the key one is about, and whether it removes the key. -/
class Entry (ε : Type) where
  key : ε → Nat
  erases : ε → Bool

open Entry

variable {ε : Type} [Entry ε]

/-- The live entries after one more entry. -/
def put (live : List ε) (e : ε) : List ε :=
  if erases e then live.filter fun x => key x ≠ key e
  else if key e ∈ live.map key then live.map fun x => if key x = key e then e else x
  else live ++ [e]

def replay (live : List ε) (log : List ε) : List ε := log.foldl put live

@[simp] theorem replay_nil (live : List ε) : replay live [] = live := rfl
@[simp] theorem replay_cons (live : List ε) (e : ε) (log : List ε) :
    replay live (e :: log) = replay (put live e) log := rfl

theorem replay_append (live as bs : List ε) : replay live (as ++ bs) = replay (replay live as) bs :=
  foldl_append

variable {e : ε} {as : List ε}

theorem put_of_erases {live : List ε} (h : erases e = true) : put live e = live.filter fun x => key x ≠ key e := by
  unfold put; rw [if_pos h]

theorem put_of_mem {live : List ε} (h : erases e = false) (hmem : key e ∈ live.map key) :
    put live e = live.map fun x => if key x = key e then e else x := by
  unfold put; rw [if_neg (by simp [h]), if_pos hmem]

theorem put_of_new {live : List ε} (h : erases e = false) (hmem : key e ∉ live.map key) : put live e = live ++ [e] := by
  unfold put; rw [if_neg (by simp [h]), if_neg hmem]

theorem mem_put {live : List ε} {x : ε} (h : x ∈ put live e) : x ∈ live ∨ x = e ∧ erases e = false := by
  unfold put at h
  split at h
  next => exact .inl (mem_of_mem_filter h)
  next he =>
    rw [Bool.not_eq_true] at he
    split at h
    next =>
      obtain ⟨y, hy, rfl⟩ := mem_map.1 h
      split
      · exact .inr ⟨rfl, he⟩
      · exact .inl hy
    next =>
      simp_all

/-- A live entry was live before or is one of the log's. -/
theorem mem_replay {live log : List ε} {x : ε} (h : x ∈ replay live log) : x ∈ live ∨ x ∈ log ∧ erases x = false := by
  induction log generalizing live with
  | nil => exact .inl h
  | cons e log ih =>
    rcases ih h with h | ⟨h, hx⟩
    · rcases mem_put h with h | ⟨rfl, he⟩
      · exact .inl h
      · exact .inr ⟨mem_cons_self, he⟩
    · exact .inr ⟨mem_cons_of_mem _ h, hx⟩

/-! ## Logs as maps -/

/-- The entry of a key among the live ones. -/
def lookup (live : List ε) (k : Nat) : Option ε := live.find? fun x => key x = k

/-- What an entry does to a map. -/
def update (m : Nat → Option ε) (e : ε) : Nat → Option ε :=
  fun k => if k = key e then if erases e then none else some e else m k

theorem lookup_filter_ne (live : List ε) (k j : Nat) :
    lookup (live.filter fun x => key x ≠ j) k = if k = j then none else lookup live k := by
  induction live with
  | nil => simp [lookup]
  | cons x live ih =>
    unfold lookup at ih ⊢
    by_cases hx : key x = j
    · rw [filter_cons, if_neg (by simp [hx]), ih, List.find?_cons]
      by_cases hk : k = j
      · simp [hk]
      · rw [if_neg hk, if_neg hk, decide_eq_false (by omega)]
    · rw [filter_cons, if_pos (by simp [hx]), List.find?_cons, List.find?_cons, ih]
      by_cases hk : k = j
      · subst hk; simp [hx]
      · simp [if_neg hk]

theorem lookup_map_replace {live : List ε} (hmem : key e ∈ live.map key) (k : Nat) :
    lookup (live.map fun x => if key x = key e then e else x) k = if k = key e then some e else lookup live k := by
  induction live with
  | nil => simp at hmem
  | cons x live ih =>
    unfold lookup at ih ⊢
    rw [map_cons, List.find?_cons, List.find?_cons]
    by_cases hx : key x = key e
    · rw [if_pos hx]
      by_cases hk : k = key e
      · simp [hk]
      · rw [decide_eq_false (show ¬ key e = k by omega), decide_eq_false (show ¬ key x = k by omega), if_neg hk]
        by_cases hin : key e ∈ live.map key
        · rw [ih hin, if_neg hk]
        · -- No other entry has the key, so that nothing else is replaced.
          have hsame : (live.map fun x => if key x = key e then e else x) = live := by
            simp_all [map_congr_left fun y hy => if_neg ?_, map_id']
          rw [hsame]
    · rw [if_neg hx]
      have hin : key e ∈ live.map key := by
        rw [map_cons, mem_cons] at hmem
        exact hmem.resolve_left fun h => hx h.symm
      rw [ih hin]
      by_cases hk : k = key e
      · simp [hk, hx]
      · simp [if_neg hk]

theorem lookup_append_new {live : List ε} (hmem : key e ∉ live.map key) (k : Nat) :
    lookup (live ++ [e]) k = if k = key e then some e else lookup live k := by
  unfold lookup
  rw [List.find?_append, List.find?_singleton]
  by_cases hk : k = key e
  · subst hk
    have hnone : live.find? (fun x => key x = key e) = none := by
      rw [List.find?_eq_none]
      intro x hx h
      exact hmem (mem_map.2 ⟨x, hx, by simpa using h⟩)
    rw [hnone]; simp
  · rw [decide_eq_false (by omega)]; simp [hk]

/-- Putting an entry among the live ones updates the map they are. -/
theorem lookup_put (live : List ε) (e : ε) : lookup (put live e) = update (lookup live) e := by
  funext k
  unfold put update
  split
  next => exact lookup_filter_ne live k (key e)
  next =>
    split
    next hmem => exact lookup_map_replace hmem k
    next hmem => exact lookup_append_new hmem k

/-- **Replay is a map of last writes.** -/
theorem lookup_replay (live log : List ε) : lookup (replay live log) = log.foldl update (lookup live) := by
  induction log generalizing live with
  | nil => rfl
  | cons e log ih => rw [replay_cons, ih, lookup_put, foldl_cons]

/-! ## Order -/

/-- Live entries, in key order, with keys below `n`. -/
structure Ordered (n : Nat) (live : List ε) : Prop where
  sorted : (live.map key).Pairwise (· < ·)
  below : ∀ x ∈ live, key x < n

theorem Ordered.nil (n : Nat) : Ordered n ([] : List ε) := ⟨.nil, by simp⟩

theorem map_key_replace (live : List ε) (e : ε) :
    (live.map fun x => if key x = key e then e else x).map key = live.map key := by
  rw [map_map]
  refine map_congr_left fun x _ => ?_
  simp only [Function.comp_apply]
  split
  next h => exact h.symm
  next => rfl

/-- In a map that is in order, an entry is live exactly if it is found. -/
theorem Ordered.lookup_eq_some {n : Nat} {live : List ε} (h : Ordered n live) {k : Nat} :
    lookup live k = some e ↔ e ∈ live ∧ key e = k := by
  obtain ⟨hs, -⟩ := h
  induction live with
  | nil => simp [lookup]
  | cons x live ih =>
    rw [map_cons, pairwise_cons] at hs
    have ih := ih hs.2
    unfold lookup at ih ⊢
    rw [List.find?_cons, mem_cons]
    by_cases hx : key x = k
    · rw [decide_eq_true hx]
      constructor
      · intro he; cases he; exact ⟨.inl rfl, hx⟩
      · rintro ⟨rfl | he, hk⟩
        · rfl
        · have := hs.1 (key e) (mem_map.2 ⟨e, he, rfl⟩); omega
    · rw [decide_eq_false hx, ih]
      constructor
      · rintro ⟨he, hk⟩; exact ⟨.inr he, hk⟩
      · rintro ⟨rfl | he, hk⟩
        · exact absurd hk hx
        · exact ⟨he, hk⟩

/-! ## Legal logs -/

/-- Where a log may go on with `e`: with a key that is new, or with one that
is live. The rest is up to `ok`, which is told which of the two it is. -/
def Follows (ok : Bool → ε → Prop) (live : List ε) (n : Nat) (e : ε) : Prop :=
  n ≤ key e ∧ erases e = false ∧ ok false e ∨ key e ∈ live.map key ∧ ok true e

/-- The first key that is new after `e`. -/
def next (n : Nat) (e : ε) : Nat := max n (key e + 1)

def bound (n : Nat) (log : List ε) : Nat := log.foldl next n

/-- Logs each of whose entries may follow those before. -/
def Legal (ok : Bool → ε → Prop) : List ε → Nat → List ε → Prop
  | _, _, [] => True
  | live, n, e :: log => Follows ok live n e ∧ Legal ok (put live e) (next n e) log

variable {ok : Bool → ε → Prop} {live log : List ε} {n : Nat}

theorem legal_append {bs : List ε} :
    Legal ok live n (as ++ bs) ↔ Legal ok live n as ∧ Legal ok (replay live as) (bound n as) bs := by
  induction as generalizing live n with
  | nil => simp [Legal, bound]
  | cons a as ih =>
    simp only [cons_append, Legal, ih, replay_cons, and_assoc]
    rfl

theorem Legal.take (h : Legal ok live n log) (k : Nat) : Legal ok live n (log.take k) := by
  rw [← take_append_drop k log, legal_append] at h
  exact h.1

theorem bound_append (n : Nat) (as bs : List ε) : bound n (as ++ bs) = bound (bound n as) bs := foldl_append

theorem Ordered.put (h : Ordered n live) (he : Follows ok live n e) : Ordered (next n e) (KeyLog.put live e) := by
  refine ⟨?_, fun x hx => ?_⟩
  · unfold KeyLog.put
    split
    next => exact List.Pairwise.sublist (List.Sublist.map key filter_sublist) h.sorted
    next =>
      split
      next => rw [map_key_replace]; exact h.sorted
      next hmem =>
        have hn : n ≤ key e := (he.resolve_right fun h => hmem h.1).1
        rw [map_append, pairwise_append]
        refine ⟨h.sorted, pairwise_singleton _ _, fun a ha b hb => ?_⟩
        obtain ⟨x, hx, rfl⟩ := mem_map.1 ha
        have := h.below x hx
        simp only [map_cons, map_nil, mem_singleton] at hb
        omega
  · rcases mem_put hx with hx | ⟨rfl, -⟩
    · have := h.below x hx; simp only [next]; omega
    · simp only [next]; omega

theorem Ordered.replay (h : Ordered n live) (hlog : Legal ok live n log) :
    Ordered (bound n log) (KeyLog.replay live log) := by
  induction log generalizing live n with
  | nil => exact h
  | cons e log ih => exact ih (h.put hlog.1) hlog.2

theorem Follows.le_key {lo : Nat} (he : Follows ok live n e) (hlo : lo ≤ n) (hlive : ∀ x ∈ live, lo ≤ key x) :
    lo ≤ key e := by
  rcases he with he | he
  · exact Nat.le_trans hlo he.1
  · obtain ⟨x, hx, hk⟩ := mem_map.1 he.1
    rw [← hk]; exact hlive x hx

/-- The keys of a legal log do not fall below the bound it starts from. -/
theorem Legal.le_key {lo : Nat} (h : Legal ok live n log) (hlo : lo ≤ n) (hlive : ∀ x ∈ live, lo ≤ key x) :
    ∀ x ∈ log, lo ≤ key x := by
  induction log generalizing live n with
  | nil => simp
  | cons e log ih =>
    have hkey : lo ≤ key e := h.1.le_key hlo hlive
    intro x hx
    rcases mem_cons.1 hx with rfl | hx
    · exact hkey
    · refine ih h.2 (by simp only [next]; omega) (fun y hy => ?_) x hx
      rcases mem_put hy with hy | ⟨rfl, -⟩
      · exact hlive y hy
      · exact hkey

theorem Legal.ok_of_mem (h : Legal ok live n log) {x : ε} (hx : x ∈ log) :
    ok false x ∧ erases x = false ∨ ok true x := by
  induction log generalizing live n with
  | nil => simp at hx
  | cons e log ih =>
    rcases mem_cons.1 hx with rfl | hx
    · exact h.1.imp (fun h => ⟨h.2.2, h.2.1⟩) fun h => h.2
    · exact ih h.2 hx

/-! ## Compaction -/

theorem replay_of_new (hs : ((live ++ as).map key).Pairwise (· < ·))
    (he : ∀ x ∈ as, erases x = false) : replay live as = live ++ as := by
  induction as generalizing live with
  | nil => simp
  | cons a as ih =>
    have hnew : key a ∉ live.map key := by
      rw [map_append, pairwise_append] at hs
      intro h
      exact Nat.lt_irrefl _ (hs.2.2 (key a) h (key a) (by simp))
    simp_all [replay_cons, put_of_new (he a mem_cons_self) hnew]

theorem Ordered.replay_self (h : Ordered n live) (he : ∀ x ∈ live, erases x = false) :
    KeyLog.replay [] live = live := by
  rw [replay_of_new (by simpa using h.sorted) he, nil_append]

theorem legal_of_new (hs : (as.map key).Pairwise (· < ·)) (hn : ∀ x ∈ as, n ≤ key x)
    (he : ∀ x ∈ as, erases x = false) (hok : ∀ x ∈ as, ok false x) : Legal ok live n as := by
  induction as generalizing live n with
  | nil => trivial
  | cons a as ih =>
    rw [map_cons, pairwise_cons] at hs
    refine ⟨.inl ⟨hn a (by simp), he a (by simp), hok a (by simp)⟩,
      ih hs.2 (fun x hx => ?_) (fun x hx => he x (by simp [hx])) fun x hx => hok x (by simp [hx])⟩
    have h1 := hs.1 (key x) (mem_map.2 ⟨x, hx, rfl⟩)
    have h2 := hn x (by simp [hx])
    simp only [next]; omega

theorem le_bound (n : Nat) (log : List ε) : n ≤ bound n log := by
  induction log generalizing n with
  | nil => exact Nat.le_refl n
  | cons e log ih => exact Nat.le_trans (by simp only [next]; omega) (ih (next n e))

theorem bound_le {m : Nat} (hn : n ≤ m) (h : ∀ x ∈ log, key x < m) : bound n log ≤ m := by
  induction log generalizing n with
  | nil => exact hn
  | cons e log ih =>
    have := h e (by simp)
    exact ih (by simp only [next]; omega) fun x hx => h x (by simp [hx])

/-- What the replay of a legal log gives, in a log that is legal and replays
to the same. -/
theorem Legal.compact (hok : ∀ x : ε, ok true x → erases x = false → ok false x) (h : Legal ok [] n log) :
    Legal ok [] n (replay [] log) ∧ replay [] (replay [] log) = replay [] log ∧
      bound n (replay [] log) ≤ bound n log := by
  have hord : Ordered (bound n log) (replay [] log) := (Ordered.nil n).replay h
  have hmem : ∀ x ∈ replay [] log, x ∈ log ∧ erases x = false := fun x hx =>
    (mem_replay hx).resolve_left (by simp)
  have hle : ∀ x ∈ replay [] log, n ≤ key x := fun x hx =>
    h.le_key (Nat.le_refl n) (by simp) x (hmem x hx).1
  refine ⟨legal_of_new hord.sorted hle (fun x hx => (hmem x hx).2) fun x hx => ?_,
    hord.replay_self fun x hx => (hmem x hx).2, bound_le ?_ hord.below⟩
  · rcases h.ok_of_mem (hmem x hx).1 with h | h
    · exact h.1
    · exact hok x h (hmem x hx).2
  · exact le_bound n log

end Tdlib.KeyLog
