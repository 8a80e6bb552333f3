/-
`get`, `set` and `prune_node` do to a node what `lookup`, `set` and `prune` do
to the trie it stands for.

The recursion of each follows the trie: the node is loaded, and its children
stand for the children of the trie, deeper by the prefix and one more bit.
-/
import Tdlib.E2e.TrieRep

namespace Tdlib.E2e.TrieNode

open Outcome BitTrie

variable {sha256 : Bytes → UInt256} {snapshot : Bytes} {d : Nat}

/-- What `get` returns, by what the trie says. -/
def readOutcome : Option (Option Bytes) → Outcome Bytes
  | none => .error "Cannot load pruned node"
  | some value => .ok (value.getD [])

variable {p : List Bool} {n : TrieNode} {t : KeyTrie} {key : BitString} {k : List Bool} {fuel : Nat} {bs : BitString}
variable {keys : List BitString} {ks : List (List Bool)}

theorem sized_children {l r : KeyTrie} (h : (BitTrie.inner p l r).Sized (256 - d)) :
    p.length < 256 - d ∧ l.Sized (256 - (d + p.length + 1)) ∧ r.Sized (256 - (d + p.length + 1)) := by
  obtain ⟨hp, hl, hr⟩ := h
  have hrest : 256 - d - (p.length + 1) = 256 - (d + p.length + 1) := by omega
  rw [hrest] at hl hr
  exact ⟨hp, hl, hr⟩

theorem getLoop_rep
    (hrep : Rep sha256 snapshot d n t) (ht : t.Sized (256 - d)) (hkey : key.Holds d k) (hk : k.length = 256 - d)
    (hfuel : k.length < fuel) : getLoop sha256 snapshot fuel n key = readOutcome (t.lookup k) := by
  obtain _ | fuel := fuel
  · omega
  induction t generalizing d n key k fuel with
  | hole =>
    simp only [getLoop, load_hole hrep, error_bind]
    rfl
  | empty =>
    simp only [getLoop, load_empty hrep, ok_bind]
    rfl
  | leaf s v =>
    obtain ⟨bs, hload, hs, -⟩ := load_leaf hrep ht
    simp only [getLoop, hload, ok_bind, hkey.equals hs (hk.trans ht.symm), BitTrie.lookup, readOutcome]
    by_cases h : k = s <;> simp [h]
  | inner p l r ihl ihr =>
    obtain ⟨bs, left, right, hload, hp, hl, hr⟩ := load_inner hrep ht
    obtain ⟨hpn, hsl, hsr⟩ := sized_children ht
    simp only [getLoop, hload, ok_bind, hkey.commonPrefixLength hp, hp.bitsSize, BitTrie.lookup]
    by_cases hc : lcp k p = p.length
    · have hle : p.length + 1 ≤ k.length := by omega
      obtain ⟨key', hsub, hkey'⟩ := hkey.substrFrom hle
      have hk' : (k.drop (p.length + 1)).length = 256 - (d + p.length + 1) := by rw [List.length_drop]; omega
      rw [if_neg (not_not_intro hc), if_pos hc, hkey.getBit (by omega)]
      obtain _ | fuel := fuel
      · omega
      cases k.getD p.length false with
      | false =>
        simp only [ok_bind, Bool.false_eq_true, if_false, ne_eq, not_true_eq_false, hsub]
        exact ihl hl hsl hkey' hk' fuel (by omega)
      | true =>
        simp only [ok_bind, if_true, hsub]
        exact ihr hr hsr hkey' hk' fuel (by omega)
    · rw [if_pos hc, if_neg hc]
      rfl

/-! ## Writing -/

/-- What `set` of the value `v` returns, by what becomes of the trie. A value
that `store_string` cannot store aborts when the hash of its leaf is taken. -/
def WriteOutcome (sha256 : Bytes → UInt256) (snapshot : Bytes) (d : Nat) (v : Bytes) (t : Option KeyTrie)
    (out : Outcome TrieNode) : Prop :=
  match t with
  | none => out = .error "Cannot load pruned node"
  | some t => (v.length < 2 ^ 32 → ∃ n, out = .ok n ∧ Rep sha256 snapshot d n t) ∧ (2 ^ 32 ≤ v.length → out = .fatal)

theorem WriteOutcome.leaf (hbs : bs.Holds d k) (v : Bytes) :
    WriteOutcome sha256 snapshot d v (some (.leaf k v)) (newLeaf sha256 bs v) :=
  ⟨fun hv => newLeaf_rep hbs hv, fun hv => newLeaf_fatal sha256 bs hv⟩

theorem WriteOutcome.map {d' : Nat} {v : Bytes} {t : Option KeyTrie} {out : Outcome TrieNode} {f : KeyTrie → KeyTrie}
    {g : TrieNode → Outcome TrieNode} (h : WriteOutcome sha256 snapshot d' v t out)
    (hg : ∀ n t, Rep sha256 snapshot d' n t → ∃ n', g n = .ok n' ∧ Rep sha256 snapshot d n' (f t)) :
    WriteOutcome sha256 snapshot d v (t.map f) (out >>= g) := by
  cases t with
  | none =>
    have hout : out = _ := h
    rw [hout]
    rfl
  | some t =>
    refine ⟨fun hv => ?_, fun hv => ?_⟩
    · obtain ⟨n, hn, hrep⟩ := h.1 hv
      rw [hn]
      exact hg n t hrep
    · rw [h.2 hv]
      rfl

theorem setLoop_rep (v : Bytes)
    (hrep : Rep sha256 snapshot d n t) (ht : t.Sized (256 - d)) (hkey : key.Holds d k) (hk : k.length = 256 - d)
    (hfuel : k.length < fuel) :
    WriteOutcome sha256 snapshot d v (t.set k v) (setLoop sha256 snapshot fuel n key v) := by
  obtain _ | fuel := fuel
  · omega
  induction t generalizing d n key k fuel with
  | hole =>
    simp only [setLoop, load_hole hrep, error_bind]
    rfl
  | empty =>
    simp only [setLoop, load_empty hrep, ok_bind]
    exact .leaf hkey v
  | leaf s w =>
    obtain ⟨bs, hload, hs, hw⟩ := load_leaf hrep ht
    have hlen : k.length = s.length := hk.trans ht.symm
    simp only [setLoop, hload, ok_bind, hkey.equals hs hlen, BitTrie.set]
    by_cases hks : k = s
    · simp only [hks, decide_true, if_true]
      exact .leaf (hks ▸ hkey) v
    · have hi := lcp_lt_of_ne hlen hks
      obtain ⟨common, hcommon, hc⟩ := hkey.substr (lcp k s) (Nat.zero_le _)
      have hik : lcp k s + 1 ≤ k.length := by omega
      have his : lcp k s + 1 ≤ s.length := by omega
      obtain ⟨rest, hrest, hr⟩ := hkey.substrFrom hik
      obtain ⟨rest', hrest', hr'⟩ := hs.substrFrom his
      have htake : (k.take (lcp k s)).length = lcp k s := by rw [List.length_take]; omega
      simp only [hks, decide_false, Bool.false_eq_true, if_false, hkey.commonPrefixLength hs, ok_bind, hcommon,
        hkey.getBit hi, hrest, hrest', newLeaf_eq hr' hw]
      refine WriteOutcome.map (t := some _)
        (f := fun t => .branch (k.take (lcp k s)) (k.getD (lcp k s) false) t (.leaf (s.drop (lcp k s + 1)) w))
        (.leaf hr v) ?_
      intro n t hn
      exact newSplit_rep hc (htake.symm ▸ hn) (htake.symm ▸ .leaf hr' hw)
  | inner p l r ihl ihr =>
    obtain ⟨bs, left, right, hload, hp, hl, hr⟩ := load_inner hrep ht
    obtain ⟨hpn, hsl, hsr⟩ := sized_children ht
    have hle := (lcp_le p k).1
    simp only [setLoop, hload, ok_bind, hp.commonPrefixLength hkey, hp.bitsSize, BitTrie.set]
    by_cases hi : lcp p k < p.length
    · obtain ⟨common, hcommon, hc⟩ := hp.substr (lcp p k) (Nat.zero_le _)
      have hip : lcp p k + 1 ≤ p.length := by omega
      have hik : lcp p k + 1 ≤ k.length := by omega
      obtain ⟨rest, hrest, hrp⟩ := hp.substrFrom hip
      obtain ⟨rest', hrest', hrk⟩ := hkey.substrFrom hik
      have htake : (p.take (lcp p k)).length = lcp p k := by rw [List.length_take]; omega
      have hdrop : d + (lcp p k + 1) + (p.drop (lcp p k + 1)).length + 1 = d + p.length + 1 := by
        rw [List.length_drop]; omega
      obtain ⟨split, hsplit, hsplitRep⟩ := newInner_rep hrp (hdrop.symm ▸ hl) (hdrop.symm ▸ hr)
      simp only [hi, if_true, hcommon, hrest, hp.getBit hi, hsplit, hrest', ok_bind]
      refine WriteOutcome.map (t := some _)
        (f := fun t => .branch (p.take (lcp p k)) (p.getD (lcp p k) false) (.inner (p.drop (lcp p k + 1)) l r) t)
        (.leaf hrk v) ?_
      intro n t hn
      exact newSplit_rep hc (htake.symm ▸ hsplitRep) (htake.symm ▸ hn)
    · have hi : lcp p k = p.length := by omega
      have hle' : p.length + 1 ≤ k.length := by omega
      obtain ⟨key', hsub, hkey'⟩ := hkey.substrFrom hle'
      have hk' : (k.drop (p.length + 1)).length = 256 - (d + p.length + 1) := by rw [List.length_drop]; omega
      rw [hi, if_neg (Nat.lt_irrefl _), if_neg (Nat.lt_irrefl _), hkey.getBit (by omega)]
      obtain _ | fuel := fuel
      · omega
      cases k.getD p.length false with
      | false =>
        simp only [ok_bind, Bool.false_eq_true, if_false, ne_eq, not_true_eq_false, hsub]
        exact (ihl hl hsl hkey' hk' fuel (by omega)).map fun n t hn => newInner_rep hp hn hr
      | true =>
        simp only [ok_bind, if_true, hsub]
        exact (ihr hr hsr hkey' hk' fuel (by omega)).map fun n t hn => newInner_rep hp hl hn

/-! ## Pruning -/

/-- The keys at depth `d`, as bit strings and as lists of bits. -/
abbrev HoldKeys (d : Nat) (keys : List BitString) (ks : List (List Bool)) : Prop :=
  List.Forall₂ (fun key k => key.Holds d k) keys ks

theorem splitKeys_holds (hp : bs.Holds d p) (hkeys : HoldKeys d keys ks) (hlong : ∀ k ∈ ks, p.length < k.length)
    (sides : List BitString × List BitString) :
    ∃ left right, keys.foldlM (splitKey bs) sides = .ok (sides.1 ++ left, sides.2 ++ right) ∧
      HoldKeys (d + p.length + 1) left (keysOn p false ks) ∧
      HoldKeys (d + p.length + 1) right (keysOn p true ks) := by
  induction hkeys generalizing sides with
  | nil => exact ⟨[], [], by simp, .nil, .nil⟩
  | @cons key k keys ks hkey _ ih =>
    have hlt : p.length < k.length := hlong k (by simp)
    have ih := fun sides => ih (fun k hk => hlong k (by simp [hk])) sides
    by_cases hc : lcp k p = p.length
    · have hle : p.length + 1 ≤ k.length := by omega
      obtain ⟨rest, hrest, hr⟩ := hkey.substrFrom hle
      have hstep : splitKey bs sides key = .ok (if k.getD p.length false then (sides.1, sides.2 ++ [rest])
          else (sides.1 ++ [rest], sides.2)) := by
        simp only [splitKey, hp.bitsSize, hkey.commonPrefixLength hp, ok_bind, hc, if_true, hkey.getBit hlt,
          hrest]
        cases k.getD p.length false <;> rfl
      rw [List.foldlM_cons, hstep, ok_bind]
      cases hbit : k.getD p.length false with
      | false =>
        obtain ⟨left, right, hfold, hl, hrt⟩ := ih (sides.1 ++ [rest], sides.2)
        refine ⟨rest :: left, right, by simpa using hfold, ?_, ?_⟩
        · rw [keysOn_cons, if_pos ⟨hc, hbit⟩]
          exact .cons hr hl
        · rw [keysOn_cons, if_neg (fun h => Bool.noConfusion (hbit.symm.trans h.2))]
          exact hrt
      | true =>
        obtain ⟨left, right, hfold, hl, hrt⟩ := ih (sides.1, sides.2 ++ [rest])
        refine ⟨left, rest :: right, by simpa using hfold, ?_, ?_⟩
        · rw [keysOn_cons, if_neg (fun h => Bool.noConfusion (hbit.symm.trans h.2))]
          exact hl
        · rw [keysOn_cons, if_pos ⟨hc, hbit⟩]
          exact .cons hr hrt
    · have hstep : splitKey bs sides key = .ok sides := by
        simp [splitKey, hp.bitsSize, hkey.commonPrefixLength hp, hc, pure_def]
      obtain ⟨left, right, hfold, hl, hrt⟩ := ih sides
      refine ⟨left, right, by rw [List.foldlM_cons, hstep, ok_bind, hfold], ?_, ?_⟩
      · rw [keysOn_cons, if_neg (fun h => hc h.1)]
        exact hl
      · rw [keysOn_cons, if_neg (fun h => hc h.1)]
        exact hrt

theorem isEmpty_iff (h : HoldKeys d keys ks) : keys.isEmpty = true ↔ ks = [] := by
  cases h <;> simp

/-- What `prune_node` returns, by what becomes of the trie. -/
def PruneOutcome (sha256 : Bytes → UInt256) (snapshot : Bytes) (d : Nat) (t : Option KeyTrie)
    (out : Outcome TrieNode) : Prop :=
  match t with
  | none => out = .error "Cannot load pruned node"
  | some t => ∃ n, out = .ok n ∧ Rep sha256 snapshot d n t

theorem PruneOutcome.bind {d' : Nat} {t : Option KeyTrie} {out : Outcome TrieNode} {f : KeyTrie → Option KeyTrie}
    {g : TrieNode → Outcome TrieNode} (h : PruneOutcome sha256 snapshot d' t out)
    (hg : ∀ n t, Rep sha256 snapshot d' n t → PruneOutcome sha256 snapshot d (f t) (g n)) :
    PruneOutcome sha256 snapshot d (t.bind f) (out >>= g) := by
  cases t with
  | none =>
    have hout : out = _ := h
    rw [hout]
    rfl
  | some t =>
    obtain ⟨n, rfl, hrep⟩ := h
    exact hg n t hrep

theorem pruneNode_rep (hrep : Rep sha256 snapshot d n t) (ht : t.Sized (256 - d)) (hkeys : HoldKeys d keys ks)
    (hks : ∀ k ∈ ks, k.length = 256 - d) (hfuel : 256 - d < fuel) :
    PruneOutcome sha256 snapshot d (t.prune (fun x => sha256 (encodePreimage x)) d ks)
      (pruneNode sha256 snapshot fuel n keys) := by
  have hempty := isEmpty_iff hkeys
  obtain _ | fuel := fuel
  · omega
  induction t generalizing d n keys ks fuel with
  | hole =>
    simp only [pruneNode, load_hole hrep, error_bind]
    rfl
  | empty =>
    simp only [pruneNode, load_empty hrep, ok_bind]
    exact ⟨_, rfl, .empty⟩
  | leaf s v =>
    obtain ⟨bs, hload, hs, hv⟩ := load_leaf hrep ht
    simp only [pruneNode, hload, ok_bind, BitTrie.prune, hempty]
    by_cases h : ks = []
    · simp only [h, if_true]
      exact ⟨_, rfl, .hole _⟩
    · simp only [h, if_false]
      exact ⟨_, rfl, .leaf hs hv⟩
  | inner p l r ihl ihr =>
    obtain ⟨bs, left, right, hload, hp, hl, hr⟩ := load_inner hrep ht
    obtain ⟨hpn, hsl, hsr⟩ := sized_children ht
    simp only [pruneNode, hload, ok_bind, BitTrie.prune, hempty]
    by_cases h : ks = []
    · simp only [h, if_true]
      exact ⟨_, rfl, .hole _⟩
    · have hdepth : 256 - d - (p.length + 1) = 256 - (d + p.length + 1) := by omega
      have hlen : ∀ b, ∀ k ∈ BitTrie.keysOn p b ks, k.length = 256 - (d + p.length + 1) :=
        fun b k hk => hdepth ▸ BitTrie.length_of_mem_keysOn hks hk
      have hfuel : 256 - (d + p.length + 1) < fuel := by omega
      obtain ⟨leftKeys, rightKeys, hsplit, hlk, hrk⟩ := splitKeys_holds hp hkeys
        (fun k hk => by rw [hks k hk]; exact hpn) ([], [])
      simp only [h, if_false, hsplit, List.nil_append, ok_bind]
      obtain _ | fuel := fuel
      · omega
      refine (ihl hl hsl hlk (hlen false) (isEmpty_iff hlk) fuel hfuel).bind fun nl tl hrl => ?_
      rw [Option.map_eq_bind]
      exact (ihr hr hsr hrk (hlen true) (isEmpty_iff hrk) fuel hfuel).bind fun nr tr hrr => newInner_rep hp hrl hrr

end Tdlib.E2e.TrieNode
