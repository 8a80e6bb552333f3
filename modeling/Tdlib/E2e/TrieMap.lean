/-
A trie filled by `set` is a map from 256-bit keys to values, and nothing else:
what was written to it in which order leaves no trace.
-/
import Tdlib.E2e.TrieOps

namespace Tdlib.E2e

open Outcome TrieNode List

/-- A key of 256 bits. -/
abbrev Key256 := { key : Bytes // key.length = 32 }

namespace Key256

def bits (key : Key256) : List Bool := BitString.keyBits key.val

@[simp] theorem length_bits (key : Key256) : key.bits.length = 256 := BitString.length_keyBits key.val

theorem bits_inj {key key' : Key256} : key.bits = key'.bits ↔ key = key' :=
  ⟨fun h => Subtype.ext (BitString.keyBits_injective key.2 key'.2 h), fun h => by rw [h]⟩

theorem exists_bits {k : List Bool} (hk : k.length = 256) : ∃ key : Key256, key.bits = k := by
  refine ⟨⟨packBits 0 k, by rw [length_packBits, hk]⟩, ?_⟩
  have := bitsAt_packBits 0 k
  rwa [hk] at this

end Key256

theorem TrieNode.toKey_holds (key : Key256) : ∃ a, toKey key.val = .ok a ∧ a.Holds 0 key.bits := by
  rw [toKey, if_neg (not_not_intro key.2)]
  exact BitString.ofSlice_holds key.2

/-! ## One operation -/

section

variable {sha256 : Bytes → UInt256} {snapshot : Bytes}

variable {n n' : TrieNode} {t t' : KeyTrie} {ops : List (Key256 × Bytes)} {d : Nat}

theorem TrieNode.getKey_rep (h : Rep sha256 snapshot 0 n t) (ht : t.Sized 256)
    (key : Key256) : n.getKey sha256 key.val snapshot = readOutcome (t.lookup key.bits) := by
  obtain ⟨a, hkey, ha⟩ := toKey_holds key
  rw [getKey, hkey, ok_bind, get]
  exact getLoop_rep h ht ha key.length_bits (by rw [ha.bitsSize]; omega)

theorem TrieNode.setKey_rep (h : Rep sha256 snapshot 0 n t) (ht : t.Sized 256) (key : Key256) (v : Bytes) :
    WriteOutcome sha256 snapshot 0 v (t.set key.bits v) (n.setKey sha256 key.val v snapshot) := by
  obtain ⟨a, hkey, ha⟩ := toKey_holds key
  rw [setKey, hkey, ok_bind, set]
  exact setLoop_rep v h ht ha key.length_bits (by rw [ha.bitsSize]; omega)

/-- The node stands for a whole trie of 256-bit keys. -/
structure Whole (sha256 : Bytes → UInt256) (snapshot : Bytes) (n : TrieNode) (t : KeyTrie) : Prop where
  rep : Rep sha256 snapshot 0 n t
  sized : t.Sized 256
  full : t = .empty ∨ t.Full

theorem Whole.getKey (h : Whole sha256 snapshot n t) (key : Key256) :
    ∃ value, t.lookup key.bits = some value ∧ n.getKey sha256 key.val snapshot = .ok (value.getD []) := by
  obtain ⟨value, hvalue⟩ := Option.isSome_iff_exists.mp (BitTrie.Full.lookup_isSome h.full key.bits)
  exact ⟨value, hvalue, by rw [getKey_rep h.rep h.sized, hvalue]; rfl⟩

/-- Every write to a whole trie succeeds, unless the value is too long to be
stored. -/
theorem Whole.setKey (h : Whole sha256 snapshot n t) (key : Key256) (v : Bytes) : ∃ t', t.set key.bits v = some t' ∧
      (v.length < 2 ^ 32 → ∃ n', n.setKey sha256 key.val v snapshot = .ok n' ∧ Whole sha256 snapshot n' t') ∧
      (2 ^ 32 ≤ v.length → n.setKey sha256 key.val v snapshot = .fatal) := by
  obtain ⟨t', ht', hfull⟩ := BitTrie.Full.set h.full h.sized key.length_bits v
  have hout := setKey_rep h.rep h.sized key v
  rw [ht'] at hout
  refine ⟨t', ht', fun hv => ?_, hout.2⟩
  obtain ⟨n', hn', hrep⟩ := hout.1 hv
  exact ⟨n', hn', hrep, h.sized.set key.length_bits ht', .inr hfull⟩

theorem Whole.lookup_set (h : Whole sha256 snapshot n t) {key : Key256} {v : Bytes}
    (ht' : t.set key.bits v = some t') (k : Key256) :
    t'.lookup k.bits = if k = key then some (some v) else t.lookup k.bits := by
  rw [BitTrie.lookup_set h.sized key.length_bits k.length_bits ht']
  simp [Key256.bits_inj]

end

/-! ## Filling a trie -/

/-- The trie after `set` of each key and value, from the empty one. -/
def TrieNode.fill (sha256 : Bytes → UInt256) (ops : List (Key256 × Bytes)) : Outcome TrieNode := do
  let n ← newEmpty sha256
  ops.foldlM (fun n op => n.setKey sha256 op.1.val op.2 []) n

/-- The value written to the key last, if any. -/
def lastValue : List (Key256 × Bytes) → Key256 → Option Bytes
  | [], _ => none
  | op :: ops, key => (lastValue ops key).or (if op.1 = key then some op.2 else none)

section

variable {sha256 : Bytes → UInt256}

theorem Whole.empty (snapshot : Bytes) : Whole sha256 snapshot (.empty (trieHash sha256 .empty 0)) .empty :=
  ⟨.empty, trivial, .inl rfl⟩

variable {ops : List (Key256 × Bytes)} {n : TrieNode}

theorem Whole.writes {snapshot : Bytes} {n' : TrieNode} {t : KeyTrie} (h : Whole sha256 snapshot n t)
    (hrun : ops.foldlM (fun n op => n.setKey sha256 op.1.val op.2 snapshot) n = .ok n') :
    ∃ t', Whole sha256 snapshot n' t' ∧
      ∀ k : Key256, t'.lookup k.bits = ((lastValue ops k).map some).or (t.lookup k.bits) := by
  induction ops generalizing n t with
  | nil =>
    cases hrun
    exact ⟨t, h, fun k => rfl⟩
  | cons op ops ih =>
    rw [foldlM_cons, bind_ok_iff] at hrun
    obtain ⟨n1, hstep, hrest⟩ := hrun
    obtain ⟨t1, ht1, hshort, hlong⟩ := h.setKey op.1 op.2
    have hv : op.2.length < 2 ^ 32 := by
      by_contra hge
      rw [hlong (by omega)] at hstep
      cases hstep
    obtain ⟨n1', hn1', hwhole⟩ := hshort hv
    rw [hstep] at hn1'
    cases hn1'
    obtain ⟨t', hwhole', hlookup⟩ := ih hwhole hrest
    refine ⟨t', hwhole', fun k => ?_⟩
    rw [hlookup, h.lookup_set ht1, lastValue]
    by_cases hk : k = op.1
    · subst hk
      cases lastValue ops op.1 <;> simp
    · cases lastValue ops k <;> simp [hk, Ne.symm hk]

/-- **A filled trie is the map of the last values written.** -/
theorem fill_whole (h : fill sha256 ops = .ok n) :
    ∃ t, Whole sha256 [] n t ∧ ∀ k : Key256, t.lookup k.bits = some (lastValue ops k) := by
  obtain ⟨t, hwhole, hlookup⟩ := (Whole.empty []).writes (show _ = Outcome.ok n from h)
  refine ⟨t, hwhole, fun k => ?_⟩
  rw [hlookup]
  cases lastValue ops k <;> rfl

theorem fill_getKey (h : fill sha256 ops = .ok n) (k : Key256) :
    n.getKey sha256 k.val [] = .ok ((lastValue ops k).getD []) := by
  obtain ⟨t, hwhole, hlookup⟩ := fill_whole h
  obtain ⟨value, hvalue, hget⟩ := hwhole.getKey k
  simp_all

theorem lastValue_eq_none {k : Key256} (h : ∀ op ∈ ops, op.1 ≠ k) : lastValue ops k = none := by
  induction ops with
  | nil => rfl
  | cons op ops ih => rw [lastValue, ih fun op hop => h op (by simp [hop]), if_neg (h op (by simp))]; rfl

/-- **Reading and writing.** In a trie filled by `set`, a write of a value that
can be stored succeeds; the key then reads as the value, every other key as
before, and a key that was never written reads as the empty string. -/
theorem set_updates_key {ops : List (Key256 × Bytes)} {n : TrieNode} (hn : fill sha256 ops = .ok n)
    (k : Key256) {v : Bytes} (hv : v.length < 2 ^ 32) :
    ∃ n', n.setKey sha256 k.val v [] = .ok n' ∧ n'.getKey sha256 k.val [] = .ok v ∧
      (∀ k' : Key256, k' ≠ k → n'.getKey sha256 k'.val [] = n.getKey sha256 k'.val []) ∧
      ∀ k' : Key256, (∀ op ∈ ops, op.1 ≠ k') → n.getKey sha256 k'.val [] = .ok [] := by
  obtain ⟨t, hwhole, -⟩ := fill_whole hn
  obtain ⟨t', ht', hshort, -⟩ := hwhole.setKey k v
  obtain ⟨n', hn', hwhole'⟩ := hshort hv
  have hread : ∀ k' : Key256, n'.getKey sha256 k'.val [] =
      if k' = k then .ok v else n.getKey sha256 k'.val [] := by
    intro k'
    rw [getKey_rep hwhole'.rep hwhole'.sized, hwhole.lookup_set ht',
      getKey_rep hwhole.rep hwhole.sized]
    split <;> rfl
  refine ⟨n', hn', ?_, fun k' hk' => ?_, fun k' hk' => ?_⟩
  · rw [hread, if_pos rfl]
  · rw [hread, if_neg hk']
  · rw [fill_getKey hn, lastValue_eq_none hk']
    rfl

end

/-! A small trie: two keys that part at the ninth bit, one of them written
twice, and one that parts from them at the first bit. -/

def sampleHash (bytes : Bytes) : UInt256 :=
  BitVec.ofNat 256 (bytes.foldl (fun hash byte => 257 * hash + byte.toNat + 1) 0)

theorem length_sampleKey (a b : UInt8) : (a :: b :: List.replicate 30 0).length = 32 := rfl

def sampleKey (a b : UInt8) : Key256 := ⟨a :: b :: List.replicate 30 0, length_sampleKey a b⟩

def sampleOps : List (Key256 × Bytes) :=
  [(sampleKey 1 2, [7]), (sampleKey 1 200, [8, 9]), (sampleKey 200 0, []), (sampleKey 1 2, [10])]

def sampleTrie : TrieNode := (fill sampleHash sampleOps).get (by decide +kernel)

theorem fill_sampleOps : fill sampleHash sampleOps = .ok sampleTrie := eq_ok_get _ _

theorem length_sampleValue : ([11] : Bytes).length < 2 ^ 32 := by decide

theorem set_updates_key_sample : ∃ n', sampleTrie.setKey sampleHash (sampleKey 1 3).val [11] [] = .ok n' ∧
      n'.getKey sampleHash (sampleKey 1 3).val [] = .ok [11] ∧
      (∀ k' : Key256, k' ≠ sampleKey 1 3 → n'.getKey sampleHash k'.val [] = sampleTrie.getKey sampleHash k'.val []) ∧
      ∀ k' : Key256, (∀ op ∈ sampleOps, op.1 ≠ k') → sampleTrie.getKey sampleHash k'.val [] = .ok [] :=
  set_updates_key fill_sampleOps (sampleKey 1 3) length_sampleValue

/-- A value of four gigabytes aborts: the hash of its leaf is taken over what
`store_string` writes. -/
theorem set_too_long : fill sampleHash sampleOps = .ok sampleTrie ∧
    sampleTrie.setKey sampleHash (sampleKey 1 3).val (List.replicate (2 ^ 32) 0) [] = .fatal := by
  obtain ⟨t, hwhole, -⟩ := fill_whole fill_sampleOps
  obtain ⟨t', -, -, hlong⟩ := hwhole.setKey (sampleKey 1 3) (List.replicate (2 ^ 32) 0)
  exact ⟨fill_sampleOps, hlong (by rw [length_replicate])⟩

/-! ## Tries by their contents -/

/-- The bits of a string, as `get_bit` reads them. -/
def BitString.bits (bs : BitString) : List Bool := (List.range bs.bitsSize).map fun i => decide (bs.getBit i = .ok 1)

/-- Two strings with the same bits at the same place within their bytes. -/
def BitString.SameAs (a b : BitString) : Prop := a.beginBit = b.beginBit ∧ a.bits = b.bits

/-- Two nodes of the same kind, with the same hashes, bits and values, all the
way down. -/
def TrieNode.SameAs : TrieNode → TrieNode → Prop
  | .empty hash, .empty hash' => hash = hash'
  | .leaf hash s v, .leaf hash' s' v' => hash = hash' ∧ s.SameAs s' ∧ v = v'
  | .inner hash p l r, .inner hash' p' l' r' => hash = hash' ∧ p.SameAs p' ∧ l.SameAs l' ∧ r.SameAs r'
  | .pruned hash offset base, .pruned hash' offset' base' => hash = hash' ∧ offset = offset' ∧ base.SameAs base'
  | _, _ => False

theorem BitString.Holds.bits {a : BitString} {d : Nat} {x : List Bool} (h : a.Holds d x) : a.bits = x := by
  rw [BitString.bits, h.bitsSize]
  apply ext_getElem (by simp)
  intro i h1 h2
  simp only [getElem_map, getElem_range, h.getBit h2, getD_eq_getElem _ _ h2]
  cases x[i] <;> rfl

theorem BitString.Holds.sameAs {a b : BitString} {d : Nat} {x : List Bool} (ha : a.Holds d x) (hb : b.Holds d x) :
    a.SameAs b :=
  ⟨ha.beginBit.trans hb.beginBit.symm, ha.bits.trans hb.bits.symm⟩

section

variable {sha256 : Bytes → UInt256}

/-- Without a snapshot, what a node stands for is all there is to it. -/
theorem Rep.sameAs {d : Nat} {n n' : TrieNode} {t : KeyTrie} (h : Rep sha256 [] d n t) (h' : Rep sha256 [] d n' t) :
    n.SameAs n' := by
  induction h generalizing n' with
  | lazy hsaved => exact absurd hsaved not_saved_nil
  | empty =>
    cases h' with
    | lazy hsaved => exact absurd hsaved not_saved_nil
    | empty => exact rfl
  | hole =>
    cases h' with
    | lazy hsaved => exact absurd hsaved not_saved_nil
    | hole => exact ⟨rfl, rfl, rfl, rfl⟩
  | leaf hs =>
    cases h' with
    | lazy hsaved => exact absurd hsaved not_saved_nil
    | leaf hs' => exact ⟨rfl, hs.sameAs hs', rfl⟩
  | inner hp _ _ ihl ihr =>
    cases h' with
    | lazy hsaved => exact absurd hsaved not_saved_nil
    | inner hp' hl' hr' => exact ⟨rfl, hp.sameAs hp', ihl hl', ihr hr'⟩

theorem Whole.ext {snapshot snapshot' : Bytes} {n n' : TrieNode} {t t' : KeyTrie} (h : Whole sha256 snapshot n t)
    (h' : Whole sha256 snapshot' n' t') (same : ∀ k : Key256, t.lookup k.bits = t'.lookup k.bits) : t = t' := by
  have same : ∀ k : List Bool, k.length = 256 → t.lookup k = t'.lookup k := by
    intro k hk
    obtain ⟨key, rfl⟩ := Key256.exists_bits hk
    exact same key
  rcases h.full with rfl | hfull
  · rcases h'.full with rfl | hfull'
    · rfl
    · obtain ⟨k, v, hk, hv⟩ := hfull'.exists_key h'.sized
      rw [← same k hk] at hv
      cases hv
  · rcases h'.full with rfl | hfull'
    · obtain ⟨k, v, hk, hv⟩ := hfull.exists_key h.sized
      rw [same k hk] at hv
      cases hv
    · exact hfull.ext hfull' h.sized h'.sized same

/-- **History independence.** Two runs of `set` that leave the same last value
under every key build the same trie, with the same hash. -/
theorem fill_history_independent {ops ops' : List (Key256 × Bytes)} {n n' : TrieNode}
    (hn : fill sha256 ops = .ok n) (hn' : fill sha256 ops' = .ok n')
    (same : ∀ k, lastValue ops k = lastValue ops' k) : n.SameAs n' ∧ n.hash = n'.hash := by
  obtain ⟨t, hwhole, hlookup⟩ := fill_whole hn
  obtain ⟨t', hwhole', hlookup'⟩ := fill_whole hn'
  obtain rfl : t = t' := hwhole.ext hwhole' fun k => by rw [hlookup, hlookup', same]
  exact ⟨hwhole.rep.sameAs hwhole'.rep, hwhole.rep.hash.trans hwhole'.rep.hash.symm⟩

end

/-- The small trie again, filled the other way round and without the value that
is overwritten. -/
def sampleOps' : List (Key256 × Bytes) :=
  [(sampleKey 200 0, []), (sampleKey 1 2, [10]), (sampleKey 1 200, [8, 9])]

def sampleTrie' : TrieNode := (fill sampleHash sampleOps').get (by decide +kernel)

theorem lastValue_sampleOps (k : Key256) : lastValue sampleOps k = lastValue sampleOps' k := by
  have h1 : sampleKey 1 2 ≠ sampleKey 1 200 := by decide
  have h2 : sampleKey 1 2 ≠ sampleKey 200 0 := by decide
  have h3 : sampleKey 1 200 ≠ sampleKey 200 0 := by decide
  simp only [lastValue, sampleOps, sampleOps']
  by_cases a : sampleKey 1 2 = k
  · subst a
    simp [h1.symm, h2.symm]
  · by_cases b : sampleKey 1 200 = k
    · subst b
      simp [h1, h3.symm]
    · simp [a, b]

theorem fill_history_independent_sample : sampleTrie.SameAs sampleTrie' ∧ sampleTrie.hash = sampleTrie'.hash :=
  fill_history_independent fill_sampleOps (eq_ok_get _ _) lastValue_sampleOps

end Tdlib.E2e
