/-
Tries with parts missing.

A trie with the root hash of another one answers as the other does, or with an
error, whatever bytes it was read from (`proof_sound`). The trie
`generate_pruned_tree` makes for a list of keys answers every run of reads and
writes of these keys (`pruned_run`).
-/
import Tdlib.E2e.TrieNetwork

namespace Tdlib.E2e

open List hiding pure_def
open Outcome TrieNode

open BitTrie (Preimage Prunes)

/-! ## What the hashes are taken over -/

namespace TrieNode

/-- What the hash of the node itself is taken over. -/
def hashInput (node : TrieNode) : List Bytes :=
  match node.storeForHash with
  | .ok bytes => [bytes]
  | _ => []

/-- What the hashes of the node and of the nodes below it are taken over. -/
def hashInputs : TrieNode → List Bytes
  | .inner hash pfx left right => hashInput (.inner hash pfx left right) ++ (left.hashInputs ++ right.hashInputs)
  | node => node.hashInput

end TrieNode

/-- A node that `store_for_hash` can store. -/
def Storable : Preimage Bytes UInt256 → Prop
  | ⟨_, .empty⟩ => True
  | ⟨_, .leaf s v⟩ => s.length ≤ 256 ∧ v.length < 2 ^ 32
  | ⟨_, .inner p _ _⟩ => p.length ≤ 256

theorem store_append_inj {x y : UInt256} {xs ys : Bytes} (h : x.store ++ xs = y.store ++ ys) : x = y ∧ xs = ys := by
  obtain ⟨hstore, hrest⟩ := append_inj h (by simp [UInt256.store])
  refine ⟨BitVec.eq_of_toNat_eq (leBytes_injective (w := 32) ?_ ?_ hstore), hrest⟩
  · exact x.isLt
  · exact y.isLt

theorem type_append_inj {a b : TrieNodeType} {xs ys : Bytes} (h : a.store ++ xs = b.store ++ ys) : a = b ∧ xs = ys := by
  obtain ⟨hstore, hrest⟩ := append_inj h (by simp [TrieNodeType.store])
  refine ⟨?_, hrest⟩
  have := leBytes_injective (w := 4) (by cases a <;> decide) (by cases b <;> decide) hstore
  rw [← Option.some_inj, ← ofCode_code a, ← ofCode_code b, this]

/-- The bytes a hash is taken over determine the node, at a given depth. -/
theorem encodePreimage_inj {x y : Preimage Bytes UInt256} (hx : Storable x) (hy : Storable y) (hd : x.depth = y.depth)
    (h : encodePreimage x = encodePreimage y) : x = y := by
  obtain ⟨d, x⟩ := x
  obtain ⟨d', y⟩ := y
  obtain rfl : d = d' := hd
  cases x with
  | empty =>
    cases y with
    | empty => rfl
    | leaf | inner =>
      cases (type_append_inj ((append_nil _).trans h)).1
  | leaf s v =>
    cases y with
    | empty =>
      cases (type_append_inj (h.trans (append_nil _).symm)).1
    | inner =>
      cases (type_append_inj h).1
    | leaf s' v' =>
      have hs := hx.1
      have hs' := hy.1
      obtain ⟨-, rfl, hv⟩ := BitString.encodeBits_append_inj (by omega) (by omega) (type_append_inj h).2
      rw [← append_nil (stringBytes v), ← append_nil (stringBytes v')] at hv
      obtain ⟨rfl, -⟩ := TlParser.storeString_append_inj (storeString_eq hx.2) (storeString_eq hy.2) hv
      rfl
  | inner p l r =>
    cases y with
    | empty =>
      cases (type_append_inj (h.trans (append_nil _).symm)).1
    | leaf =>
      cases (type_append_inj h).1
    | inner p' l' r' =>
      have hp : p.length ≤ 256 := hx
      have hp' : p'.length ≤ 256 := hy
      simp only [encodePreimage, append_assoc] at h
      obtain ⟨-, rfl, hhash⟩ := BitString.encodeBits_append_inj (by omega) (by omega) (type_append_inj h).2
      obtain ⟨rfl, hr⟩ := store_append_inj hhash
      obtain ⟨rfl, -⟩ := store_append_inj hr
      rfl

section

variable {sha256 : Bytes → UInt256} {d : Nat}
variable {n : TrieNode} {t : KeyTrie}

theorem Rep.storable (h : Rep sha256 [] d n t) :
    ∀ x ∈ t.preimages (fun x => sha256 (encodePreimage x)) d, Storable x := by
  induction h with
  | empty => simp [BitTrie.preimages, Storable]
  | hole => simp [BitTrie.preimages]
  | leaf hs hv =>
    intro x hx
    rw [BitTrie.preimages, mem_singleton] at hx
    subst hx
    exact ⟨hs.short, hv⟩
  | inner hp hl hr ihl ihr =>
    intro x hx
    simp only [BitTrie.preimages, mem_cons, mem_append] at hx
    rcases hx with rfl | hx | hx
    · exact hp.short
    · exact ihl x hx
    · exact ihr x hx
  | lazy hsaved => exact absurd hsaved not_saved_nil

theorem Rep.hashInputs (h : Rep sha256 [] d n t) :
    n.hashInputs = (t.preimages (fun x => sha256 (encodePreimage x)) d).map encodePreimage := by
  induction h with
  | empty => rfl
  | hole => rfl
  | leaf hs hv =>
    simp only [TrieNode.hashInputs, TrieNode.hashInput, storeForHash, storeString_eq hv, hs.store,
      ok_bind, pure_def]
    rfl
  | inner hp hl hr ihl ihr =>
    simp only [TrieNode.hashInputs, TrieNode.hashInput, storeForHash, hp.store, pure_def, ihl, ihr,
      hl.hash, hr.hash, BitTrie.preimages, map_cons, map_append]
    rfl
  | lazy hsaved => exact absurd hsaved not_saved_nil

/-! ## Proofs -/

section

variable {n f : TrieNode} {t p : KeyTrie} (h : Whole sha256 [] n t) (hf : Rep sha256 [] 0 f p)

include h hf

/-- A trie with the root hash of a whole one is the whole one with parts
missing, unless two of the inputs of their hashes collide. -/
theorem Whole.prunes
    (hhash : f.hash = n.hash) (inj : ∀ x ∈ f.hashInputs, ∀ y ∈ n.hashInputs, sha256 x = sha256 y → x = y) :
    Prunes (fun x => sha256 (encodePreimage x)) 0 p t := by
  refine .of_digest_eq h.full ?_ (by rw [← trieHash, ← trieHash, ← hf.hash, ← h.rep.hash, hhash])
  intro x hx y hy hd heq
  refine encodePreimage_inj (hf.storable x hx) (h.rep.storable y hy) hd (inj _ ?_ _ ?_ heq)
  · rw [hf.hashInputs]
    exact mem_map_of_mem hx
  · rw [h.rep.hashInputs]
    exact mem_map_of_mem hy

section

variable (hp : Prunes (fun x => sha256 (encodePreimage x)) 0 p t) (k : Key256)

include hp k

/-- A trie with parts missing reads a key as the whole trie does, or fails. -/
theorem Whole.getKey_pruned :
    (∃ e, f.getKey sha256 k.val [] = .error e) ∨ f.getKey sha256 k.val [] = n.getKey sha256 k.val [] := by
  rw [TrieNode.getKey_rep hf (hp.sized h.sized), TrieNode.getKey_rep h.rep h.sized]
  rcases hp.lookup k.bits with hnone | hsome
  · exact .inl ⟨_, by rw [hnone]; rfl⟩
  · exact .inr (by rw [hsome])

/-- A trie with parts missing writes a key as the whole trie does, or fails. -/
theorem Whole.setKey_pruned {v : Bytes} (hv : v.length < 2 ^ 32) :
    (p.set k.bits v = none ∧ ∃ e, f.setKey sha256 k.val v [] = .error e) ∨
    ∃ f' n' p' t', p.set k.bits v = some p' ∧ t.set k.bits v = some t' ∧ f.setKey sha256 k.val v [] = .ok f' ∧
      n.setKey sha256 k.val v [] = .ok n' ∧ Rep sha256 [] 0 f' p' ∧ Whole sha256 [] n' t' ∧
      Prunes (fun x => sha256 (encodePreimage x)) 0 p' t' := by
  have hout := TrieNode.setKey_rep hf (hp.sized h.sized) k v
  rcases hp.set h.sized k.length_bits v with hnone | ⟨p', t', hp', ht', hprunes⟩
  · rw [hnone] at hout
    exact .inl ⟨hnone, _, hout⟩
  · rw [hp'] at hout
    obtain ⟨f', hf', hrep⟩ := hout.1 hv
    obtain ⟨t'', ht'', hshort, -⟩ := h.setKey k v
    rw [ht'] at ht''
    cases ht''
    obtain ⟨n', hn', hwhole⟩ := hshort hv
    exact .inr ⟨f', n', p', t', hp', ht', hf', hn', hrep, hwhole, hprunes⟩

end

end

/-- A value that is too long aborts under every key that can be read. -/
theorem TrieNode.setKey_too_long {snapshot : Bytes} (h : Rep sha256 snapshot 0 n t)
    (ht : t.Sized 256) {k : Key256} {v value : Bytes} (hread : n.getKey sha256 k.val snapshot = .ok value)
    (hv : 2 ^ 32 ≤ v.length) : n.setKey sha256 k.val v snapshot = .fatal := by
  have hout := setKey_rep h ht k v
  have hset := BitTrie.set_isSome t ht k.length_bits v
  rw [getKey_rep h ht] at hread
  cases hlookup : t.lookup k.bits with
  | none =>
    rw [hlookup] at hread
    cases hread
  | some value' =>
    obtain ⟨t', ht'⟩ := Option.isSome_iff_exists.mp (hset.trans (by rw [hlookup]; rfl))
    rw [ht'] at hout
    exact hout.2 hv

/-- **Soundness of proofs.** From whatever bytes a trie with the root hash of a
filled trie was read, it answers a read as the filled trie does, or with an
error, and a write of a value that can be stored leads to the same root hash, or
to an error, unless two inputs of the hashes of the two tries collide. -/
theorem proof_sound {ops : List (Key256 × Bytes)} {n f : TrieNode} {data : Bytes}
    (hn : fill sha256 ops = .ok n) (hf : fetchFromNetwork sha256 data = .ok f)
    (hhash : f.hash = n.hash) (inj : ∀ x ∈ f.hashInputs, ∀ y ∈ n.hashInputs, sha256 x = sha256 y → x = y) (k : Key256) :
    ((∃ e, f.getKey sha256 k.val [] = .error e) ∨ f.getKey sha256 k.val [] = n.getKey sha256 k.val []) ∧
    ∀ v : Bytes, v.length < 2 ^ 32 → (∃ e, f.setKey sha256 k.val v [] = .error e) ∨
      ∃ f' n', f.setKey sha256 k.val v [] = .ok f' ∧ n.setKey sha256 k.val v [] = .ok n' ∧ f'.hash = n'.hash := by
  obtain ⟨t, hwhole, -⟩ := fill_whole hn
  obtain ⟨p, hrep⟩ := fetchFromNetwork_ok hf
  have hp := hwhole.prunes hrep hhash inj
  refine ⟨hwhole.getKey_pruned hrep hp k, fun v hv => ?_⟩
  rcases hwhole.setKey_pruned hrep hp k hv with ⟨-, herr⟩ | ⟨f', n', p', t', -, -, hf', hn', hrep', hwhole', hp'⟩
  · exact .inl herr
  · refine .inr ⟨f', n', hf', hn', ?_⟩
    rw [hrep'.hash, hwhole'.rep.hash]
    exact hp'.digest

end

/-! The small trie and what the network gives of its pruned form. -/

def sampleData : Bytes := TrieNode.samplePruned.serializeForNetwork.get (by decide +kernel)

def sampleFetched : TrieNode := (fetchFromNetwork sampleHash sampleData).get (by decide +kernel)

theorem fetch_sampleData : fetchFromNetwork sampleHash sampleData = .ok sampleFetched := eq_ok_get _ _

theorem hash_sampleFetched : sampleFetched.hash = sampleTrie.hash := by decide +kernel

theorem sampleHash_inj :
    ∀ x ∈ sampleFetched.hashInputs, ∀ y ∈ sampleTrie.hashInputs, sampleHash x = sampleHash y → x = y := by
  decide +kernel

theorem getKey_sampleFetched : sampleFetched.getKey sampleHash (sampleKey 1 2).val [] = .ok [10] := by decide +kernel

theorem proof_sound_sample : ((∃ e, sampleFetched.getKey sampleHash (sampleKey 1 2).val [] = .error e) ∨
      sampleFetched.getKey sampleHash (sampleKey 1 2).val [] = sampleTrie.getKey sampleHash (sampleKey 1 2).val []) ∧
    ∀ v : Bytes, v.length < 2 ^ 32 → (∃ e, sampleFetched.setKey sampleHash (sampleKey 1 2).val v [] = .error e) ∨
      ∃ f' n', sampleFetched.setKey sampleHash (sampleKey 1 2).val v [] = .ok f' ∧
        sampleTrie.setKey sampleHash (sampleKey 1 2).val v [] = .ok n' ∧ f'.hash = n'.hash :=
  proof_sound fill_sampleOps fetch_sampleData hash_sampleFetched sampleHash_inj (sampleKey 1 2)

/-- A key that is there is written at once, and a value of four gigabytes aborts. -/
theorem proof_too_long : fill sampleHash sampleOps = .ok sampleTrie ∧
    fetchFromNetwork sampleHash sampleData = .ok sampleFetched ∧ sampleFetched.hash = sampleTrie.hash ∧
    (∀ x ∈ sampleFetched.hashInputs, ∀ y ∈ sampleTrie.hashInputs, sampleHash x = sampleHash y → x = y) ∧
    sampleFetched.setKey sampleHash (sampleKey 1 2).val (List.replicate (2 ^ 32) 0) [] = .fatal := by
  refine ⟨fill_sampleOps, fetch_sampleData, hash_sampleFetched, sampleHash_inj, ?_⟩
  obtain ⟨t, hwhole, -⟩ := fill_whole fill_sampleOps
  obtain ⟨p, hrep⟩ := fetchFromNetwork_ok fetch_sampleData
  have hsized := (hwhole.prunes hrep hash_sampleFetched sampleHash_inj).sized hwhole.sized
  exact setKey_too_long hrep hsized getKey_sampleFetched (by rw [length_replicate])

/-! ## Runs of reads and writes -/

inductive TrieOp
  | get (key : Key256)
  | set (key : Key256) (value : Bytes)
  deriving DecidableEq

/-- What an operation shows: the value read, or the root hash after a write. -/
inductive TrieAnswer
  | value (value : Bytes)
  | hash (hash : UInt256)
  deriving DecidableEq, Repr

namespace TrieOp

def key : TrieOp → Key256
  | .get key => key
  | .set key _ => key

/-- The value to be written, if any, can be stored. -/
def Short : TrieOp → Prop
  | .get _ => True
  | .set _ value => value.length < 2 ^ 32

/-- The trie after the operation, and what it shows. -/
def apply (sha256 : Bytes → UInt256) (snapshot : Bytes) (n : TrieNode) : TrieOp → Outcome (TrieNode × TrieAnswer)
  | .get key => do
    let value ← n.getKey sha256 key.val snapshot
    pure (n, .value value)
  | .set key value => do
    let n ← n.setKey sha256 key.val value snapshot
    pure (n, .hash n.hash)

/-- The trie after all operations, and what they show. -/
def run (sha256 : Bytes → UInt256) (snapshot : Bytes) : TrieNode → List TrieOp → Outcome (TrieNode × List TrieAnswer)
  | n, [] => pure (n, [])
  | n, op :: ops => do
    let (n, answer) ← op.apply sha256 snapshot n
    let (n, answers) ← run sha256 snapshot n ops
    pure (n, answer :: answers)

end TrieOp

/-- Two tries that go on with the same answers. -/
abbrev SameRun {A : Type} (R : TrieNode → TrieNode → Prop) (x y : TrieNode × A) : Prop := R x.1 y.1 ∧ x.2 = y.2

/-- A relation that every operation keeps, with the same answers, is kept by a run. -/
theorem TrieOp.run_rel {sha256 : Bytes → UInt256} {snapshot snapshot' : Bytes} {R : TrieNode → TrieNode → Prop}
    {ops : List TrieOp} (hstep : ∀ op ∈ ops, ∀ n n', R n n' →
      Outcome.Rel (SameRun R) (op.apply sha256 snapshot n) (op.apply sha256 snapshot' n'))
    {n n' : TrieNode} (h : R n n') :
    Outcome.Rel (SameRun R) (run sha256 snapshot n ops) (run sha256 snapshot' n' ops) := by
  induction ops generalizing n n' with
  | nil => exact ⟨h, rfl⟩
  | cons op ops ih =>
    refine (hstep op (by simp) n n' h).bind ?_
    rintro ⟨m, a⟩ ⟨m', a'⟩ ⟨hm, rfl⟩
    refine (ih (fun op hop => hstep op (by simp [hop])) hm).bind ?_
    rintro ⟨m, as⟩ ⟨m', as'⟩ ⟨hm, rfl⟩
    exact ⟨hm, rfl⟩

/-! ## Pruned tries -/

section

variable {sha256 : Bytes → UInt256}

/-- The first trie is the second one, which is whole, without parts that no key
of the list needs. -/
structure PrunedFor (sha256 : Bytes → UInt256) (keys : List Key256) (n m : TrieNode) : Prop where
  tries : ∃ p t, Rep sha256 [] 0 n p ∧ Whole sha256 [] m t ∧ Prunes (fun x => sha256 (encodePreimage x)) 0 p t ∧
    ∀ k ∈ keys, (p.lookup k.bits).isSome

variable {keys : List Key256} {n m : TrieNode}

theorem PrunedFor.apply (h : PrunedFor sha256 keys n m) {op : TrieOp} (hkey : op.key ∈ keys) (hshort : op.Short) :
    ∃ n' m' answer, op.apply sha256 [] n = .ok (n', answer) ∧ op.apply sha256 [] m = .ok (m', answer) ∧
      PrunedFor sha256 keys n' m' := by
  obtain ⟨p, t, hrep, hwhole, hp, hkeys⟩ := h.tries
  have hsized := hp.sized hwhole.sized
  cases op with
  | get key =>
    obtain ⟨value, hvalue, hread⟩ := hwhole.getKey key
    have hread' : n.getKey sha256 key.val [] = .ok (value.getD []) := by
      rcases hp.lookup key.bits with hnone | hsome
      · have := hkeys key hkey
        rw [hnone] at this
        cases this
      · rw [TrieNode.getKey_rep hrep hsized, hsome, hvalue]
        rfl
    refine ⟨n, m, .value (value.getD []), ?_, ?_, h⟩
    · simp [TrieOp.apply, hread']
    · simp [TrieOp.apply, hread]
  | set key value =>
    rcases hwhole.setKey_pruned hrep hp key hshort with
      ⟨hnone, -⟩ | ⟨n', m', p', t', hp', ht', hn', hm', hrep', hwhole', hprunes⟩
    · have := BitTrie.set_isSome p hsized key.length_bits value
      rw [hnone, hkeys key hkey] at this
      cases this
    · have hhash : m'.hash = n'.hash := by
        rw [hrep'.hash, hwhole'.rep.hash]
        exact hprunes.digest.symm
      refine ⟨n', m', .hash n'.hash, ?_, ?_, ⟨p', t', hrep', hwhole', hprunes, fun k hk => ?_⟩⟩
      · simp [TrieOp.apply, hn']
      · simp [TrieOp.apply, hm', pure_def, hhash]
      · rw [BitTrie.lookup_set hsized key.length_bits k.length_bits hp']
        split
        · rfl
        · exact hkeys k hk

theorem PrunedFor.run {ops : List TrieOp} (h : PrunedFor sha256 keys n m)
    (hkeys : ∀ op ∈ ops, op.key ∈ keys) (hshort : ∀ op ∈ ops, op.Short) :
    ∃ n' m' answers, TrieOp.run sha256 [] n ops = .ok (n', answers) ∧
      TrieOp.run sha256 [] m ops = .ok (m', answers) := by
  induction ops generalizing n m with
  | nil => exact ⟨n, m, [], rfl, rfl⟩
  | cons op ops ih =>
    obtain ⟨n1, m1, answer, hn1, hm1, h1⟩ := h.apply (hkeys op (by simp)) (hshort op (by simp))
    obtain ⟨n', m', answers, hn', hm'⟩ := ih h1 (fun op hop => hkeys op (by simp [hop]))
      (fun op hop => hshort op (by simp [hop]))
    refine ⟨n', m', answer :: answers, ?_, ?_⟩
    · simp [TrieOp.run, hn1, hn', pure_def]
    · simp [TrieOp.run, hm1, hm', pure_def]

theorem mapM_toKey_holds (keys : List Key256) :
    ∃ as, (keys.map Subtype.val).mapM toKey = .ok as ∧ TrieNode.HoldKeys 0 as (keys.map Key256.bits) := by
  induction keys with
  | nil => exact ⟨[], rfl, .nil⟩
  | cons key keys ih =>
    obtain ⟨a, ha, hholds⟩ := toKey_holds key
    obtain ⟨as, has, hkeys⟩ := ih
    refine ⟨a :: as, ?_, .cons hholds hkeys⟩
    rw [map_cons, mapM_cons, ha, has]
    rfl

theorem Whole.generatePrunedTree {t : KeyTrie} (h : Whole sha256 [] n t) (keys : List Key256) :
    ∃ p, n.generatePrunedTree sha256 (keys.map Subtype.val) [] = .ok p ∧ p.hash = n.hash ∧
      PrunedFor sha256 keys p n := by
  obtain ⟨as, has, hkeys⟩ := mapM_toKey_holds keys
  have hlen : ∀ k ∈ keys.map Key256.bits, k.length = 256 := by
    intro k hk
    obtain ⟨key, -, rfl⟩ := mem_map.mp hk
    exact key.length_bits
  obtain ⟨p, hp, hprunes, hread⟩ :=
    BitTrie.prune_spec (fun x => sha256 (encodePreimage x)) (d := 0) h.full h.sized hlen
  have hout := pruneNode_rep h.rep h.sized hkeys hlen (show 256 - 0 < 258 by omega)
  rw [hp] at hout
  obtain ⟨n', hn', hrep⟩ := hout
  refine ⟨n', ?_, ?_, p, t, hrep, h, hprunes, fun k hk => hread _ (mem_map_of_mem hk)⟩
  · rw [TrieNode.generatePrunedTree, has, ok_bind, hn']
  · rw [hrep.hash, h.rep.hash]
    exact hprunes.digest

/-- **Pruned tries.** The pruned trie for a list of keys has the root hash of the
whole trie, and every run of reads and writes of these keys, of values that can
be stored, succeeds on it and shows what it shows on the whole trie. -/
theorem pruned_run {fills : List (Key256 × Bytes)} {n : TrieNode} (hn : fill sha256 fills = .ok n)
    (keys : List Key256) : ∃ p, n.generatePrunedTree sha256 (keys.map Subtype.val) [] = .ok p ∧ p.hash = n.hash ∧
      ∀ ops : List TrieOp, (∀ op ∈ ops, op.key ∈ keys) → (∀ op ∈ ops, op.Short) →
        ∃ p' n' answers, TrieOp.run sha256 [] p ops = .ok (p', answers) ∧
          TrieOp.run sha256 [] n ops = .ok (n', answers) := by
  obtain ⟨t, hwhole, -⟩ := fill_whole hn
  obtain ⟨p, hp, hhash, hpruned⟩ := hwhole.generatePrunedTree keys
  exact ⟨p, hp, hhash, fun ops hkeys hshort => hpruned.run hkeys hshort⟩

end

theorem pruned_run_sample :
    ∃ p, sampleTrie.generatePrunedTree sampleHash ([sampleKey 1 2, sampleKey 3 3].map Subtype.val) [] = .ok p ∧
      p.hash = sampleTrie.hash ∧
      ∀ ops : List TrieOp, (∀ op ∈ ops, op.key ∈ [sampleKey 1 2, sampleKey 3 3]) → (∀ op ∈ ops, op.Short) →
        ∃ p' n' answers, TrieOp.run sampleHash [] p ops = .ok (p', answers) ∧
          TrieOp.run sampleHash [] sampleTrie ops = .ok (n', answers) :=
  pruned_run fill_sampleOps [sampleKey 1 2, sampleKey 3 3]

theorem getKey_samplePruned : TrieNode.samplePruned.getKey sampleHash (sampleKey 1 2).val [] = .ok [10] := by
  decide +kernel

/-- A write of four gigabytes does not succeed on the pruned trie. -/
theorem pruned_run_too_long : fill sampleHash sampleOps = .ok sampleTrie ∧
    sampleTrie.generatePrunedTree sampleHash [(sampleKey 1 2).val] [] = .ok samplePruned ∧
    TrieOp.run sampleHash [] samplePruned [.set (sampleKey 1 2) (List.replicate (2 ^ 32) 0)] = .fatal := by
  refine ⟨fill_sampleOps, eq_ok_get _ _, ?_⟩
  obtain ⟨t, hrep, hsized⟩ := TrieNode.samplePruned_obtained.rep
  have hfatal := setKey_too_long (v := List.replicate (2 ^ 32) 0) hrep hsized getKey_samplePruned
    (by rw [length_replicate])
  rw [TrieOp.run, TrieOp.apply, hfatal]
  rfl

end Tdlib.E2e
