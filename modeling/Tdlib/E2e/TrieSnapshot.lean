/-
Snapshots of tries.

What `serialize_for_snapshot` writes depends on the trie the nodes stand for
only, be they in memory or in an older snapshot (`serializeForSnapshot_whole`).
Both of its passes write the same number of bytes, so the offsets of the second
one are those of the nodes in the result.
-/
import Tdlib.E2e.TrieProof

namespace Tdlib.E2e

open TrieOp TrieNodeType
open List hiding pure_def
open Outcome TrieNode

/-! ## What is written -/

section

variable (sha256 : Bytes → UInt256)

/-- The offset of the root and the bytes `store_for_snapshot` writes for a trie
at depth `d`, after `length` bytes. -/
def snapshotLayout (getOffset : Nat → Int) : KeyTrie → Nat → Nat → Int × Bytes
  | .empty, _, length => (getOffset length, empty.store)
  | .leaf s v, d, length =>
    (getOffset length, leaf.store ++ (BitString.encodeBits (d % 8) s ++ stringBytes v))
  | .inner p l r, d, length =>
    let left := snapshotLayout getOffset l (d + p.length + 1) length
    let right := snapshotLayout getOffset r (d + p.length + 1) (length + left.2.length)
    (getOffset (length + left.2.length + right.2.length), left.2 ++ (right.2 ++
      (inner.store ++ (BitString.encodeBits (d % 8) p ++
        (leBytes 8 (int64Bits left.1) ++ ((trieHash sha256 l (d + p.length + 1)).store ++
          (leBytes 8 (int64Bits right.1) ++ (trieHash sha256 r (d + p.length + 1)).store)))))))
  | .hole _, _, _ => (0, [])

/-- What `serialize_for_snapshot` returns for a trie. -/
def snapshotOf (t : KeyTrie) : Outcome Bytes := do
  let (root, bytes) := snapshotLayout sha256 (fun length => length + 8) t 0 0
  Outcome.check (bytes.length + 8 < 2 ^ 63)
  pure (leBytes 8 (int64Bits root) ++ bytes)

end

section

variable {sha256 : Bytes → UInt256} {snapshot : Bytes} {d : Nat}

/-- The length pass and the writing pass agree on lengths. -/
theorem length_snapshotLayout (getOffset getOffset' : Nat → Int) (t : KeyTrie) (d length length' : Nat) :
    (snapshotLayout sha256 getOffset t d length).2.length =
      (snapshotLayout sha256 getOffset' t d length').2.length := by
  induction t generalizing d length length' with
  | empty | leaf | hole => rfl
  | inner p l r ihl ihr =>
    simp only [snapshotLayout, length_append, length_leBytes, UInt256.store]
    rw [ihl _ length length', ihr]

namespace TrieNode

theorem storeForSnapshot_rep {n : TrieNode} {t : KeyTrie} {fuel : Nat} (getOffset : Nat → Int)
    (hrep : Rep sha256 snapshot d n t) (ht : t.Sized (256 - d)) (hfull : t = .empty ∨ t.Full) (hfuel : 256 - d < fuel)
    (storer : Bytes) : storeForSnapshot sha256 getOffset snapshot fuel n storer =
      .ok ((snapshotLayout sha256 getOffset t d storer.length).1,
        storer ++ (snapshotLayout sha256 getOffset t d storer.length).2) := by
  induction t generalizing d n fuel storer with
  | hole => rcases hfull with h | h <;> cases h
  | empty =>
    obtain _ | fuel := fuel
    · omega
    simp only [storeForSnapshot, load_empty hrep, ok_bind]
    rfl
  | leaf s v =>
    obtain _ | fuel := fuel
    · omega
    obtain ⟨bs, hload, hs, hv⟩ := load_leaf hrep ht
    simp [storeForSnapshot, hload, storeString_eq hv, hs.store, pure_def, snapshotLayout, append_assoc]
  | inner p l r ihl ihr =>
    obtain _ | fuel := fuel
    · omega
    obtain ⟨bs, left, right, hload, hp, hl, hr⟩ := load_inner hrep ht
    obtain ⟨hpn, hsl, hsr⟩ := sized_children ht
    obtain ⟨hfl, hfr⟩ := BitTrie.full_children hfull
    have hfuel : 256 - (d + p.length + 1) < fuel := by omega
    simp [storeForSnapshot, hload, ok_bind, ihl hl hsl (.inr hfl) hfuel, ihr hr hsr (.inr hfr) hfuel, hp.store, hl.hash,
      hr.hash, pure_def, snapshotLayout, append_assoc, length_append, Nat.add_assoc]

/-- **What is written depends on the trie only.** -/
theorem serializeForSnapshot_whole {n : TrieNode} {t : KeyTrie} (h : Whole sha256 snapshot n t) :
    n.serializeForSnapshot sha256 snapshot = snapshotOf sha256 t := by
  have hfuel : 256 - 0 < n.height + 258 := by omega
  have hlen : (snapshotLayout sha256 (fun _ => 0) t 0 0).2.length =
      (snapshotLayout sha256 (fun length => length + 8) t 0 0).2.length := length_snapshotLayout ..
  simp [serializeForSnapshot, storeForSnapshot_rep _ h.rep h.sized h.full hfuel, length_nil, nil_append,
    hlen, replicate_zero, append_nil, snapshotOf]

end TrieNode

/-! ## What is read back -/

variable {offset : Nat} {rest : Bytes} {t : KeyTrie} {snapshot' : Bytes} {n n' : TrieNode}

theorem lt_length_of_drop {bytes : Bytes} {type : TrieNodeType}
    (h : bytes.drop offset = type.store ++ rest) : offset < bytes.length := by
  have := congrArg List.length h
  simp only [length_drop, length_append, store, length_leBytes] at this
  omega

theorem drop_add_length {bytes xs ys : Bytes} (h : bytes.drop offset = xs ++ ys) :
    bytes.drop (offset + xs.length) = ys := by
  rw [← drop_drop, h, drop_left]

theorem snapshotLayout_saved {old : Bytes} {length : Nat}
    (hrep : Rep sha256 old d n t) (ht : t.Sized (256 - d)) (hfull : t = .empty ∨ t.Full)
    (hsize : snapshot.length < 2 ^ 63)
    (hat : snapshot.drop (length + 8) = (snapshotLayout sha256 (fun length => length + 8) t d length).2 ++ rest) :
    ∃ offset : Nat, (snapshotLayout sha256 (fun length => length + 8) t d length).1 = offset ∧
      offset < snapshot.length ∧ Saved sha256 snapshot offset d t := by
  induction t generalizing d n length rest with
  | hole => rcases hfull with h | h <;> cases h
  | empty =>
    exact ⟨length + 8, rfl, lt_length_of_drop hat, .empty rest hat⟩
  | leaf s v =>
    obtain ⟨bs, -, -, hv⟩ := TrieNode.load_leaf hrep ht
    simp only [snapshotLayout, append_assoc] at hat
    exact ⟨length + 8, rfl, lt_length_of_drop hat, .leaf rest hv hat⟩
  | inner p l r ihl ihr =>
    obtain ⟨bs, left, right, -, -, hl, hr⟩ := TrieNode.load_inner hrep ht
    obtain ⟨hpn, hsl, hsr⟩ := TrieNode.sized_children ht
    obtain ⟨hfl, hfr⟩ := BitTrie.full_children hfull
    obtain ⟨left, hleft⟩ : ∃ x, x =
      snapshotLayout sha256 (fun length => length + 8) l (d + p.length + 1) length := ⟨_, rfl⟩
    obtain ⟨right, hright⟩ : ∃ x, x =
        snapshotLayout sha256 (fun length => length + 8) r (d + p.length + 1) (length + left.2.length) := ⟨_, rfl⟩
    simp only [snapshotLayout, ← hleft, ← hright, append_assoc] at hat ⊢
    have hatr := drop_add_length hat
    rw [Nat.add_right_comm] at hatr
    have hatn := drop_add_length hatr
    rw [Nat.add_right_comm] at hatn
    obtain ⟨lo, hlo, hltl, hsavedl⟩ := ihl hl hsl (.inr hfl) (hleft ▸ hat)
    obtain ⟨ro, hro, hltr, hsavedr⟩ := ihr hr hsr (.inr hfr) (hright ▸ hatr)
    rw [← hleft] at hlo
    rw [← hright] at hro
    rw [hlo, hro] at hatn
    refine ⟨length + left.2.length + right.2.length + 8, by simp, lt_length_of_drop hatn, ?_⟩
    exact .inner rest (by omega) (by omega) hsavedl hsavedr hatn

/-- **A snapshot reads back.** -/
theorem fetchFromSnapshot_whole {old : Bytes} (h : Whole sha256 old n t) (hs : snapshotOf sha256 t = .ok snapshot) :
    ∃ u, fetchFromSnapshot sha256 snapshot = .ok u ∧ Whole sha256 snapshot u t := by
  obtain ⟨root, bytes, hlayout⟩ : ∃ root bytes,
      snapshotLayout sha256 (fun length => length + 8) t 0 0 = (root, bytes) :=
    ⟨_, _, rfl⟩
  rw [snapshotOf, hlayout] at hs
  rw [bind_ok_iff] at hs
  obtain ⟨_, hsize, hs⟩ := hs
  rw [check_ok_iff] at hsize
  cases hs
  have hat : (leBytes 8 (int64Bits root) ++ bytes).drop (0 + 8) = bytes ++ [] := by
    simp
  have hlen : (leBytes 8 (int64Bits root) ++ bytes).length < 2 ^ 63 := by
    rw [length_append, length_leBytes]
    omega
  obtain ⟨offset, hoffset, hlt, hsaved⟩ := snapshotLayout_saved h.rep h.sized h.full hlen (by rw [hlayout]; exact hat)
  rw [hlayout] at hoffset
  obtain ⟨buf, s, hcreate, hzero⟩ := TrieNode.ZeroBase.create 0
  obtain ⟨u, hu, hrep, -⟩ := fetchNodeFromSnapshot_rep hsaved h.sized hzero
  refine ⟨u, ?_, hrep, h.sized, h.full⟩
  have hbits : int64Bits root = offset := by
    rw [show root = offset from hoffset]
    exact int64Bits_natCast (by omega)
  grind [fetchFromSnapshot, TlParser.new, TlParser.fetchLong_append, TlParser.getStatus, ok_bind]

/-! ## Runs on a loaded snapshot -/

/-- Two whole tries, each with its own snapshot, that stand for the same. -/
def Alike (sha256 : Bytes → UInt256) (snapshot snapshot' : Bytes) (n n' : TrieNode) : Prop :=
  ∃ t, Whole sha256 snapshot n t ∧ Whole sha256 snapshot' n' t

section

variable (h : Alike sha256 snapshot snapshot' n n')

include h

theorem Alike.apply (op : TrieOp) :
    Outcome.Rel (SameRun (Alike sha256 snapshot snapshot')) (op.apply sha256 snapshot n)
      (op.apply sha256 snapshot' n') := by
  obtain ⟨t, hn, hn'⟩ := h
  cases op with
  | get key =>
    obtain ⟨value, hvalue, hread⟩ := hn.getKey key
    obtain ⟨value', hvalue', hread'⟩ := hn'.getKey key
    rw [hvalue] at hvalue'
    cases hvalue'
    rw [TrieOp.apply, TrieOp.apply, hread, hread']
    exact ⟨⟨t, hn, hn'⟩, rfl⟩
  | set key value =>
    obtain ⟨t', ht', hshort, hlong⟩ := hn.setKey key value
    obtain ⟨t'', ht'', hshort', hlong'⟩ := hn'.setKey key value
    rw [ht'] at ht''
    cases ht''
    rw [TrieOp.apply, TrieOp.apply]
    rcases Nat.lt_or_ge value.length (2 ^ 32) with hv | hv
    · obtain ⟨m, hm, hwhole⟩ := hshort hv
      obtain ⟨m', hm', hwhole'⟩ := hshort' hv
      rw [hm, hm']
      exact ⟨⟨t', hwhole, hwhole'⟩, by rw [hwhole.rep.hash, hwhole'.rep.hash]⟩
    · rw [hlong hv, hlong' hv]
      trivial

theorem Alike.run (ops : List TrieOp) :
    Outcome.Rel (SameRun (Alike sha256 snapshot snapshot')) (run sha256 snapshot n ops)
      (run sha256 snapshot' n' ops) :=
  run_rel (fun op _ _ _ h => h.apply op) h

theorem Alike.hash : n.hash = n'.hash := by
  obtain ⟨t, hn, hn'⟩ := h
  exact hn.rep.hash.trans hn'.rep.hash.symm

theorem Alike.serialize : n.serializeForSnapshot sha256 snapshot = n'.serializeForSnapshot sha256 snapshot' := by
  obtain ⟨t, hn, hn'⟩ := h
  rw [TrieNode.serializeForSnapshot_whole hn, TrieNode.serializeForSnapshot_whole hn']

theorem Alike.reload {saved : Bytes}
    (hs : n.serializeForSnapshot sha256 snapshot = .ok saved) :
    ∃ u, fetchFromSnapshot sha256 saved = .ok u ∧ Alike sha256 saved snapshot' u n' := by
  obtain ⟨t, hn, hn'⟩ := h
  rw [TrieNode.serializeForSnapshot_whole hn] at hs
  obtain ⟨u, hu, hwhole⟩ := fetchFromSnapshot_whole hn hs
  exact ⟨u, hu, t, hwhole, hn'⟩

end

/-- The bytes of the nodes of a trie in memory. -/
def TrieNode.snapshotSize : TrieNode → Nat
  | .empty _ => 4
  | .leaf _ keySuffix value => 4 + (keySuffix.store.length + (stringBytes value).length)
  | .inner _ pfx left right => left.snapshotSize + (right.snapshotSize + (4 + (pfx.store.length + 80)))
  | .pruned .. => 0

theorem TrieNode.snapshotSize_rep (h : Rep sha256 [] d n t) (getOffset : Nat → Int)
    (length : Nat) : n.snapshotSize = (snapshotLayout sha256 getOffset t d length).2.length := by
  induction h generalizing length with
  | empty => rfl
  | hole => rfl
  | leaf hs hv => simp [snapshotSize, snapshotLayout, hs.store, store]
  | inner hp hl hr ihl ihr =>
    simp only [snapshotSize, snapshotLayout, hp.store, length_append, store, UInt256.store,
      length_leBytes]
    rw [ihl length, ihr]
  | lazy hsaved => exact absurd hsaved not_saved_nil

/-- The trie `n` over the snapshot is saved as the trie `m` in memory is, and
what is loaded from there goes on as `m` does. -/
structure SavedAs (sha256 : Bytes → UInt256) (snapshot : Bytes) (n m : TrieNode) : Prop where
  hash : n.hash = m.hash
  serialize : n.serializeForSnapshot sha256 snapshot = m.serializeForSnapshot sha256 []
  reload : ∀ saved, n.serializeForSnapshot sha256 snapshot = .ok saved →
    ∃ u, fetchFromSnapshot sha256 saved = .ok u ∧ u.hash = m.hash ∧
      ∀ ops : List TrieOp, Outcome.Rel (fun x y => x.2 = y.2) (run sha256 saved u ops)
        (run sha256 [] m ops)

theorem Alike.savedAs {m : TrieNode} (h : Alike sha256 snapshot [] n m) : SavedAs sha256 snapshot n m := by
  refine ⟨h.hash, h.serialize, fun saved hs => ?_⟩
  obtain ⟨u, hu, halike⟩ := h.reload hs
  exact ⟨u, hu, halike.hash, fun ops => (halike.run ops).mono fun _ _ h => h.2⟩

/-- **Snapshots.** A filled trie of less than 2 ^ 63 bytes can be saved. What is
loaded from the snapshot has the root hash of the trie, is saved as the same
bytes, and answers every run of reads and writes as the trie does; after the
run, it is saved as the trie is, and loaded again it goes on as the trie does. -/
theorem snapshot_refines {fills : List (Key256 × Bytes)} {n : TrieNode} (hn : fill sha256 fills = .ok n) :
    (n.snapshotSize + 8 < 2 ^ 63 → ∃ s, n.serializeForSnapshot sha256 [] = .ok s) ∧
    ∀ s, n.serializeForSnapshot sha256 [] = .ok s →
      ∃ u, fetchFromSnapshot sha256 s = .ok u ∧ u.hash = n.hash ∧ u.serializeForSnapshot sha256 s = .ok s ∧
        ∀ ops : List TrieOp, Outcome.Rel (fun x y => x.2 = y.2 ∧ SavedAs sha256 s x.1 y.1) (run sha256 s u ops)
          (run sha256 [] n ops) := by
  obtain ⟨t, hwhole, -⟩ := fill_whole hn
  refine ⟨fun hsize => ?_, fun s hs => ?_⟩
  · simp_all [snapshotSize_rep hwhole.rep (fun length => length + 8) 0, TrieNode.serializeForSnapshot_whole hwhole,
      snapshotOf, ok_bind]
  · obtain ⟨u, hu, halike⟩ := Alike.reload ⟨t, hwhole, hwhole⟩ hs
    exact ⟨u, hu, halike.hash, halike.serialize.trans hs,
      fun ops => (halike.run ops).mono fun _ _ h => ⟨h.2, h.1.savedAs⟩⟩

end

/-- The snapshot of the small trie. -/
def sampleSnapshot : Bytes := (sampleTrie.serializeForSnapshot sampleHash []).get (by decide +kernel)

theorem snapshot_refines_sample : ∃ u, fetchFromSnapshot sampleHash sampleSnapshot = .ok u ∧ u.hash = sampleTrie.hash ∧
      u.serializeForSnapshot sampleHash sampleSnapshot = .ok sampleSnapshot ∧
      ∀ ops : List TrieOp, Outcome.Rel (fun x y => x.2 = y.2 ∧ SavedAs sampleHash sampleSnapshot x.1 y.1)
        (run sampleHash sampleSnapshot u ops) (run sampleHash [] sampleTrie ops) :=
  (snapshot_refines fill_sampleOps).2 sampleSnapshot (eq_ok_get _ _)

end Tdlib.E2e
