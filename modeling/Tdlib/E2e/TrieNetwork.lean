/-
Tries over the network.

`serialize_for_network` writes what a trie stands for, and `fetch_from_network`
reads it back: the same trie, node for node (`fetch_serialize`). From any other
bytes it reads a trie too, an error, or it aborts.
-/
import Tdlib.E2e.TrieMap

namespace Tdlib.E2e

open Outcome BitString TlParser TrieNodeType

/-- `store_for_network`, by what the node stands for. -/
def networkBytes : KeyTrie → Nat → Bytes
  | .empty, _ => empty.store
  | .leaf s v, d => leaf.store ++ (encodeBits (d % 8) s ++ stringBytes v)
  | .inner p l r, d =>
    inner.store ++ (encodeBits (d % 8) p ++
      (networkBytes l (d + p.length + 1) ++ networkBytes r (d + p.length + 1)))
  | .hole h, _ => pruned.store ++ h.store

namespace TrieNode

section

variable {sha256 : Bytes → UInt256} {d : Nat}
variable {n : TrieNode} {t : KeyTrie}

theorem storeForNetwork_rep (h : Rep sha256 [] d n t) : n.storeForNetwork = .ok (networkBytes t d) := by
  induction h with
  | empty => rfl
  | hole => rfl
  | leaf hs hv =>
    simp [storeForNetwork, storeString_eq hv, hs.store, pure_def, networkBytes, List.append_assoc]
  | inner hp hl hr ihl ihr =>
    simp [storeForNetwork, ihl, ihr, hp.store, pure_def, networkBytes, List.append_assoc]
  | lazy hsaved => exact absurd hsaved not_saved_nil

/-! ## Reading a stored trie -/

theorem withBuffer_view (buf buf' : Bytes) (s n s' n' : Nat) :
    (view buf s n).withBuffer (.view buf' s' n') = .view buf' s n := rfl

theorem parseFromNetwork_rep {n0 : TrieNode} {buf : Bytes} {s fuel : Nat} (rest : Bytes) (len : Nat)
    (h : Rep sha256 [] d n0 t) (ht : t.Sized (256 - d)) (hbase : ZeroBase d buf s) (hfuel : 256 - d < fuel) :
    ∃ n buf', parseFromNetwork sha256 fuel ⟨networkBytes t d ++ rest, len, none⟩ (.view buf s (256 - d)) =
        .ok (n, ⟨rest, len, none⟩, .view buf' s (256 - d)) ∧
      Rep sha256 [] d n t ∧ BitString.Frame buf buf' s := by
  obtain _ | fuel := fuel
  · omega
  induction h generalizing buf s fuel rest with
  | lazy hsaved => exact absurd hsaved not_saved_nil
  | empty =>
    refine ⟨_, buf, ?_, .empty, .refl ..⟩
    rw [parseFromNetwork, networkBytes, fetchInt_type]
    simp only [ofCode_code]
    rfl
  | hole hash =>
    refine ⟨_, buf, ?_, .hole hash, .refl ..⟩
    simp [parseFromNetwork, networkBytes, List.append_assoc, fetchInt_type, ofCode_code, fetchUInt256_store, pure_def]
  | @leaf d bs suffix v hs hv =>
    obtain ⟨buf', hfetch, hplaced, hframe, -⟩ := hbase.fetch (Nat.le_of_eq ht) (stringBytes v ++ rest) len
    have hholds := hplaced.holds
    refine ⟨_, buf', ?_, .leaf hholds hv, hframe⟩
    simp [parseFromNetwork, networkBytes, List.append_assoc, fetchInt_type, ofCode_code, hfetch, ok_bind,
      fetchString_stringBytes hv, newLeaf_eq hholds hv, pure_def, withBuffer_view]
  | @inner d bs p l r tl tr hp hl hr ihl ihr =>
    obtain ⟨hpn, hsl, hsr⟩ := sized_children ht
    obtain ⟨after, hafter⟩ : ∃ after, after =
        networkBytes tl (d + p.length + 1) ++ (networkBytes tr (d + p.length + 1) ++ rest) := ⟨_, rfl⟩
    obtain ⟨buf1, hfetch, hplaced, hframe, hzero⟩ := hbase.fetch hpn.le after len
    have hzero := hzero 1 (by omega)
    rw [← Nat.add_assoc d] at hzero
    have hfuel : 256 - (d + p.length + 1) < fuel := by omega
    obtain _ | fuel := fuel
    · omega
    -- the left subtree goes to the rest of the buffer, the right one to a new buffer
    obtain ⟨nl, buf2, hleft, hrl, hframe2⟩ := ihl (networkBytes tr (d + p.length + 1) ++ rest) hsl hzero fuel hfuel
    obtain ⟨buf3, s3, hcreate, hzero3⟩ := ZeroBase.create (d + p.length + 1)
    obtain ⟨nr, buf4, hright, hrr, -⟩ := ihr rest hsr hzero3 fuel hfuel
    have hholds := (hplaced.frame hframe2 (by omega)).holds
    refine ⟨_, buf2, ?_, .inner hholds hrl hrr, hframe.trans hframe2 (by omega)⟩
    have hsub : (view buf1 s (256 - d)).substrFrom (p.length + 1) =
        .ok (.view buf1 (s + (p.length + 1)) (256 - (d + p.length + 1))) := by
      grind [substrFrom_view]
    rw [parseFromNetwork, networkBytes, List.append_assoc, List.append_assoc, List.append_assoc, fetchInt_type,
      ← hafter]
    simp only [ofCode_code, hfetch, ok_bind, withBuffer_view, bitsSize_view, hsub]
    rw [hafter, hleft]
    simp only [ok_bind, beginBit_view, bitsSize_view, hzero.phase, hcreate, hright,
      withBuffer_view, newInner_eq hholds hrl hrr, pure_def]

/-- **Round trip.** A trie of 256-bit keys reads back from the bytes it is
serialized to. -/
theorem fetchFromNetwork_rep (h : Rep sha256 [] 0 n t) (ht : t.Sized 256) :
    ∃ n', fetchFromNetwork sha256 (networkBytes t 0) = .ok n' ∧ Rep sha256 [] 0 n' t := by
  obtain ⟨buf, s, hcreate, hzero⟩ := ZeroBase.create 0
  obtain ⟨n', buf', hparse, hrep, -⟩ := parseFromNetwork_rep [] (networkBytes t 0).length h ht hzero
    (show 256 - 0 < 256 + 1 by omega)
  rw [List.append_nil] at hparse
  refine ⟨n', ?_, hrep⟩
  have hbase : create none 0 256 = _ := hcreate
  rw [fetchFromNetwork, hbase]
  simp only [ok_bind, bitsSize_view, new]
  rw [hparse]
  rfl

end

/-! ## Tries obtained by `set` and `generate_pruned_tree` -/

/-- A trie obtained from the empty one by `set` of 256-bit keys and by
`generate_pruned_tree`. -/
inductive Obtained (sha256 : Bytes → UInt256) : TrieNode → Prop
  | empty {n : TrieNode} (h : newEmpty sha256 = .ok n) : Obtained sha256 n
  | set {n n' : TrieNode} (hn : Obtained sha256 n) (key : Key256) (value : Bytes)
      (h : n.setKey sha256 key.val value [] = .ok n') : Obtained sha256 n'
  | prune {n n' : TrieNode} (hn : Obtained sha256 n) (keys : List Bytes)
      (h : n.generatePrunedTree sha256 keys [] = .ok n') : Obtained sha256 n'

section

variable {sha256 : Bytes → UInt256}

theorem toKey_ok {key : Bytes} {a : BitString} (h : toKey key = .ok a) : ∃ k : Key256, a.Holds 0 k.bits := by
  rw [toKey] at h
  split at h
  next hne =>
    rw [bind_ok_iff] at h
    obtain ⟨_, hle, h⟩ := h
    rw [check_ok_iff] at hle
    have hlen : (key ++ List.replicate (32 - key.length) 0).length = 32 := by simp; omega
    obtain ⟨a', ha', hholds⟩ := ofSlice_holds hlen
    rw [h] at ha'
    cases ha'
    exact ⟨⟨_, hlen⟩, hholds⟩
  next heq =>
    obtain ⟨a', ha', hholds⟩ := ofSlice_holds (not_not.mp heq)
    rw [h] at ha'
    cases ha'
    exact ⟨⟨key, not_not.mp heq⟩, hholds⟩

theorem mapM_toKey {keys : List Bytes} {as : List BitString} (h : keys.mapM toKey = .ok as) :
    ∃ ks, HoldKeys 0 as ks ∧ ∀ k ∈ ks, k.length = 256 := by
  induction keys generalizing as with
  | nil => cases h; exact ⟨[], .nil, by simp⟩
  | cons key keys ih =>
    obtain ⟨a, as', ha, has', rfl⟩ := mapM_cons_ok h
    obtain ⟨k, hk⟩ := toKey_ok ha
    obtain ⟨ks, hks, hlen⟩ := ih has'
    exact ⟨k.bits :: ks, .cons hk hks, by simpa using hlen⟩

theorem Obtained.rep {n : TrieNode} (h : Obtained sha256 n) : ∃ t, Rep sha256 [] 0 n t ∧ t.Sized 256 := by
  induction h with
  | empty h => cases h; exact ⟨.empty, .empty, trivial⟩
  | @set n n' hn key value hstep ih =>
    obtain ⟨t, hrep, hsized⟩ := ih
    have hout := setKey_rep hrep hsized key value
    rw [hstep] at hout
    cases ht' : t.set key.bits value with
    | none => rw [ht'] at hout; cases hout
    | some t' =>
      rw [ht'] at hout
      have hv : value.length < 2 ^ 32 := by
        by_contra hge
        cases hout.2 (by omega)
      obtain ⟨m, hm, hrep'⟩ := hout.1 hv
      cases hm
      exact ⟨t', hrep', hsized.set key.length_bits ht'⟩
  | @prune n n' hn keys hstep ih =>
    obtain ⟨t, hrep, hsized⟩ := ih
    rw [generatePrunedTree, bind_ok_iff] at hstep
    obtain ⟨as, has, hstep⟩ := hstep
    obtain ⟨ks, hks, hlen⟩ := mapM_toKey has
    have hfuel : 256 - 0 < 258 := by omega
    have hout := pruneNode_rep hrep hsized hks hlen hfuel
    rw [hstep] at hout
    cases ht' : t.prune (fun x => sha256 (encodePreimage x)) 0 ks with
    | none => rw [ht'] at hout; cases hout
    | some t' =>
      rw [ht'] at hout
      obtain ⟨m, hm, hrep'⟩ := hout
      cases hm
      exact ⟨t', hrep', hsized.prune ht'⟩

/-- **Round trip.** A trie obtained by `set` and `generate_pruned_tree` reads
back from the network as it is, node for node. -/
theorem fetch_serialize {n : TrieNode} (h : Obtained sha256 n) :
    ∃ data n', n.serializeForNetwork = .ok data ∧ fetchFromNetwork sha256 data = .ok n' ∧ n.SameAs n' := by
  obtain ⟨t, hrep, hsized⟩ := h.rep
  obtain ⟨n', hfetch, hrep'⟩ := fetchFromNetwork_rep hrep hsized
  exact ⟨_, n', storeForNetwork_rep hrep, hfetch, hrep.sameAs hrep'⟩

end

theorem fill_obtained {sha256 : Bytes → UInt256} {ops : List (Key256 × Bytes)} {n : TrieNode}
    (h : fill sha256 ops = .ok n) : Obtained sha256 n := by
  rw [fill, bind_ok_iff] at h
  obtain ⟨n0, hempty, hrun⟩ := h
  exact Outcome.foldlM_inv (fun hn hstep => hn.set _ _ hstep) (.empty hempty) hrun

/-! The small trie without what the key with the first two bytes 1 and 2 does not need. -/

def samplePruned : TrieNode :=
  (sampleTrie.generatePrunedTree sampleHash [(sampleKey 1 2).val] []).get (by decide +kernel)

theorem samplePruned_obtained : Obtained sampleHash samplePruned :=
  (fill_obtained fill_sampleOps).prune _ (eq_ok_get _ _)

theorem fetch_serialize_sample : ∃ data n', samplePruned.serializeForNetwork = .ok data ∧
    fetchFromNetwork sampleHash data = .ok n' ∧ samplePruned.SameAs n' :=
  fetch_serialize samplePruned_obtained

/-! ## Reading any bytes

The walk of `parse_from_network` over the bytes, by itself. It stops at a type
that is none of the four, at an inner node whose prefix takes all bits that are
left, and at a value too long to be stored.
-/

/-- Where the parser is after a node at depth `d`. -/
def walk : Nat → Nat → TlParser → Option TlParser
  | 0, _, _ => none
  | fuel + 1, d, parser =>
    let (type, parser) := parser.fetchInt
    match ofCode type with
    | some .leaf =>
      let (value, parser) := (afterBits (d % 8) (256 - d) parser).2.fetchString
      if value.length < 2 ^ 32 then some parser else none
    | some .inner =>
      let (len, parser) := afterBits (d % 8) (256 - d) parser
      if len < 256 - d then (walk fuel (d + len + 1) parser).bind (walk fuel (d + len + 1)) else none
    | some .pruned => some (fetchUInt256 parser).2
    | some .empty => some parser
    | none => none

section

variable {sha256 : Bytes → UInt256} {d : Nat}

/-- What `parse_from_network` returns, by where the walk ends. -/
def ParseOutcome (sha256 : Bytes → UInt256) (d : Nat) (buf : Bytes) (s : Nat) (after : Option TlParser)
    (out : Outcome (TrieNode × TlParser × BitString)) : Prop :=
  match after with
  | none => out = .fatal
  | some p => ∃ n t buf', out = .ok (n, p, .view buf' s (256 - d)) ∧ Rep sha256 [] d n t ∧ BitString.Frame buf buf' s

theorem afterBits_le (b size : Nat) (p : TlParser) : (afterBits b size p).1 ≤ size := by
  simp [afterBits]

theorem parseFromNetwork_walk {buf : Bytes} {s fuel : Nat} (p : TlParser) (hphase : s % 8 = d % 8)
    (hbound : s + (256 - d) ≤ 8 * buf.length) :
    ParseOutcome sha256 d buf s (walk fuel d p) (parseFromNetwork sha256 fuel p (.view buf s (256 - d))) := by
  induction fuel generalizing d p buf s with
  | zero => exact rfl
  | succ fuel ih =>
    rw [walk, parseFromNetwork]
    have hsmall : 256 - d + 8 ≤ 2 ^ 64 := by omega
    obtain ⟨buf1, hfetch, hframe⟩ := fetch_view p.fetchInt.2 hsmall hbound
    rw [hphase] at hfetch
    have hle := afterBits_le (d % 8) (256 - d) p.fetchInt.2
    obtain ⟨len, p1, hafter⟩ : ∃ len p1, afterBits (d % 8) (256 - d) p.fetchInt.2 = (len, p1) := ⟨_, _, rfl⟩
    simp only [hafter] at hfetch hle ⊢
    have hplaced : BitString.Placed d buf1 s (bitsAt buf1 s len) :=
      ⟨hphase, by rw [hframe.length, length_bitsAt]; omega, by rw [length_bitsAt], by rw [length_bitsAt]; omega⟩
    cases ofCode p.fetchInt.1 with
    | none => exact rfl
    | some type =>
      cases type with
      | empty => exact ⟨_, _, buf, rfl, .empty, .refl ..⟩
      | pruned => exact ⟨_, _, buf, rfl, .hole _, .refl ..⟩
      | leaf =>
        have hholds := hplaced.holds
        rw [length_bitsAt] at hholds
        simp only [hfetch, ok_bind, withBuffer_view]
        by_cases hv : p1.fetchString.1.length < 2 ^ 32
        · simp only [hv, if_true, newLeaf_eq hholds hv, ok_bind]
          exact ⟨_, _, buf1, rfl, .leaf hholds hv, hframe⟩
        · simp only [hv, if_false, newLeaf_fatal sha256 _ (Nat.le_of_not_lt hv), fatal_bind]
          exact rfl
      | inner =>
        simp only [hfetch, ok_bind, withBuffer_view, bitsSize_view]
        by_cases hlen : len < 256 - d
        · have hsub : (view buf1 s (256 - d)).substrFrom (len + 1) =
              .ok (.view buf1 (s + (len + 1)) (256 - (d + len + 1))) := by
            grind [substrFrom_view]
          rw [if_pos hlen, hsub, ok_bind]
          have hphase : (s + (len + 1)) % 8 = (d + len + 1) % 8 := by omega
          have hleft := ih p1 hphase
            (show s + (len + 1) + (256 - (d + len + 1)) ≤ 8 * buf1.length by rw [hframe.length]; omega)
          cases hwalk : walk fuel (d + len + 1) p1 with
          | none =>
            rw [hwalk] at hleft
            have hparse : parseFromNetwork sha256 fuel p1 _ = _ := hleft
            rw [hparse]
            exact rfl
          | some p2 =>
            rw [hwalk] at hleft
            obtain ⟨left, tl, buf2, hleft, hrl, hframe2⟩ := hleft
            obtain ⟨buf3, s3, hcreate, hzero⟩ := ZeroBase.create (d + len + 1)
            have hbegin : (s + (len + 1)) % 8 = (d + len + 1) % 8 := by omega
            simp only [hleft, ok_bind, beginBit_view, bitsSize_view, hbegin, hcreate,
              Option.bind_some, withBuffer_view]
            have hright := ih (d := d + len + 1) p2 hzero.phase hzero.bound
            cases hwalk' : walk fuel (d + len + 1) p2 with
            | none =>
              rw [hwalk'] at hright
              have hparse : parseFromNetwork sha256 fuel p2 _ = _ := hright
              rw [hparse]
              exact rfl
            | some p3 =>
              rw [hwalk'] at hright
              obtain ⟨right, tr, buf4, hright, hrr, -⟩ := hright
              have hholds := (hplaced.frame hframe2 (by rw [length_bitsAt]; omega)).holds
              rw [length_bitsAt] at hholds
              rw [← length_bitsAt buf1 s len] at hrl hrr
              simp only [hright, ok_bind, newInner_eq hholds hrl hrr]
              exact ⟨_, _, buf2, rfl, .inner hholds hrl hrr, hframe.trans hframe2 (by omega)⟩
        · rw [if_neg hlen, substrFrom, substr_view_fatal buf1 (by omega)]
          exact rfl

theorem fetchFromNetwork_walk (sha256 : Bytes → UInt256) (data : Bytes) :
    (walk 257 0 (new data) = none ∧ fetchFromNetwork sha256 data = .fatal) ∨
    ∃ n t parser, walk 257 0 (new data) = some parser ∧ Rep sha256 [] 0 n t ∧
      fetchFromNetwork sha256 data = (parser.fetchEnd.getStatus >>= fun _ => .ok n) := by
  obtain ⟨buf, s, hcreate, hzero⟩ := ZeroBase.create 0
  have hout : ParseOutcome sha256 0 buf s (walk 257 0 (new data))
      (parseFromNetwork sha256 257 (new data) (.view buf s (256 - 0))) :=
    parseFromNetwork_walk _ hzero.phase hzero.bound
  have hbase : create none 0 256 = _ := hcreate
  rw [fetchFromNetwork, hbase, ok_bind, bitsSize_view]
  cases hwalk : walk 257 0 (new data) with
  | none =>
    rw [hwalk] at hout
    have hparse : parseFromNetwork sha256 257 _ _ = _ := hout
    rw [hparse]
    exact .inl ⟨rfl, rfl⟩
  | some parser =>
    rw [hwalk] at hout
    obtain ⟨n, t, buf', hout, hrep, -⟩ := hout
    refine .inr ⟨n, t, parser, rfl, hrep, ?_⟩
    have hfuel : 256 - 0 + 1 = 257 := rfl
    rw [hfuel, hout]
    rfl

theorem fetchFromNetwork_ok {data : Bytes} {n : TrieNode} (h : fetchFromNetwork sha256 data = .ok n) :
    ∃ t, Rep sha256 [] 0 n t := by
  rcases fetchFromNetwork_walk sha256 data with ⟨-, hout⟩ | ⟨n', t, parser, -, hrep, hout⟩
  · rw [hout] at h
    cases h
  · rw [hout, bind_ok_iff] at h
    obtain ⟨_, -, h⟩ := h
    cases h
    exact ⟨t, hrep⟩

end

/-- The bytes of a node at depth `d`, and of all nodes below it, can be read: the
types are known, the prefix of an inner node leaves a bit for its children, and
the values are not too long. Lengths are taken as the parser takes them, and
what it reads after the end of the bytes are zeros. -/
inductive Readable : Nat → TlParser → TlParser → Prop
  | empty {d : Nat} {p : TlParser} (type : ofCode p.fetchInt.1 = some .empty) :
      Readable d p p.fetchInt.2
  | pruned {d : Nat} {p : TlParser} (type : ofCode p.fetchInt.1 = some .pruned) :
      Readable d p (fetchUInt256 p.fetchInt.2).2
  | leaf {d : Nat} {p p₁ : TlParser} (type : ofCode p.fetchInt.1 = some .leaf)
      (suffix : (afterBits (d % 8) (256 - d) p.fetchInt.2).2 = p₁)
      (value : p₁.fetchString.1.length < 2 ^ 32) : Readable d p p₁.fetchString.2
  | inner {d len : Nat} {p p₁ p₂ p₃ : TlParser} (type : ofCode p.fetchInt.1 = some .inner)
      (pfx : afterBits (d % 8) (256 - d) p.fetchInt.2 = (len, p₁)) (room : len < 256 - d)
      (left : Readable (d + len + 1) p₁ p₂) (right : Readable (d + len + 1) p₂ p₃) : Readable d p p₃

/-- The bound of the walk is never reached: a node is deeper than the one above it. -/
theorem walk_iff {fuel d : Nat} {p p' : TlParser} (hfuel : 256 - d < fuel) :
    walk fuel d p = some p' ↔ Readable d p p' := by
  induction fuel generalizing d p p' with
  | zero => omega
  | succ fuel ih =>
    constructor
    · intro h
      rw [walk] at h
      dsimp only at h
      split at h
      next htype =>
        split_ifs at h with hv
        cases h
        exact .leaf htype rfl hv
      next htype =>
        split_ifs at h with hlen
        rw [Option.bind_eq_some_iff] at h
        obtain ⟨p2, hleft, hright⟩ := h
        exact .inner htype rfl hlen ((ih (by omega)).mp hleft) ((ih (by omega)).mp hright)
      next htype =>
        cases h
        exact .pruned htype
      next htype =>
        cases h
        exact .empty htype
      next htype => cases h
    · intro h
      rw [walk]
      cases h with
      | empty type => simp only [type]
      | pruned type => simp only [type]
      | leaf type suffix value => simp only [type, suffix, value, if_true]
      | @inner _ len _ p1 p2 _ type pfx room left right =>
        have hfuel : 256 - (d + len + 1) < fuel := by omega
        simp [type, pfx, room, (ih hfuel).mpr left, (ih hfuel).mpr right, Option.bind_some]

/-- **Any bytes.** `fetch_from_network` returns a trie or an error for the bytes
of a node that can be read, whatever follows them, and aborts on all others. -/
theorem fetchFromNetwork_returns_iff (sha256 : Bytes → UInt256) (data : Bytes) :
    fetchFromNetwork sha256 data ≠ .fatal ↔ ∃ parser, Readable 0 (new data) parser := by
  have hwalk : ∀ p, walk 257 0 (new data) = some p ↔ Readable 0 (new data) p :=
    fun p => walk_iff (by omega)
  rcases fetchFromNetwork_walk sha256 data with ⟨hnone, hout⟩ | ⟨n, t, parser, hsome, -, hout⟩
  · refine ⟨fun h => absurd hout h, ?_⟩
    rintro ⟨parser, h⟩
    rw [← hwalk, hnone] at h
    cases h
  · refine ⟨fun _ => ⟨parser, (hwalk parser).mp hsome⟩, fun _ h => ?_⟩
    rw [hout] at h
    cases hstatus : parser.fetchEnd.getStatus with
    | ok u => rw [hstatus] at h; cases h
    | error e => rw [hstatus] at h; cases h
    | fatal =>
      simp only [getStatus] at hstatus
      split at hstatus <;> cases hstatus

/-- A type that is none of the four reaches the end of the cases. -/
theorem fetchFromNetwork_unknown_type : fetchFromNetwork sampleHash [4, 0, 0, 0] = .fatal := by decide

end TrieNode

end Tdlib.E2e
