/-
What a node stands for: a binary trie over the bits of the key that are left
at its depth.

`Rep` relates a node at depth `d` to a trie. The bit strings of the node start
at bit `d` of the key, up to whole bytes, its hash is the digest of the trie,
a pruned node with an offset stands for the trie that is saved there
(`Saved`), and a pruned node without one for a hole.
-/
import Tdlib.E2e.BitStringFetch
import Tdlib.E2e.Trie
import Tdlib.Lib.MerkleTrie

namespace Tdlib.E2e

open TrieNodeType hiding store
open Outcome TlParser BitString

open BitTrie (Preimage Shape)

/-! ## Bit strings by their bits -/

namespace BitString

/-- The string has the bits `bits`, of at most a key, from bit `d` of a key on. -/
structure Holds (bs : BitString) (d : Nat) (bits : List Bool) : Prop where
  view : ∃ buf s, bs = view buf s bits.length ∧ s % 8 = d % 8 ∧ s + bits.length ≤ 8 * buf.length ∧
    bitsAt buf s bits.length = bits
  short : bits.length ≤ 256

/-- The bits `bits` are in the buffer from bit `s` on, which is bit `d` of a key
up to whole bytes. -/
structure Placed (d : Nat) (buf : Bytes) (s : Nat) (bits : List Bool) : Prop where
  phase : s % 8 = d % 8
  bound : s + bits.length ≤ 8 * buf.length
  bitsAt_eq : bitsAt buf s bits.length = bits
  short : bits.length ≤ 256

theorem Placed.holds {d : Nat} {buf : Bytes} {s : Nat} {bits : List Bool} (h : Placed d buf s bits) :
    (view buf s bits.length).Holds d bits :=
  ⟨⟨buf, s, rfl, h.phase, h.bound, h.bitsAt_eq⟩, h.short⟩

theorem Placed.frame {d : Nat} {buf buf' : Bytes} {s m : Nat} {bits : List Bool} (h : Placed d buf s bits)
    (hframe : Frame buf buf' m) (hm : s + bits.length ≤ m) : Placed d buf' s bits :=
  ⟨h.phase, by rw [hframe.length]; exact h.bound, by rw [hframe.bitsAt hm, h.bitsAt_eq], h.short⟩

section

variable {a b : BitString} {d : Nat} {x y : List Bool}

theorem Holds.of_view {buf : Bytes} {s n : Nat} (hs : s % 8 = d % 8) (hb : s + n ≤ 8 * buf.length) (hn : n ≤ 256) :
    (BitString.view buf s n).Holds d (bitsAt buf s n) :=
  ⟨⟨buf, s, by simp [hs, hb]⟩, by simpa using hn⟩

theorem Holds.bitsSize (h : a.Holds d x) : a.bitsSize = x.length := by
  obtain ⟨buf, s, rfl, -⟩ := h.view
  rfl

theorem Holds.beginBit (h : a.Holds d x) : a.beginBit = d % 8 := by
  obtain ⟨buf, s, rfl, hs, -⟩ := h.view
  exact hs

theorem Holds.equals (ha : a.Holds d x) (hb : b.Holds d y) (hlen : x.length = y.length) :
    a.equals b = .ok (decide (x = y)) := by
  obtain ⟨buf, s, rfl, hs, hin, hx⟩ := ha.view
  obtain ⟨buf', s', rfl, hs', hin', hy⟩ := hb.view
  rw [← hlen] at hin' hy ⊢
  rw [equals_view (hs.trans hs'.symm) hin hin', hx, hy]

theorem Holds.commonPrefixLength (ha : a.Holds d x) (hb : b.Holds d y) : a.commonPrefixLength b = .ok (lcp x y) := by
  obtain ⟨buf, s, rfl, hs, hin, hx⟩ := ha.view
  obtain ⟨buf', s', rfl, hs', hin', hy⟩ := hb.view
  rw [commonPrefixLength_view (hs.trans hs'.symm) hin hin', hx, hy]

theorem Holds.getBit (h : a.Holds d x) {pos : Nat} (hpos : pos < x.length) :
    a.getBit pos = .ok (if x.getD pos false then 1 else 0) := by
  obtain ⟨buf, s, rfl, hs, hin, hx⟩ := h.view
  have : x.getD pos false = bitAt buf (s + pos) := by
    conv_lhs => rw [← hx]
    rw [getD_bitsAt, decide_eq_true hpos, Bool.true_and]
  rw [getBit_view buf hpos, this]

theorem Holds.substr (h : a.Holds d x) {pos : Nat} (len : Nat) (hpos : pos ≤ x.length) :
    ∃ a', a.substr pos len = .ok a' ∧ a'.Holds (d + pos) ((x.drop pos).take len) := by
  obtain ⟨buf, s, rfl, hs, hin, hx⟩ := h.view
  have hshort := h.short
  refine ⟨_, substr_view buf (by omega) hpos, ?_⟩
  have hbits : (x.drop pos).take len = bitsAt buf (s + pos) (min len (x.length - pos)) := by
    conv_lhs => rw [← hx]
    rw [take_drop_bitsAt]
  rw [hbits]
  exact .of_view (by omega) (by omega) (by omega)

theorem Holds.substrFrom (h : a.Holds d x) {pos : Nat} (hpos : pos ≤ x.length) :
    ∃ a', a.substrFrom pos = .ok a' ∧ a'.Holds (d + pos) (x.drop pos) := by
  obtain ⟨a', ha', hold⟩ := h.substr (2 ^ 64 - 1) hpos
  have hshort := h.short
  rw [List.take_of_length_le (by rw [List.length_drop]; omega)] at hold
  exact ⟨a', ha', hold⟩

theorem Holds.store (h : a.Holds d x) : a.store = encodeBits (d % 8) x := by
  obtain ⟨buf, s, rfl, hs, hin, hx⟩ := h.view
  rw [store_view buf hin, hs, hx]

end

/-- The bits of a 256-bit key. -/
def keyBits (key : Bytes) : List Bool := bitsAt key 0 256

theorem length_keyBits (key : Bytes) : (keyBits key).length = 256 := length_bitsAt ..

theorem ofSlice_holds {key : Bytes} (hkey : key.length = 32) : ∃ a, ofSlice key = .ok a ∧ a.Holds 0 (keyBits key) := by
  refine ⟨BitString.view key 0 256, ?_, .of_view rfl (by omega) (by omega)⟩
  rw [ofSlice, create_none (by omega), hkey]
  rfl

theorem keyBits_injective {key key' : Bytes} (hkey : key.length = 32) (hkey' : key'.length = 32)
    (h : keyBits key = keyBits key') : key = key' := by
  apply bytes_ext (hkey.trans hkey'.symm)
  intro i hi
  have := bitsAt_eq_iff.mp h i (by omega)
  simpa using this

end BitString

/-! ## Digests -/

/-- What `store_string` writes for a string it can store. -/
def stringBytes (value : Bytes) : Bytes :=
  match storeString value with
  | .ok bytes => bytes
  | _ => []

theorem storeString_eq {value : Bytes} (h : value.length < 2 ^ 32) : storeString value = .ok (stringBytes value) := by
  obtain ⟨bytes, hbytes⟩ := storeString_ok h
  rw [stringBytes, hbytes]

/-- A trie over keys, with the hashes of its missing parts. -/
abbrev KeyTrie := BitTrie Bytes UInt256

/-- `store_for_hash`, by what the node stands for. -/
def encodePreimage : Preimage Bytes UInt256 → Bytes
  | ⟨_, .empty⟩ => empty.store
  | ⟨d, .leaf s v⟩ => leaf.store ++ encodeBits (d % 8) s ++ stringBytes v
  | ⟨d, .inner p l r⟩ => inner.store ++ encodeBits (d % 8) p ++ l.store ++ r.store

section

variable (sha256 : Bytes → UInt256)

/-- The hash of a node at depth `d`. -/
def trieHash (t : KeyTrie) (d : Nat) : UInt256 := t.digest (fun x => sha256 (encodePreimage x)) d

/-- The snapshot has the node of `t` at `offset`, and the nodes below it where it says. -/
inductive Saved (snapshot : Bytes) : Nat → Nat → KeyTrie → Prop
  | empty {offset d : Nat} (rest : Bytes) (at_ : snapshot.drop offset = empty.store ++ rest) :
      Saved snapshot offset d .empty
  | leaf {offset d : Nat} {s : List Bool} {v : Bytes} (rest : Bytes) (hv : v.length < 2 ^ 32)
      (at_ : snapshot.drop offset =
        leaf.store ++ (encodeBits (d % 8) s ++ (stringBytes v ++ rest))) :
      Saved snapshot offset d (.leaf s v)
  | inner {offset d lo ro : Nat} {p : List Bool} {l r : KeyTrie} (rest : Bytes) (hlo : lo < 2 ^ 63)
      (hro : ro < 2 ^ 63) (hl : Saved snapshot lo (d + p.length + 1) l) (hr : Saved snapshot ro (d + p.length + 1) r)
      (at_ : snapshot.drop offset = inner.store ++ (encodeBits (d % 8) p ++
        (leBytes 8 (int64Bits lo) ++ ((trieHash sha256 l (d + p.length + 1)).store ++
          (leBytes 8 (int64Bits ro) ++ ((trieHash sha256 r (d + p.length + 1)).store ++ rest)))))) :
      Saved snapshot offset d (.inner p l r)

/-- The base string of a node at depth `d` that is not loaded: its bits are
zero, or there is no buffer yet. -/
def BaseAt (d : Nat) (base : BitString) : Prop :=
  (base.data = none ∧ base.beginBit = d % 8 ∧ base.bitsSize = 256 - d) ∨
  ∃ buf s, base = view buf s (256 - d) ∧ s % 8 = d % 8 ∧ s + (256 - d) ≤ 8 * buf.length ∧
    ∀ i, s ≤ i → i < s + (256 - d) → bitAt buf i = false

/-! ## What a node stands for -/

/-- The node at depth `d` stands for the trie. -/
inductive Rep (snapshot : Bytes) : Nat → TrieNode → KeyTrie → Prop
  | empty {d : Nat} : Rep snapshot d (.empty (trieHash sha256 .empty d)) .empty
  | leaf {d : Nat} {bs : BitString} {s : List Bool} {v : Bytes} (hs : bs.Holds d s) (hv : v.length < 2 ^ 32) :
      Rep snapshot d (.leaf (trieHash sha256 (.leaf s v) d) bs v) (.leaf s v)
  | inner {d : Nat} {bs : BitString} {p : List Bool} {l r : TrieNode} {tl tr : KeyTrie} (hp : bs.Holds d p)
      (hl : Rep snapshot (d + p.length + 1) l tl) (hr : Rep snapshot (d + p.length + 1) r tr) :
      Rep snapshot d (.inner (trieHash sha256 (.inner p tl tr) d) bs l r) (.inner p tl tr)
  | hole {d : Nat} (h : UInt256) : Rep snapshot d (.newPruned h) (.hole h)
  | lazy {d : Nat} {offset : Nat} {base : BitString} {t : KeyTrie} (hsaved : Saved sha256 snapshot offset d t)
      (hbase : BaseAt d base) : Rep snapshot d (.pruned (trieHash sha256 t d) offset base) t

end

section

variable {sha256 : Bytes → UInt256} {snapshot : Bytes} {d : Nat}
variable {t : KeyTrie} {offset : Nat}

theorem Rep.hash {n : TrieNode} (h : Rep sha256 snapshot d n t) : n.hash = trieHash sha256 t d := by
  cases h <;> rfl

theorem Saved.offset_lt (h : Saved sha256 snapshot offset d t) : offset < snapshot.length := by
  by_contra hlt
  have hdrop : snapshot.drop offset = [] := List.drop_eq_nil_of_le (by omega)
  cases h with
  | empty rest h | leaf rest _ h | inner rest _ _ _ _ h =>
    rw [hdrop] at h
    have := congrArg List.length h
    simp only [TrieNodeType.store, List.length_nil, List.length_append, length_leBytes] at this
    omega

theorem not_saved_nil : ¬ Saved sha256 [] offset d t := fun h => Nat.not_lt_zero _ h.offset_lt

namespace TrieNode

variable {bs : BitString} {s : List Bool} {v : Bytes} {n : TrieNode}

theorem newLeaf_eq (hs : bs.Holds d s) (hv : v.length < 2 ^ 32) :
    newLeaf sha256 bs v = .ok (.leaf (trieHash sha256 (.leaf s v) d) bs v) := by
  simp only [newLeaf, computeHash, storeForHash, storeString_eq hv, ok_bind, pure_def, hs.store]
  rfl

theorem newLeaf_fatal (sha256 : Bytes → UInt256) (bs : BitString) (hv : 2 ^ 32 ≤ v.length) :
    newLeaf sha256 bs v = .fatal := by
  simp [newLeaf, computeHash, storeForHash, storeString_fatal hv]

theorem newLeaf_rep (hs : bs.Holds d s) (hv : v.length < 2 ^ 32) :
    ∃ n, newLeaf sha256 bs v = .ok n ∧ Rep sha256 snapshot d n (.leaf s v) :=
  ⟨_, newLeaf_eq hs hv, .leaf hs hv⟩

section

variable {bs : BitString} {p : List Bool} {l r : TrieNode} {tl tr : KeyTrie} (hp : bs.Holds d p)
    (hl : Rep sha256 snapshot (d + p.length + 1) l tl) (hr : Rep sha256 snapshot (d + p.length + 1) r tr)

include hp hl hr

theorem newInner_eq : newInner sha256 bs l r = .ok (.inner (trieHash sha256 (.inner p tl tr) d) bs l r) := by
  simp only [newInner, computeHash, storeForHash, ok_bind, pure_def, hp.store, hl.hash, hr.hash]
  rfl

theorem newInner_rep : ∃ n, newInner sha256 bs l r = .ok n ∧ Rep sha256 snapshot d n (.inner p tl tr) :=
  ⟨_, newInner_eq hp hl hr, .inner hp hl hr⟩

theorem newSplit_rep {b : Bool} :
    ∃ n, newSplit sha256 (if b then 1 else 0) bs l r = .ok n ∧ Rep sha256 snapshot d n (BitTrie.branch p b tl tr) := by
  cases b with
  | false => exact newInner_rep hp hl hr
  | true => exact newInner_rep hp hr hl

end

/-- The node is not a pruned one. -/
def Loaded : TrieNode → Prop
  | .pruned .. => False
  | _ => True

/-! ## Loading -/

theorem fetchInt_type (type : TrieNodeType) (rest : Bytes) (len : Nat) (err : Option (String × Nat)) :
    fetchInt ⟨type.store ++ rest, len, err⟩ = (type.code, ⟨rest, len, err⟩) :=
  fetchInt_append (by cases type <;> decide) rest len err

@[simp] theorem ofCode_code (type : TrieNodeType) : ofCode type.code = some type := by
  cases type <;> rfl

theorem fetchUInt256_store (x : UInt256) (rest : Bytes) (len : Nat) (err : Option (String × Nat)) :
    fetchUInt256 ⟨x.store ++ rest, len, err⟩ = (x, ⟨rest, len, err⟩) := by
  have h := fetchBinary_append x.store rest len err
  rw [show x.store.length = 32 from length_leBytes 32 x.toNat] at h
  have hx : leNat x.store = x.toNat := leNat_leBytes_of_lt (by simpa using x.isLt)
  simp [fetchUInt256, h, hx, BitVec.setWidth_eq]

theorem fetchString_stringBytes (hv : v.length < 2 ^ 32) (rest : Bytes) (len : Nat)
    (err : Option (String × Nat)) : fetchString ⟨stringBytes v ++ rest, len, err⟩ = (v, ⟨rest, len, err⟩) :=
  fetchString_storeString (storeString_eq hv) rfl

/-- A base string that is still zero, as the string over its own buffer. -/
structure ZeroBase (d : Nat) (buf : Bytes) (s : Nat) : Prop where
  phase : s % 8 = d % 8
  bound : s + (256 - d) ≤ 8 * buf.length
  zero : ∀ i, s ≤ i → i < s + (256 - d) → bitAt buf i = false

theorem ZeroBase.create (d : Nat) : ∃ buf s,
    create none (d % 8) (256 - d) = .ok (.view buf s (256 - d)) ∧ ZeroBase d buf s := by
  refine ⟨List.replicate ((d % 8 % 8 + (256 - d) + 7) / 8) 0, d % 8 % 8, create_none (by omega), ?_, ?_, ?_⟩
  · omega
  · rw [List.length_replicate]; omega
  · intro i _ _
    exact bitAt_replicate_zero ..

/-- A bit string at its place reads back, and the rest of the base stays zero. -/
theorem ZeroBase.fetch {buf : Bytes} {s : Nat} (h : ZeroBase d buf s) {bits : List Bool} (hbits : bits.length ≤ 256 - d)
    (rest : Bytes) (len : Nat) :
    ∃ buf', fetch ⟨encodeBits (d % 8) bits ++ rest, len, none⟩ (.view buf s (256 - d)) =
        .ok (.view buf' s bits.length, ⟨rest, len, none⟩) ∧
      BitString.Placed d buf' s bits ∧ BitString.Frame buf buf' s ∧
      ∀ m, bits.length + m ≤ 256 - d → ZeroBase (d + (bits.length + m)) buf' (s + (bits.length + m)) := by
  have hphase := h.phase
  have hbound := h.bound
  obtain ⟨buf', hfetch, hwrote⟩ := fetch_encodeBits rest len hbits (by omega) hbound h.zero
  rw [hphase] at hfetch
  refine ⟨buf', hfetch, ⟨hphase, by rw [hwrote.length]; omega, ?_, by omega⟩, ⟨hwrote.length, fun i hi => ?_⟩,
    fun m hm => ?_⟩
  · apply hwrote.bitsAt rfl
    intro i hi
    rw [Nat.add_sub_cancel_left]
  · rw [hwrote.bits, if_neg (by omega)]
  · refine ⟨by omega, by rw [hwrote.length]; omega, fun i h1 h2 => ?_⟩
    rw [hwrote.bits, if_neg (by omega), h.zero i (by omega) (by omega)]

theorem fetchNodeFromSnapshot_rep {s : Nat} {buf : Bytes}
    (hsaved : Saved sha256 snapshot offset d t) (ht : t.Sized (256 - d)) (hbase : ZeroBase d buf s) :
    ∃ n, fetchNodeFromSnapshot sha256 (snapshot.drop offset) (.view buf s (256 - d)) = .ok n ∧
      Rep sha256 snapshot d n t ∧ n.Loaded := by
  cases hsaved with
  | empty rest hat =>
    refine ⟨_, ?_, .empty, trivial⟩
    rw [fetchNodeFromSnapshot, hat, TlParser.new, fetchInt_type]
    rfl
  | @leaf _ _ suffix v rest hv hat =>
    obtain ⟨len, hnew⟩ : ∃ len, TlParser.new (snapshot.drop offset) = ⟨TrieNodeType.leaf.store ++
        (encodeBits (d % 8) suffix ++ (stringBytes v ++ rest)), len, none⟩ := ⟨_, by rw [hat]; rfl⟩
    obtain ⟨buf', hfetch, hplaced, -⟩ := hbase.fetch (Nat.le_of_eq ht) (stringBytes v ++ rest) len
    have hholds := hplaced.holds
    refine ⟨_, ?_, .leaf hholds hv, trivial⟩
    simp [fetchNodeFromSnapshot, hnew, fetchInt_type, ofCode_code, hfetch, ok_bind, fetchString_stringBytes hv,
      getStatus, newLeaf_eq hholds hv]
  | @inner _ _ lo ro p l r rest hlo hro hl hr hat =>
    obtain ⟨hp, hsl, hsr⟩ := ht
    obtain ⟨after, hafter⟩ : ∃ after, after = leBytes 8 (int64Bits lo) ++
        ((trieHash sha256 l (d + p.length + 1)).store ++ (leBytes 8 (int64Bits ro) ++
          ((trieHash sha256 r (d + p.length + 1)).store ++ rest))) := ⟨_, rfl⟩
    obtain ⟨len, hnew⟩ : ∃ len, TlParser.new (snapshot.drop offset) = ⟨TrieNodeType.inner.store ++
        (encodeBits (d % 8) p ++ after), len, none⟩ := ⟨_, by rw [hat, hafter]; rfl⟩
    obtain ⟨buf', hfetch, hplaced, -, hleft⟩ := hbase.fetch hp.le after len
    have hholds := hplaced.holds
    have hleft := hleft 1 (by omega)
    have hlb : BaseAt (d + p.length + 1) (.view buf' (s + (p.length + 1)) (256 - (d + p.length + 1))) :=
      .inr ⟨_, _, rfl, hleft.phase, hleft.bound, hleft.zero⟩
    have hrb : BaseAt (d + p.length + 1) ⟨none, 0, 256 - (d + p.length + 1), 0, (s + (p.length + 1)) % 8, 0⟩ :=
      .inl ⟨rfl, hleft.phase, rfl⟩
    have hsub : ((view buf s (256 - d)).withBuffer (.view buf' s p.length)).substrFrom (p.length + 1) =
        .ok (.view buf' (s + (p.length + 1)) (256 - (d + p.length + 1))) := by
      rw [show (view buf s (256 - d)).withBuffer (.view buf' s p.length) = .view buf' s (256 - d) from rfl,
        substrFrom_view buf' (by omega) (by omega)]
      congr 2
      omega
    refine ⟨_, ?_, .inner hholds (.lazy hl hlb) (.lazy hr hrb), trivial⟩
    rw [fetchNodeFromSnapshot, hnew, fetchInt_type]
    simp only [ofCode_code, hfetch, ok_bind]
    rw [hafter]
    simp only [fetchLong_append (int64Bits_lt _), fetchUInt256_store, getStatus, ok_bind,
      bitsSize_view, hsub, beginBit_view,
      int64OfBits_int64Bits (show -2 ^ 63 ≤ (lo : Int) by omega) (by omega),
      int64OfBits_int64Bits (show -2 ^ 63 ≤ (ro : Int) by omega) (by omega)]
    exact newInner_eq hholds (.lazy hl hlb) (.lazy hr hrb)

theorem tryLoad_rep {base : BitString} (hsaved : Saved sha256 snapshot offset d t)
    (ht : t.Sized (256 - d)) (hbase : BaseAt d base) :
    ∃ n, tryLoad sha256 snapshot (trieHash sha256 t d) offset base = .ok n ∧ Rep sha256 snapshot d n t ∧ n.Loaded := by
  have hoff := hsaved.offset_lt
  obtain ⟨buf, s, hbs, hzero⟩ : ∃ buf s, loadBase base = .ok (.view buf s (256 - d)) ∧ ZeroBase d buf s := by
    rcases hbase with ⟨hdata, hbegin, hsize⟩ | ⟨buf, s, rfl, hs, hb, hz⟩
    · rw [loadBase, hdata, hbegin, hsize]
      exact ZeroBase.create d
    · exact ⟨buf, s, rfl, hs, hb, hz⟩
  obtain ⟨n, hn, hrep, hloaded⟩ := fetchNodeFromSnapshot_rep hsaved ht hzero
  refine ⟨n, ?_, hrep, hloaded⟩
  rw [tryLoad, if_neg (by omega), Int.toNat_natCast, if_neg (by omega)]
  simp [hbs, hn, hrep.hash, ne_eq, pure_def]

/-- A node that stands for a trie can be loaded, unless it stands for a hole. -/
theorem load_rep (h : Rep sha256 snapshot d n t) (ht : t.Sized (256 - d)) (hhole : ∀ hash, t ≠ .hole hash) :
    ∃ n', n.load sha256 snapshot = .ok n' ∧ Rep sha256 snapshot d n' t ∧ n'.Loaded := by
  cases h with
  | empty => exact ⟨_, rfl, .empty, trivial⟩
  | leaf hs hv => exact ⟨_, rfl, .leaf hs hv, trivial⟩
  | inner hp hl hr => exact ⟨_, rfl, .inner hp hl hr, trivial⟩
  | hole hash => exact absurd rfl (hhole hash)
  | lazy hsaved hbase => exact tryLoad_rep hsaved ht hbase

theorem load_hole {hash : UInt256} (h : Rep sha256 snapshot d n (.hole hash)) :
    n.load sha256 snapshot = .error "Cannot load pruned node" := by
  cases h with
  | hole => rfl
  | lazy hsaved => cases hsaved

theorem load_empty (h : Rep sha256 snapshot d n .empty) :
    n.load sha256 snapshot = .ok (.empty (trieHash sha256 .empty d)) := by
  obtain ⟨n', hload, hrep, hloaded⟩ := load_rep h trivial (by simp)
  cases hrep with
  | empty => exact hload
  | lazy => exact hloaded.elim

theorem load_leaf (h : Rep sha256 snapshot d n (.leaf s v)) (ht : s.length = 256 - d) :
    ∃ bs, n.load sha256 snapshot = .ok (.leaf (trieHash sha256 (.leaf s v) d) bs v) ∧ bs.Holds d s ∧
      v.length < 2 ^ 32 := by
  obtain ⟨n', hload, hrep, hloaded⟩ := load_rep h ht (by simp)
  cases hrep with
  | leaf hs hv => exact ⟨_, hload, hs, hv⟩
  | lazy => exact hloaded.elim

theorem load_inner {p : List Bool} {l r : KeyTrie} (h : Rep sha256 snapshot d n (.inner p l r))
    (ht : (BitTrie.inner p l r).Sized (256 - d)) :
    ∃ bs left right, n.load sha256 snapshot = .ok (.inner (trieHash sha256 (.inner p l r) d) bs left right) ∧
      bs.Holds d p ∧ Rep sha256 snapshot (d + p.length + 1) left l ∧
        Rep sha256 snapshot (d + p.length + 1) right r := by
  obtain ⟨n', hload, hrep, hloaded⟩ := load_rep h ht (by simp)
  cases hrep with
  | inner hp hl hr => exact ⟨_, _, _, hload, hp, hl, hr⟩
  | lazy => exact hloaded.elim

end TrieNode

end

end Tdlib.E2e
