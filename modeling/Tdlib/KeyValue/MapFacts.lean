/-
The map of a key value store and the live events of its binlog mirror each
other: a key has a value and an event id exactly if the event of that id is
live and stores the key with the value.
-/
import Tdlib.KeyValue.Core
import Tdlib.Binlog.Log

namespace Tdlib.Db

open Function hiding update
open KeyLog TlParser List

variable {key key' value value' data : Bytes}

/-! ## Stored keys and values -/

section

variable (h : storeKv key value = .ok data)

include h

theorem storeKv_eq : ∃ ks vs, storeString key = .ok ks ∧ storeString value = .ok vs ∧ data = ks ++ vs := by
  obtain ⟨ks, hks, h⟩ := Outcome.bind_ok_iff.1 h
  obtain ⟨vs, hvs, h⟩ := Outcome.bind_ok_iff.1 h
  cases h
  exact ⟨ks, vs, hks, hvs, rfl⟩

theorem storeKv_inj (h' : storeKv key' value' = .ok data) :
    key = key' ∧ value = value' := by
  obtain ⟨ks, vs, hks, hvs, rfl⟩ := storeKv_eq h
  obtain ⟨ks', vs', hks', hvs', heq⟩ := storeKv_eq h'
  obtain ⟨rfl, hrest⟩ := storeString_append_inj hks hks' heq
  have hvalue : vs ++ [] = vs' ++ [] := by rw [hrest]
  exact ⟨rfl, (storeString_append_inj hvs hvs' hvalue).1⟩

theorem storeKv_aligned : data.length % 4 = 0 := by
  obtain ⟨ks, vs, hks, hvs, rfl⟩ := storeKv_eq h
  have := storeString_aligned hks
  have := storeString_aligned hvs
  rw [length_append]; omega

end

theorem storeKv_ok (hkey : key.length < 2 ^ 24) (hvalue : value.length < 2 ^ 32) :
    ∃ data, storeKv key value = .ok data ∧ value.length ≤ data.length ∧
      data.length ≤ key.length + value.length + 32 := by
  obtain ⟨ks, hks⟩ := storeString_ok (show key.length < 2 ^ 32 by omega)
  obtain ⟨vs, hvs⟩ := storeString_ok hvalue
  have hk := storeString_length hks
  have hv := storeString_length hvs
  refine ⟨ks ++ vs, ?_, ?_, ?_⟩
  · unfold storeKv
    rw [hks, Outcome.ok_bind, hvs]
    rfl
  · rw [length_append]; omega
  · rw [length_append]; omega

/-- The callback of `init` reads what `set` stored. -/
theorem handle_eq {map : KvMap} {event : BinlogEvent} (hkey : key ≠ []) (h : storeKv key value = .ok event.getData) :
    map.handle event = .ok (map.insert key (value, event.id)) := by
  obtain ⟨ks, vs, hks, hvs, hdata⟩ := storeKv_eq h
  have h1 : (TlParser.new event.getData).fetchString =
      (key, { TlParser.new event.getData with data := vs }) := fetchString_storeString hks hdata
  have h2 : fetchString { TlParser.new event.getData with data := vs } =
      (value, { TlParser.new event.getData with data := [] }) :=
    fetchString_storeString hvs (append_nil vs).symm
  unfold KvMap.handle
  simp only [h1, h2, if_neg hkey]
  rfl

/-! ## Mirrors -/

/-- The map `f` of keys to values and ids mirrors the map `m` of ids to
events. -/
structure Mirrors (f : Bytes → Option (Bytes × Nat)) (m : Nat → Option LogEvent) : Prop where
  keyed : ∀ id e, m id = some e → ∃ key value, key ≠ [] ∧ storeKv key value = .ok e.data
  iff : ∀ key value id,
    f key = some (value, id) ↔ key ≠ [] ∧ ∃ e, m id = some e ∧ storeKv key value = .ok e.data

variable {f : Bytes → Option (Bytes × Nat)} {m : Nat → Option LogEvent} {e : LogEvent}

theorem Mirrors.key_eq (h : Mirrors f m) {id : Nat} (h1 : f key = some (value, id)) (h2 : f key' = some (value', id)) :
    key = key' := by
  obtain ⟨-, e1, he1, hs1⟩ := (h.iff _ _ _).1 h1
  obtain ⟨-, e2, he2, hs2⟩ := (h.iff _ _ _).1 h2
  rw [he1] at he2
  cases he2
  exact (storeKv_inj hs1 hs2).1

theorem update_other {id : Nat} (hid : id ≠ e.id) : update m e id = m id := by
  simp [update, hid]

/-- A new event for a new key, or one that takes the place of the key's. -/
theorem Mirrors.write (h : Mirrors f m) (hkey : key ≠ []) (hdata : storeKv key value = .ok e.data)
    (herases : KeyLog.Entry.erases e = false)
    (hold : f key = none ∧ m e.id = none ∨ ∃ value, f key = some (value, e.id)) :
    Mirrors (Function.update f key (some (value, e.id))) (update m e) := by
  have hself : update m e e.id = some e := by simp [update, herases]
  refine ⟨fun id e' he' => ?_, fun key' value' id => ?_⟩
  · by_cases hid : id = e.id
    · rw [hid, hself] at he'
      cases he'
      exact ⟨key, value, hkey, hdata⟩
    · rw [update_other hid] at he'
      exact h.keyed id e' he'
  · by_cases hk : key' = key
    · subst hk
      rw [update_self, Option.some.injEq, Prod.mk.injEq]
      constructor
      · rintro ⟨rfl, rfl⟩
        exact ⟨hkey, e, hself, hdata⟩
      · rintro ⟨-, e', he', hs'⟩
        by_cases hid : id = e.id
        · rw [hid, hself] at he'
          cases he'
          exact ⟨(storeKv_inj hdata hs').2, hid.symm⟩
        · rw [update_other hid] at he'
          have hf := (h.iff _ _ _).2 ⟨hkey, e', he', hs'⟩
          rcases hold with ⟨hnone, -⟩ | ⟨v, hsome⟩
          · rw [hnone] at hf; cases hf
          · rw [hsome] at hf; cases hf; exact absurd rfl hid
    · rw [update_of_ne hk]
      by_cases hid : id = e.id
      · subst hid
        constructor
        · intro hf
          rcases hold with ⟨-, hnone⟩ | ⟨v, hsome⟩
          · obtain ⟨-, e', he', -⟩ := (h.iff _ _ _).1 hf
            rw [hnone] at he'; cases he'
          · exact absurd (h.key_eq hf hsome) hk
        · rintro ⟨-, e', he', hs'⟩
          rw [hself] at he'
          cases he'
          exact absurd (storeKv_inj hs' hdata).1 hk
      · simp [update_other hid, h.iff]

theorem Mirrors.erase (h : Mirrors f m) (hf : f key = some (value, e.id)) (herases : KeyLog.Entry.erases e = true) :
    Mirrors (Function.update f key none) (update m e) := by
  have hself : update m e e.id = none := by simp [update, herases]
  refine ⟨fun id e' he' => ?_, fun key' value' id => ?_⟩
  · by_cases hid : id = e.id
    · rw [hid, hself] at he'; cases he'
    · rw [update_other hid] at he'
      exact h.keyed id e' he'
  · by_cases hk : key' = key
    · subst hk
      rw [update_self]
      constructor
      · intro hnone; cases hnone
      · rintro ⟨hne, e', he', hs'⟩
        by_cases hid : id = e.id
        · rw [hid, hself] at he'; cases he'
        · rw [update_other hid] at he'
          have hf' := (h.iff _ _ _).2 ⟨hne, e', he', hs'⟩
          rw [hf] at hf'
          cases hf'
          exact absurd rfl hid
    · rw [update_of_ne hk]
      by_cases hid : id = e.id
      · subst hid
        constructor
        · intro hf'; exact absurd (h.key_eq hf' hf) hk
        · rintro ⟨-, e', he', -⟩
          rw [hself] at he'; cases he'
      · simp [update_other hid, h.iff]

/-! ## The maps of the store -/

/-- A map as a function. -/
def KvMap.get (map : KvMap) : Bytes → Option (Bytes × Nat) := fun key => map.lookup key

theorem get_insert (map : KvMap) (key : Bytes) (it : Bytes × Nat) :
    KvMap.get (map.insert key it) = Function.update map.get key (some it) := by
  funext k
  by_cases hk : k = key
  · subst hk; rw [update_self]; exact AList.lookup_insert map
  · rw [update_of_ne hk]; exact AList.lookup_insert_ne hk

theorem get_erase (map : KvMap) (key : Bytes) : KvMap.get (map.erase key) = Function.update map.get key none := by
  funext k
  by_cases hk : k = key
  · subst hk; rw [update_self]; exact AList.lookup_erase k map
  · rw [update_of_ne hk]; exact AList.lookup_erase_ne hk

theorem mem_entries {map : KvMap} {it : Bytes × Nat} : ⟨key, it⟩ ∈ map.entries ↔ map.get key = some it := by
  exact AList.mem_lookup_iff.symm

theorem get_removePrefix (map : KvMap) (pfx key : Bytes) :
    (map.removePrefix pfx).get key = if pfx.isPrefixOf key then none else map.get key := by
  refine Option.ext fun it => ?_
  rw [← mem_entries]
  unfold KvMap.removePrefix
  rw [mem_filter, mem_entries]
  cases pfx.isPrefixOf key <;> simp

theorem replay_get {es : List LogEvent} {events : List BinlogEvent} (hrec : events.map (·.record) = es.map (·.record))
    (hkeyed : ∀ e ∈ es, ∃ key value, key ≠ [] ∧ storeKv key value = .ok e.data)
    (hdiff : es.Pairwise fun e e' => ∀ key value value', storeKv key value = .ok e.data →
      storeKv key value' ≠ .ok e'.data) (map : KvMap) :
    ∃ map', events.foldlM KvMap.handle map = .ok map' ∧ ∀ key value id, map'.get key = some (value, id) ↔
      (key ≠ [] ∧ ∃ e ∈ es, e.id = id ∧ storeKv key value = .ok e.data) ∨
      (map.get key = some (value, id) ∧ ∀ e ∈ es, ∀ value, storeKv key value ≠ .ok e.data) := by
  induction es generalizing events map with
  | nil =>
    cases events with
    | nil => exact ⟨map, rfl, by simp⟩
    | cons _ _ => cases hrec
  | cons e es ih =>
    cases events with
    | nil => cases hrec
    | cons event events =>
      obtain ⟨hev, hrec⟩ := List.cons.inj hrec
      obtain ⟨hfirst, hdiff⟩ := pairwise_cons.1 hdiff
      obtain ⟨k, v, hk, hs⟩ := hkeyed e (by simp)
      have hid : event.id = e.id := congrArg (·.1) hev
      have hdata : event.getData = e.data := congrArg (·.2.2) hev
      obtain ⟨map', hfold, hget⟩ := ih hrec (fun x hx => hkeyed x (by simp [hx])) hdiff (map.insert k (v, e.id))
      refine ⟨map', ?_, fun key value id => ?_⟩
      · rw [foldlM_cons, handle_eq hk (by rw [hdata]; exact hs), hid]
        exact hfold
      · rw [hget, get_insert]
        by_cases hkey : key = k
        · -- The key is that of the first event, and of no other.
          subst hkey
          have hno : ∀ x ∈ es, ∀ value, storeKv key value ≠ .ok x.data := fun x hx value' => hfirst x hx key v value' hs
          rw [update_self]
          constructor
          · rintro (⟨hne, x, hx, rfl, hx'⟩ | ⟨heq, -⟩)
            · exact absurd hx' (hno x hx value)
            · cases heq
              exact .inl ⟨hk, e, by simp, rfl, hs⟩
          · rintro (⟨hne, x, hx, rfl, hx'⟩ | ⟨-, hall⟩)
            · rcases mem_cons.1 hx with rfl | hx
              · exact .inr ⟨by rw [(storeKv_inj hs hx').2], hno⟩
              · exact absurd hx' (hno x hx value)
            · exact absurd hs (hall e (by simp) v)
        · have hnot : ∀ value, storeKv key value ≠ .ok e.data := fun value' h' => hkey (storeKv_inj h' hs).1
          rw [update_of_ne hkey]
          constructor
          · rintro (⟨hne, x, hx, hx'⟩ | ⟨heq, hall⟩)
            · exact .inl ⟨hne, x, by simp [hx], hx'⟩
            · refine .inr ⟨heq, fun x hx => ?_⟩
              rcases mem_cons.1 hx with rfl | hx
              · exact hnot
              · exact hall x hx
          · rintro (⟨hne, x, hx, hx'⟩ | ⟨heq, hall⟩)
            · rcases mem_cons.1 hx with rfl | hx
              · exact absurd hx'.2 (hnot value)
              · exact .inl ⟨hne, x, hx, hx'⟩
            · exact .inr ⟨heq, fun x hx => hall x (by simp [hx])⟩

/-- **Replay.** Reading the live events into an empty map gives the map they
mirror. -/
theorem Mirrors.replay {live : List LogEvent} {events : List BinlogEvent} {n : Nat} (hord : KeyLog.Ordered n live)
    (h : Mirrors f (lookup live)) (hrec : events.map (·.record) = live.map (·.record)) :
    ∃ map, events.foldlM KvMap.handle ∅ = .ok map ∧ map.get = f := by
  have hmem : ∀ e ∈ live, lookup live e.id = some e := fun e he => hord.lookup_eq_some.2 ⟨he, rfl⟩
  have hdiff : live.Pairwise fun e e' => ∀ key value value', storeKv key value = .ok e.data →
      storeKv key value' ≠ .ok e'.data := by
    refine (pairwise_map.1 hord.sorted).imp_of_mem fun {e e'} he he' hlt key value value' hs hs' => ?_
    obtain ⟨k, v, hk, hkv⟩ := h.keyed e.id e (hmem e he)
    have hne : key ≠ [] := by rw [(storeKv_inj hs hkv).1]; exact hk
    have h1 := (h.iff key value e.id).2 ⟨hne, e, hmem e he, hs⟩
    have h2 := (h.iff key value' e'.id).2 ⟨hne, e', hmem e' he', hs'⟩
    simp_all
  obtain ⟨map, hfold, hget⟩ := replay_get hrec (fun e he => h.keyed e.id e (hmem e he)) hdiff ∅
  refine ⟨map, hfold, funext fun key => Option.ext fun ⟨value, id⟩ => ?_⟩
  rw [hget, h.iff]
  constructor
  · rintro (⟨hne, e, he, rfl, hs⟩ | ⟨hempty, -⟩)
    · exact ⟨hne, e, hmem e he, hs⟩
    · cases hempty
  · rintro ⟨hne, e, he, hs⟩
    obtain ⟨he, hid⟩ := hord.lookup_eq_some.1 he
    exact .inl ⟨hne, e, he, hid, hs⟩

end Tdlib.Db
