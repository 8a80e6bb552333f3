/-
What clients do under the lock: each call changes the map and posts the
events that make the log mirror the new map.
-/
import Tdlib.KeyValue.MapFacts

namespace Tdlib.Db

open KeyLog Outcome KeyValue List

variable {c : Crypto} {f f' : Bytes → Option (Bytes × Nat)} {live es : List LogEvent} {first : Nat} {e : LogEvent}
  {key value : Bytes}

theorem createRaw_event {id flags : Nat} {type : Int} {data raw : Bytes} (hid : id < 2 ^ 63) (htype : 0 ≤ type)
    (hlt : type < 2 ^ 31) (hflags : flags < 2) (haligned : data.length % 4 = 0)
    (h : BinlogEvent.createRaw c id type flags data = .ok raw) :
    ∃ e : LogEvent, e.id = id ∧ e.type = type ∧ e.flags = flags ∧ e.data = data ∧ raw = e.raw c := by
  have hsmall : data.length + minSize < 2 ^ 31 := by
    obtain ⟨u, hu, -⟩ := bind_ok_iff.1 h
    exact check_ok_iff.1 hu
  let e : LogEvent := ⟨id, type, flags, 0, data, by omega, by omega, hlt, by omega, LogEvent.zero_lt, haligned, hsmall⟩
  have hraw := createRaw_eq c e rfl
  rw [show BinlogEvent.createRaw c e.id e.type e.flags e.data = .ok raw from h] at hraw
  cases hraw
  exact ⟨e, rfl, rfl, rfl, rfl, rfl⟩

theorem eraseRaw_eq {id : Nat} (hid : id < 2 ^ 63) : eraseRaw c id = .ok ((erasure id hid).raw c) :=
  createRaw_eq c (erasure id hid) rfl

/-! ## The log that was posted -/

/-- The events `es` were posted, with the numbers from `first` on, over the
live events `live`; now the map is `f`. -/
structure Posted (live es : List LogEvent) (first : Nat) (f : Bytes → Option (Bytes × Nat)) : Prop where
  ordered : KeyLog.Ordered first live
  positive : ∀ e ∈ live, 1 ≤ e.id
  first_pos : 1 ≤ first
  legal : KeyLog.Legal LogEvent.Ok live first es
  bound : KeyLog.bound first es ≤ first + es.length
  mirrors : Mirrors f (lookup (replay live es))

namespace Posted

section

variable (h : Posted live es first f)

include h

theorem ordered_now : KeyLog.Ordered (KeyLog.bound first es) (replay live es) := h.ordered.replay h.legal

theorem id_pos {x : LogEvent} (hx : x ∈ replay live es) : 1 ≤ x.id := by
  rcases mem_replay hx with hx | ⟨hx, -⟩
  · exact h.positive x hx
  · exact KeyLog.Legal.le_key h.legal h.first_pos h.positive x hx

theorem mem_live {id : Nat} (hf : f key = some (value, id)) :
    id ∈ (replay live es).map KeyLog.Entry.key ∧ 1 ≤ id ∧ id < KeyLog.bound first es := by
  obtain ⟨-, e, he, -⟩ := (h.mirrors.iff _ _ _).1 hf
  obtain ⟨hmem, rfl⟩ := h.ordered_now.lookup_eq_some.1 he
  exact ⟨mem_map_of_mem hmem, h.id_pos hmem, h.ordered_now.below e hmem⟩

theorem issue (he : KeyLog.Follows LogEvent.Ok (replay live es) (KeyLog.bound first es) e)
    (hid : e.id ≤ first + es.length) (hm : Mirrors f' (update (lookup (replay live es)) e)) :
    Posted live (es ++ [e]) first f' := by
  have hbound := h.bound
  refine ⟨h.ordered, h.positive, h.first_pos, KeyLog.legal_append.2 ⟨h.legal, he, trivial⟩, ?_, ?_⟩
  · rw [bound_append, length_append]
    show max (KeyLog.bound first es) (e.id + 1) ≤ first + (es.length + 1)
    omega
  · rw [replay_append, replay_cons, replay_nil, lookup_put]
    exact hm

theorem add (hf : f key = none) (hkey : key ≠ [])
    (hdata : storeKv key value = .ok e.data) (hok : e.Ok false) (hid : e.id = first + es.length) :
    Posted live (es ++ [e]) first (Function.update f key (some (value, e.id))) := by
  have herases := erases_eq_false (show 0 ≤ e.type from hok.2.2)
  have hbound := h.bound
  have hnone : lookup (replay live es) e.id = none := by
    cases hl : lookup (replay live es) e.id with
    | none => rfl
    | some x =>
      obtain ⟨hx, hxid⟩ := h.ordered_now.lookup_eq_some.1 hl
      have := h.ordered_now.below x hx
      omega
  refine h.issue (.inl ⟨?_, herases, hok⟩) (Nat.le_of_eq hid) (h.mirrors.write hkey hdata herases (.inl ⟨hf, hnone⟩))
  show KeyLog.bound first es ≤ e.id
  omega

theorem rewrite {old : Bytes} (hf : f key = some (old, e.id)) (hkey : key ≠ [])
    (hdata : storeKv key value = .ok e.data) (hok : e.Ok true) (htype : 0 ≤ e.type) :
    Posted live (es ++ [e]) first (Function.update f key (some (value, e.id))) := by
  obtain ⟨hmem, -, hlt⟩ := h.mem_live hf
  have hbound := h.bound
  exact h.issue (.inr ⟨hmem, hok⟩) (by omega) (h.mirrors.write hkey hdata (erases_eq_false htype) (.inr ⟨old, hf⟩))

theorem erase {id : Nat} (hf : f key = some (value, id)) (hid : id < 2 ^ 63) :
    Posted live (es ++ [erasure id hid]) first (Function.update f key none) := by
  obtain ⟨hmem, -, hlt⟩ := h.mem_live hf
  have hbound := h.bound
  exact h.issue (.inr ⟨hmem, erasure_ok hid⟩) (show id ≤ _ by omega)
    (h.mirrors.erase (e := erasure id hid) hf (by simp [erasure]))

end

end Posted

/-! ## Erasing many keys -/

/-- The events that erase the ids. -/
def Erasures (ids : List Nat) (es : List LogEvent) : Prop :=
  List.Forall₂ (fun id e => ∃ hid : id < 2 ^ 63, e = erasure id hid) ids es

section

variable {ids : List Nat} (h : Erasures ids es)

include h

theorem Erasures.raws : ids.mapM (eraseRaw c) = .ok (es.map (·.raw c)) := by
  induction h with
  | nil => rfl
  | cons h _ ih =>
    obtain ⟨hid, rfl⟩ := h
    rw [mapM_cons, eraseRaw_eq hid, ok_bind, ih]
    rfl

theorem Erasures.getElem? {i id : Nat} (hi : ids[i]? = some id) :
    ∃ e, es[i]? = some e ∧ eraseRaw c id = .ok (e.raw c) := by
  induction h generalizing i with
  | nil => simp at hi
  | cons h _ ih =>
    cases i with
    | zero =>
      obtain ⟨hid, rfl⟩ := h
      cases hi
      exact ⟨_, rfl, eraseRaw_eq hid⟩
    | succ i => exact ih hi

theorem Erasures.data_nil : ∀ e ∈ es, e.data = [] := by
  induction h with
  | nil => simp
  | cons h _ ih =>
    obtain ⟨hid, rfl⟩ := h
    intro e he
    rcases mem_cons.1 he with rfl | he
    · rfl
    · exact ih e he

end

variable {map : KvMap} {order : List (Sigma fun _ : Bytes => Bytes × Nat)}

theorem Posted.collect (keys : List Bytes) (h : Posted live es first map.get)
    (hlast : first + es.length ≤ 2 ^ 63) : ∃ es', Erasures (collect keys map).1 es' ∧
      Posted live (es ++ es') first (collect keys map).2.get := by
  have hbound : KeyLog.bound first es ≤ 2 ^ 63 := Nat.le_trans h.bound hlast
  clear hlast
  induction keys generalizing map es with
  | nil => exact ⟨[], .nil, by rw [append_nil]; exact h⟩
  | cons key keys ih =>
    unfold collect
    cases hf : map.lookup key with
    | none => exact ih h hbound
    | some it =>
      have hget : map.get key = some (it.1, it.2) := hf
      obtain ⟨-, -, hlt⟩ := h.mem_live hget
      have hid : it.2 < 2 ^ 63 := by omega
      have h1 := h.erase hget hid
      rw [← get_erase] at h1
      have hbound1 : KeyLog.bound first (es ++ [erasure it.2 hid]) ≤ 2 ^ 63 := by
        rw [bound_append]
        show max (KeyLog.bound first es) (it.2 + 1) ≤ _
        omega
      obtain ⟨es', hes', h2⟩ := ih h1 hbound1
      rw [append_assoc] at h2
      exact ⟨_, .cons ⟨hid, rfl⟩ hes', h2⟩

/-- Erasing the keys of some entries, one after the other. -/
theorem collect_entries (hnodup : (order.map (·.1)).Nodup) (hmem : ∀ x ∈ order, map.get x.1 = some x.2) :
    (collect (order.map (·.1)) map).1 = order.map (·.2.2) ∧
      ∀ key, (collect (order.map (·.1)) map).2.get key =
        if key ∈ order.map (·.1) then none else map.get key := by
  induction order generalizing map with
  | nil => exact ⟨rfl, fun key => by simp [collect]⟩
  | cons x order ih =>
    obtain ⟨hx, hnodup⟩ := nodup_cons.1 hnodup
    have hget : map.lookup x.1 = some x.2 := hmem x (by simp)
    have hmem' : ∀ y ∈ order, (KvMap.get (map.erase x.1)) y.1 = some y.2 := by
      intro y hy
      have hne : y.1 ≠ x.1 := fun heq => hx (mem_map.2 ⟨y, hy, heq⟩)
      simp [get_erase, Function.update_of_ne hne, hy, hmem]
    obtain ⟨hids, hgets⟩ := ih hnodup hmem'
    rw [map_cons]
    unfold collect
    rw [hget]
    refine ⟨by rw [hids]; rfl, fun key => ?_⟩
    rw [hgets, get_erase]
    by_cases hk : key = x.1
    · subst hk; simp
    · rw [Function.update_of_ne hk]
      simp only [mem_cons, hk, false_or]

theorem withPrefix_get {pfx : Bytes}
    (horder : order.Perm (withPrefix map pfx)) :
    (order.map (·.1)).Nodup ∧ (∀ x ∈ order, map.get x.1 = some x.2) ∧
      ∀ key, (if key ∈ order.map (·.1) then none else map.get key) = (map.removePrefix pfx).get key := by
  have hmem : ∀ x, x ∈ order ↔ map.get x.1 = some x.2 ∧ pfx.isPrefixOf x.1 = true := by
    intro x
    rw [horder.mem_iff]
    unfold withPrefix
    rw [mem_filter, mem_entries]
  refine ⟨?_, fun x hx => ((hmem x).1 hx).1, fun key => ?_⟩
  · refine (horder.map (·.1)).nodup_iff.2 ?_
    exact List.Nodup.sublist (filter_sublist.map _) map.nodupKeys
  · rw [get_removePrefix]
    cases hget : map.get key with
    | none => split <;> split <;> rfl
    | some it =>
      have hiff : key ∈ order.map (·.1) ↔ pfx.isPrefixOf key = true := by
        rw [mem_map]
        constructor
        · rintro ⟨x, hx, rfl⟩; exact ((hmem x).1 hx).2
        · intro hp; exact ⟨⟨key, it⟩, (hmem _).2 ⟨hget, hp⟩, rfl⟩
      by_cases hp : pfx.isPrefixOf key = true
      · rw [if_pos (hiff.2 hp), if_pos hp]
      · rw [if_neg fun h => hp (hiff.1 h), if_neg hp]

/-! ## Calls -/

/-- The messages that post the events `es` with the numbers from `n` on: one
for each event, or one that makes them all erase. -/
def Posts (c : Crypto) (n : Nat) (es : List LogEvent) (messages : List Message) : Prop :=
  messages = ((List.range' n es.length).zip (es.map (·.raw c))).map (fun x => .addRawEvent x.1 x.2) ∨
    ∃ ids, messages = [.eraseBatch n ids] ∧ Erasures ids es

/-- What a call does: it posts the events `es'`, which make the log mirror the
new map. -/
structure Issues (c : Crypto) (live es : List LogEvent) (first : Nat) (call : KeyValue.Call) (kv kv' : KeyValue)
    (es' : List LogEvent) (messages : List Message) : Prop where
  eq : kv' = kv.post kv'.map (es'.map (·.raw c)) messages
  posts : Posts c kv.lastEventId es' messages
  posted : Posted live (es ++ es') first kv'.map.get
  count : es'.length < 2 ^ 31
  fits : call.Fits → ∀ e ∈ es', e.Fits

variable {kv kv' : KeyValue} {call : KeyValue.Call}

theorem Issues.nothing (h : Posted live es first kv.map.get) (hle : kv.lastEventId ≤ 2 ^ 63) :
    Issues c live es first call kv kv [] [] := by
  refine ⟨?_, .inl rfl, by rw [append_nil]; exact h, by decide, by simp⟩
  have hmod : (kv.lastEventId + 0) % 2 ^ 64 = kv.lastEventId := Nat.mod_eq_of_lt (by omega)
  simp only [post, map_nil, length_nil, hmod, append_nil, List.range'_zero, zip_nil_left]

theorem Issues.one (hpost : Posted live (es ++ [e]) first map.get) (hfits : call.Fits → e.Fits) :
    Issues c live es first call kv (kv.post map [e.raw c] [.addRawEvent kv.lastEventId (e.raw c)]) [e]
      [.addRawEvent kv.lastEventId (e.raw c)] :=
  ⟨rfl, .inl rfl, hpost, by simp, fun h x hx => by rw [mem_singleton.1 hx]; exact hfits h⟩

theorem fits_of_data_nil (h : e.data = []) : e.Fits := by
  unfold LogEvent.Fits LogEvent.size
  rw [h]; decide

theorem post_le {raws : List Bytes} {messages : List Message} (hle : kv.lastEventId ≤ 2 ^ 63)
    (hlen : raws.length < 2 ^ 31) (h : (kv.post map raws messages).lastEventId ≤ 2 ^ 63) :
    kv.lastEventId + raws.length ≤ 2 ^ 63 := by
  have heq : (kv.lastEventId + raws.length) % 2 ^ 64 = kv.lastEventId + raws.length := Nat.mod_eq_of_lt (by omega)
  rw [← heq]
  exact h

theorem set_issues (hrun : kv.set c key value = .ok kv') (h : Posted live es first kv.map.get)
    (hlast : kv.lastEventId = first + es.length) (hle : kv.lastEventId ≤ 2 ^ 63) (hle' : kv'.lastEventId ≤ 2 ^ 63) :
    ∃ es' messages, Issues c live es first (.set key value) kv kv' es' messages := by
  obtain ⟨u, hu, hrun⟩ := bind_ok_iff.1 hrun
  have hkey : key ≠ [] := check_ok_iff.1 hu
  have hmagic := kv.magic.2
  cases hf : kv.map.lookup key with
  | none =>
    rw [hf] at hrun
    simp only [Option.getD_none, ne_eq, not_true_eq_false, false_and, if_false] at hrun
    obtain ⟨data, hdata, hrun⟩ := bind_ok_iff.1 hrun
    obtain ⟨raw, hraw, hrun⟩ := bind_ok_iff.1 hrun
    cases hrun
    have hlt : kv.lastEventId + 1 ≤ 2 ^ 63 := post_le hle (by simp) hle'
    obtain ⟨e, hid, htype, hflags, hed, rfl⟩ :=
      createRaw_event (by omega) hmagic.1 hmagic.2 (by decide) (storeKv_aligned hdata) hraw
    have hok : e.Ok false :=
      ⟨by rw [hflags]; decide, by rw [hid]; omega, show 0 ≤ e.type by rw [htype]; exact hmagic.1⟩
    have hp := h.add hf hkey (by rw [hed]; exact hdata) hok (hid.trans hlast)
    rw [← get_insert, hid] at hp
    exact ⟨[e], _, .one hp fun hfits => by
      have := hfits data hdata
      unfold LogEvent.Fits LogEvent.size
      rwa [hed]⟩
  | some it =>
    have hget : kv.map.get key = some (it.1, it.2) := hf
    obtain ⟨-, hpos, hlt⟩ := h.mem_live hget
    have hbound := h.bound
    have hne : it.2 ≠ 0 := by omega
    rw [hf] at hrun
    simp only [Option.getD_some, ne_eq, hne, not_false_eq_true, true_and, if_true] at hrun
    split at hrun
    next => cases hrun; exact ⟨[], [], .nothing h hle⟩
    next =>
      obtain ⟨data, hdata, hrun⟩ := bind_ok_iff.1 hrun
      obtain ⟨raw, hraw, hrun⟩ := bind_ok_iff.1 hrun
      cases hrun
      obtain ⟨e, hid, htype, hflags, hed, rfl⟩ :=
        createRaw_event (by omega) hmagic.1 hmagic.2 (by decide) (storeKv_aligned hdata) hraw
      have hty : 0 ≤ e.type := by rw [htype]; exact hmagic.1
      have hok : e.Ok true :=
        ⟨by rw [hflags]; decide, by rw [hid]; omega, by rw [hflags]; exact ⟨by decide, .inl hty⟩⟩
      rw [← hid] at hget
      have hp := h.rewrite hget hkey (by rw [hed]; exact hdata) hok hty
      rw [← get_insert, hid] at hp
      exact ⟨[e], _, .one hp fun hfits => by
        have := hfits data hdata
        unfold LogEvent.Fits LogEvent.size
        rwa [hed]⟩

theorem erase_issues (hrun : kv.erase c key = .ok kv') (h : Posted live es first kv.map.get)
    (hlast : kv.lastEventId = first + es.length) (hle : kv.lastEventId ≤ 2 ^ 63) :
    ∃ es' messages, Issues c live es first (.erase key) kv kv' es' messages := by
  unfold erase at hrun
  cases hf : kv.map.lookup key with
  | none =>
    rw [hf] at hrun
    cases hrun
    exact ⟨[], [], .nothing h hle⟩
  | some it =>
    have hget : kv.map.get key = some (it.1, it.2) := hf
    obtain ⟨-, -, hlt⟩ := h.mem_live hget
    have hbound := h.bound
    have hid : it.2 < 2 ^ 63 := by omega
    have hp := h.erase hget hid
    rw [← get_erase] at hp
    rw [hf] at hrun
    dsimp only at hrun
    cases hrun
    exact ⟨[erasure it.2 hid], _, .one hp fun _ => fits_of_data_nil rfl⟩

theorem eraseBatch_issues {keys : List Bytes} (hrun : kv.eraseBatch c keys = .ok kv')
    (h : Posted live es first kv.map.get) (hlast : kv.lastEventId = first + es.length) (hle : kv.lastEventId ≤ 2 ^ 63) :
    ∃ es' messages, Issues c live es first (.eraseBatch keys) kv kv' es' messages := by
  obtain ⟨es', hes', hp⟩ := h.collect keys (by omega)
  unfold eraseBatch at hrun
  dsimp only at hrun
  split at hrun
  next => cases hrun; exact ⟨[], [], .nothing h hle⟩
  next =>
    obtain ⟨u, hu, hrun⟩ := bind_ok_iff.1 hrun
    rw [hes'.raws, ok_bind] at hrun
    cases hrun
    exact ⟨es', _, rfl, .inr ⟨_, rfl, hes'⟩, hp, hes'.length_eq ▸ check_ok_iff.1 hu,
      fun _ e he => fits_of_data_nil (hes'.data_nil e he)⟩

theorem eraseByPrefix_issues {pfx : Bytes}
    (hrun : kv.eraseByPrefix c pfx order = .ok kv') (horder : order.Perm (withPrefix kv.map pfx))
    (h : Posted live es first kv.map.get) (hlast : kv.lastEventId = first + es.length) (hle : kv.lastEventId ≤ 2 ^ 63) :
    ∃ es' messages, Issues c live es first (.eraseByPrefix pfx order) kv kv' es' messages := by
  obtain ⟨hnodup, hmem, hget⟩ := withPrefix_get horder
  obtain ⟨hids, hcollect⟩ := collect_entries hnodup hmem
  obtain ⟨es', hes', hp⟩ := h.collect (order.map (·.1)) (by omega)
  rw [hids] at hes'
  have hraws := hes'.raws (c := c)
  rw [mapM_map] at hraws
  rw [show (collect (order.map (·.1)) kv.map).2.get = (kv.map.removePrefix pfx).get from
    funext fun key => (hcollect key).trans (hget key)] at hp
  obtain ⟨u, hu, hrun⟩ := bind_ok_iff.1 hrun
  obtain ⟨raws, hmapM, hrun⟩ := bind_ok_iff.1 hrun
  have heq : raws = es'.map (·.raw c) := ok.inj (hmapM.symm.trans hraws)
  subst heq
  cases hrun
  have hlen := hes'.length_eq
  rw [length_map] at hlen
  refine ⟨es', _, rfl, .inl ?_, hp, hlen ▸ check_ok_iff.1 hu,
    fun _ e he => fits_of_data_nil (hes'.data_nil e he)⟩
  rw [length_map]

/-- **A call** posts events that make the log mirror the new map. -/
theorem call_issues (hpossible : call.Possible kv) (hrun : call.run c kv = .ok kv')
    (h : Posted live es first kv.map.get) (hlast : kv.lastEventId = first + es.length)
    (hle : kv.lastEventId ≤ 2 ^ 63) (hle' : kv'.lastEventId ≤ 2 ^ 63) :
    ∃ es' messages, Issues c live es first call kv kv' es' messages := by
  cases call with
  | set key value => exact set_issues hrun h hlast hle hle'
  | erase key => exact erase_issues hrun h hlast hle
  | eraseBatch keys => exact eraseBatch_issues hrun h hlast hle
  | eraseByPrefix pfx order => exact eraseByPrefix_issues hrun hpossible h hlast hle

end Tdlib.Db
