/-
What a binlog is for: a map from ids to a type and data. Writes are records;
an erasure is a record of the type `Empty`. `init` delivers the map that the
complete events of the file it finds have written.
-/
import Tdlib.Binlog.Recovery

namespace Tdlib.Db

open KeyLog List

/-- The live events: the type and data of each id. -/
abbrev Live := Nat → Option (Int × Bytes)

def Live.none : Live := fun _ => Option.none

/-- What a record does to the live events. -/
def Live.write (m : Live) (x : Record) : Live :=
  Function.update m x.1 (if x.2.1 = ServiceTypes.empty then Option.none else some x.2)

def liveOf (xs : List Record) : Live := xs.foldl Live.write Live.none

/-- The records of exactly the live events, in the order of their ids. -/
def Represents (xs : List Record) (m : Live) : Prop :=
  (xs.map (·.1)).Pairwise (· < ·) ∧ ∀ id content, (id, content) ∈ xs ↔ m id = some content

/-- `init` succeeds on the files `d` and its callback gets the live events
`m`. -/
def Delivers (c : Crypto) (r : Entropy) (d : Disk) (dbKey oldDbKey : DbKey) (m : Live) : Prop :=
  ∃ b events, Binlog.init c r d dbKey oldDbKey = .ok (b, events) ∧ Represents (events.map (·.record)) m

/-- What the callback of `init` gets. -/
def delivered (c : Crypto) (r : Entropy) (d : Disk) (dbKey oldDbKey : DbKey) : Outcome (List Record) := do
  let opened ← Binlog.init c r d dbKey oldDbKey
  pure (opened.2.map (·.record))

variable {d : Disk}

theorem Delivers.delivered {c : Crypto} {r : Entropy} {dbKey oldDbKey : DbKey} {m : Live}
    (h : Delivers c r d dbKey oldDbKey m) : ∃ xs, delivered c r d dbKey oldDbKey = .ok xs ∧ Represents xs m := by
  obtain ⟨b, events, hinit, hrep⟩ := h
  exact ⟨_, by unfold Db.delivered; rw [hinit]; rfl, hrep⟩

theorem Represents.unique {xs : List Record} {m m' : Live} (h : Represents xs m) (h' : Represents xs m') : m = m' := by
  funext id
  refine Option.ext fun content => ?_
  rw [← h.2, ← h'.2]

theorem Delivers.unique {c : Crypto} {r : Entropy} {dbKey oldDbKey : DbKey} {m m' : Live}
    (h : Delivers c r d dbKey oldDbKey m) (h' : Delivers c r d dbKey oldDbKey m') : m = m' := by
  obtain ⟨b, events, hinit, hrep⟩ := h
  obtain ⟨b', events', hinit', hrep'⟩ := h'
  rw [hinit] at hinit'
  cases hinit'
  exact hrep.unique hrep'

/-! ## Logs -/

/-- The content of the event of an id. -/
def contents (m : Nat → Option LogEvent) : Live := fun id => (m id).map fun e => e.record.2

theorem contents_update (m : Nat → Option LogEvent) (e : LogEvent) :
    contents (update m e) = (contents m).write e.record := by
  funext id
  unfold contents update Live.write
  by_cases hid : id = e.id
  · subst hid
    by_cases ht : e.type = ServiceTypes.empty <;> simp [LogEvent.record, ht]
  · simp [LogEvent.record, hid]

theorem contents_foldl (m : Nat → Option LogEvent) (log : List LogEvent) :
    contents (log.foldl update m) = (log.map (·.record)).foldl Live.write (contents m) := by
  induction log generalizing m with
  | nil => rfl
  | cons e log ih => rw [foldl_cons, ih, contents_update, map_cons, foldl_cons]

theorem contents_liveEvents (log : List LogEvent) :
    contents (lookup (liveEvents log)) = liveOf (log.map (·.record)) := by
  rw [lookup_replay, contents_foldl]
  rfl

theorem mem_keys_of_liveOf {log : List LogEvent} {id : Nat} (h : liveOf (log.map (·.record)) id ≠ Option.none) :
    id ∈ (liveEvents log).map KeyLog.Entry.key := by
  rw [← contents_liveEvents] at h
  unfold contents at h
  cases hl : lookup (liveEvents log) id with
  | none => rw [hl] at h; exact absurd rfl h
  | some e =>
    refine mem_map.2 ⟨e, mem_of_find?_eq_some hl, ?_⟩
    simpa using List.find?_some hl

theorem Rewritten.liveOf {log log' : List LogEvent} (h : Rewritten log log') :
    liveOf (log'.map (·.record)) = Db.liveOf (log.map (·.record)) := by
  rw [← contents_liveEvents, ← contents_liveEvents, h.live]

theorem represents_liveEvents {log : List LogEvent} (h : LegalLog log) :
    Represents ((liveEvents log).map (·.record)) (liveOf (log.map (·.record))) := by
  have hord := (KeyLog.Ordered.nil 1).replay h
  refine ⟨?_, fun id content => ?_⟩
  · rw [map_map]; exact hord.sorted
  · rw [← contents_liveEvents]
    unfold contents
    rw [mem_map, Option.map_eq_some_iff]
    constructor
    · rintro ⟨e, he, hrec⟩
      simp only [LogEvent.record, Prod.mk.injEq] at hrec
      exact ⟨e, hord.lookup_eq_some.2 ⟨he, hrec.1⟩, hrec.2⟩
    · rintro ⟨e, he, hcontent⟩
      obtain ⟨he, hid⟩ := hord.lookup_eq_some.1 he
      exact ⟨e, he, by rw [← hcontent, ← hid]; rfl⟩

/-! ## Recovery -/

variable {c : Crypto} {r : Entropy} {enc : Option Encryption} {dbKey oldDbKey : DbKey} {log : List LogEvent}

theorem delivers_ends {tail : Bytes} (hpath : d.restored.path = some (sealed c enc (raws c log ++ tail)))
    (hlog : LegalLog log) (hfits : Readable log) (hends : Ends c tail) (hopens : OpenedBy c enc dbKey oldDbKey) :
    Delivers c r d dbKey oldDbKey (liveOf (log.map (·.record))) := by
  obtain ⟨b, events, -, -, hinit, -, hevents, -⟩ := Binlog.init_spec (r := r) hpath hlog hfits hends hopens
  exact ⟨b, events, hinit, by rw [hevents]; exact represents_liveEvents hlog⟩

theorem restored_of_path {file : Bytes} (h : d.path = some file) : d.restored.path = some file := by
  unfold Disk.restored
  rw [if_neg (by rw [h]; simp)]
  show some (d.path.getD []) = _
  rw [h]; rfl

theorem delivers_encode (hpath : d.restored.path = some (encode c enc log)) (hlog : LegalLog log)
    (hfits : Readable log) (hopens : OpenedBy c enc dbKey oldDbKey) :
    Delivers c r d dbKey oldDbKey (liveOf (log.map (·.record))) :=
  delivers_ends (hpath.trans (congrArg some (encode_eq c enc log))) hlog hfits (.inl (Torn.nil c)) hopens

/-- The events of an encrypted log that are complete in `n` bytes of its
file: none unless the encryption event is. -/
def completeIn (enc : Option Encryption) (log : List LogEvent) (n : Nat) : List LogEvent :=
  log.take (complete log (n - headerLength enc))

/-- **Torn logs.** Of any beginning of a log's file, `init` delivers what the
complete events in it have written. -/
theorem delivers_take {n : Nat} (hpath : d.restored.path = some ((encode c enc log).take n))
    (hlog : LegalLog log) (hfits : Readable log) (hopens : OpenedBy c enc dbKey oldDbKey) :
    Delivers c r d dbKey oldDbKey (liveOf ((completeIn enc log n).map (·.record))) := by
  rcases take_sealed c enc (raws c log) n with ⟨hn, htake⟩ | ⟨hn, htorn⟩
  · obtain ⟨tail, htail, htorn⟩ := take_raws c hfits (n - headerLength enc)
    rw [htail] at htake
    exact delivers_ends (hpath.trans (congrArg some htake)) (hlog.take _) (hfits.take _) (.inl htorn) hopens
  · -- The encryption event is torn: the log is empty.
    have hnone : completeIn enc log n = [] := by
      unfold completeIn
      cases log with
      | nil => rfl
      | cons e log =>
        have := e.size_ge
        rw [complete, if_neg (by omega), take_zero]
    rw [hnone]
    exact delivers_ends (show _ = some (sealed c none (raws c [] ++ _)) from hpath) trivial (by simp [Readable])
      (.inl htorn)
      (.none c _ _)

end Tdlib.Db
