/-
Clients, messages and the actor together: in every state that clients can
reach, whatever the order of messages, what is posted can be delivered; and
once it is, the binlog has all events in order and replays to the map.
-/
import Tdlib.KeyValue.Actor
import Tdlib.Binlog.History

namespace Tdlib.Db.KeyValue

open Crypto (keyless)
open List hiding lookup
open Outcome KeyLog OrderedEventsProcessor

variable {c : Crypto} {dbKey : DbKey} {magic : Magic} {log es : List LogEvent} {first k : Nat} {kv kv' : KeyValue}

/-- The events `es` were posted over the log `log`, the binlog has taken the
first `k` of them, and the messages have those the processor waits for. -/
structure Inv (c : Crypto) (dbKey : DbKey) (log es : List LogEvent) (first k : Nat) (kv : KeyValue) : Prop where
  posted : Posted (liveEvents log) es first kv.map.get
  last : kv.lastEventId = first + es.length
  last_le : kv.lastEventId ≤ 2 ^ 63
  numbers : kv.posted = (List.range' first es.length).zip (es.map (·.raw c))
  actor : ActorInv c dbKey log es first k kv.actor
  awaits : Awaits kv.actor.processor (first + es.length) (kv.messages.flatMap Message.seqNos)
  carries : ∀ m ∈ kv.messages, m.Carries c (rawOf c first es)

section

variable (h : Inv c dbKey log es first k kv)

include h

theorem Inv.raws : kv.posted.map (·.2) = es.map (·.raw c) := by
  rw [h.numbers, map_snd_zip (by simp)]

/-! ## Messages -/

theorem Inv.receive (r : Nat → Entropy) {l l' : List Message} {m : Message}
    (hm : kv.messages = l ++ m :: l') :
    ∃ actor k', kv.actor.receive c r m = .ok actor ∧
      Inv c dbKey log es first k' { kv with messages := l ++ l', actor } := by
  have hperm : (kv.messages.flatMap Message.seqNos).Perm (m.seqNos ++ (l ++ l').flatMap Message.seqNos) := by
    rw [hm, ← flatMap_cons]
    exact List.Perm.flatMap_right _ perm_middle
  obtain ⟨actor, k', hok, hactor, hawaits⟩ := h.actor.receive (r := r) h.posted.legal
    (h.carries m (by rw [hm]; simp)) (h.awaits.perm hperm)
  refine ⟨actor, k', hok, h.posted, h.last, h.last_le, h.numbers, hactor, hawaits, fun m' hm' => ?_⟩
  refine h.carries m' ?_
  rw [hm, mem_append, mem_cons]
  rcases mem_append.1 hm' with h | h
  · exact .inl h
  · exact .inr (.inr h)

theorem Inv.deliver (r : Nat → Entropy) {order : List Message}
    (horder : order.Perm kv.messages) :
    ∃ actor k', kv.deliver c r order = .ok { kv with messages := [], actor } ∧
      Inv c dbKey log es first k' { kv with messages := [], actor } := by
  induction order generalizing kv k with
  | nil =>
    refine ⟨kv.actor, k, rfl, ?_⟩
    rw [← nil_perm.1 horder]
    exact h
  | cons m order ih =>
    obtain ⟨l, l', hm⟩ := append_of_mem (horder.mem_iff.1 (mem_cons_self ..))
    obtain ⟨actor, k1, hok, h1⟩ := h.receive r hm
    have hrest : order.Perm (l ++ l') := by
      rw [hm] at horder
      exact (perm_cons m).1 (horder.trans perm_middle)
    obtain ⟨actor', k2, hdeliver, h2⟩ := ih h1 hrest
    refine ⟨actor', k2, ?_, h2⟩
    unfold KeyValue.deliver
    rw [foldlM_cons, hok, ok_bind]
    exact hdeliver

theorem Inv.flush :
    Inv c dbKey log es first k { kv with actor := { kv.actor with binlog := kv.actor.binlog.flush c } } := by
  obtain ⟨enc, fl, bu, hrun, hrew⟩ := h.actor.fed.running
  obtain ⟨hflush, hrest⟩ := hrun.flush
  refine ⟨h.posted, h.last, h.last_le, h.numbers, ⟨h.actor.valid, h.actor.beginSeqNo, h.actor.k_le, ?_⟩,
    h.awaits, h.carries⟩
  refine ⟨⟨enc, fl ++ bu, [], hflush, by rw [append_nil]; exact hrew⟩, ?_, hrest.dbKey.trans h.actor.fed.dbKey,
    h.actor.fed.added⟩
  simp [hrest.processor, h.actor.fed.next]

end

/-! ## Calls -/

theorem carries_append {m : Message} (es' : List LogEvent) (h : m.Carries c (rawOf c first es))
    (hm : ∀ n ∈ m.seqNos, first ≤ n ∧ n < first + es.length) : m.Carries c (rawOf c first (es ++ es')) := by
  cases m with
  | addRawEvent seqNo rawEvent =>
    obtain ⟨hle, hlt⟩ := hm seqNo (by simp [Message.seqNos])
    show rawEvent = _
    rw [rawOf_append es' hlt hle]
    exact h
  | eraseBatch seqNo eventIds =>
    intro i eventId hi
    have hlen := (List.getElem?_eq_some_iff.1 hi).1
    obtain ⟨hle, hlt⟩ := hm (seqNo + i) (by
      show _ ∈ List.range' seqNo eventIds.length
      rw [mem_range'_1]; omega)
    rw [rawOf_append es' hlt hle]
    exact h i eventId hi

theorem actor_append (es' : List LogEvent) {a : BinlogActor} (h : ActorInv c dbKey log es first k a)
    (hknown : ∀ n, a.processor.waiting n ≠ none → n < first + es.length) :
    ActorInv c dbKey log (es ++ es') first k a := by
  have hle := h.k_le
  have htake : (es ++ es').take k = es.take k := take_append_of_le_length hle
  have hfed := h.fed
  refine ⟨⟨⟨h.valid.offset_le, h.valid.covered, fun n data hn => ?_⟩, h.valid.begin_le, h.valid.next⟩, h.beginSeqNo,
    by rw [length_append]; omega, ?_⟩
  · obtain ⟨hbegin, hend, hdata⟩ := h.valid.waits n data hn
    refine ⟨hbegin, hend, ?_⟩
    rw [h.beginSeqNo] at hbegin
    rw [rawOf_append es' (hknown n (by rw [hn]; simp)) (by omega)]
    exact hdata
  · exact ⟨by rw [htake]; exact hfed.running, by rw [htake]; exact hfed.next, hfed.dbKey,
      by rw [htake]; exact hfed.added⟩

variable {n : Nat} {es' : List LogEvent} {messages : List Message} {r : Entropy} {disk : Disk}
variable {enc : Option Encryption}

theorem Posts.seqNos (h : Posts c n es' messages) : messages.flatMap Message.seqNos = List.range' n es'.length := by
  rcases h with rfl | ⟨ids, rfl, hids⟩
  · rw [flatMap_map]
    show ((List.range' n es'.length).zip _).flatMap (fun x => [x.1]) = _
    rw [← map_eq_flatMap, map_fst_zip (by simp)]
  · simp [Message.seqNos, hids.length_eq]

theorem Posts.carries
    (h : Posts c (first + es.length) es' messages) : ∀ m ∈ messages, m.Carries c (rawOf c first (es ++ es')) := by
  have hraw : ∀ i e, es'[i]? = some e → rawOf c first (es ++ es') (first + es.length + i) = e.raw c := fun i e hi => by
    rw [Nat.add_assoc]
    refine rawOf_eq ?_
    rw [List.getElem?_append_right (by omega), Nat.add_sub_cancel_left, hi]
  rcases h with rfl | ⟨ids, rfl, hids⟩
  · intro m hm
    obtain ⟨⟨n, raw⟩, hx, rfl⟩ := mem_map.1 hm
    obtain ⟨i, hi⟩ := mem_iff_getElem?.1 hx
    rw [List.getElem?_zip_eq_some] at hi
    obtain ⟨hn, hraw'⟩ := hi
    rw [List.getElem?_map, Option.map_eq_some_iff] at hraw'
    obtain ⟨e, he, rfl⟩ := hraw'
    obtain ⟨hlt, rfl⟩ := List.getElem?_eq_some_iff.1 hn
    rw [getElem_range', Nat.one_mul]
    exact (hraw i e he).symm
  · intro m hm
    rw [mem_singleton.1 hm]
    intro i eventId hi
    obtain ⟨e, he, hok⟩ := hids.getElem? (c := c) hi
    rw [hraw i e he]
    exact hok

theorem zip_append (es' : List LogEvent) : (List.range' first es.length).zip (es.map (·.raw c)) ++
        (List.range' (first + es.length) es'.length).zip (es'.map (·.raw c)) =
      (List.range' first (es ++ es').length).zip ((es ++ es').map (·.raw c)) := by
  rw [← List.zip_append (by simp), length_append, map_append, List.range'_append_1]

/-- **A call.** -/
theorem Inv.call {call : Call} (h : Inv c dbKey log es first k kv) (hpossible : call.Possible kv)
    (hrun : call.run c kv = .ok kv') (hle : kv'.lastEventId ≤ 2 ^ 63) :
    ∃ es', Inv c dbKey log (es ++ es') first k kv' ∧ (call.Fits → ∀ e ∈ es', e.Fits) := by
  obtain ⟨es', messages, hi⟩ := call_issues hpossible hrun h.posted h.last h.last_le hle
  have hposts := hi.posts
  rw [h.last] at hposts
  have heq := hi.eq
  have hlast : kv'.lastEventId = first + (es ++ es').length := by
    have := hi.count
    have := h.last_le
    rw [heq]
    show (kv.lastEventId + (es'.map _).length) % 2 ^ 64 = _
    rw [length_map, Nat.mod_eq_of_lt (by omega), h.last, length_append]
    omega
  have hmessages : kv'.messages = kv.messages ++ messages := by rw [heq]; rfl
  have hactor : kv'.actor = kv.actor := by rw [heq]; rfl
  have hbegin := h.actor.beginSeqNo
  have hold : ∀ n ∈ kv.messages.flatMap Message.seqNos, first ≤ n ∧ n < first + es.length := fun n hn => by
    obtain ⟨h1, h2, -⟩ := h.awaits.coming n hn
    omega
  refine ⟨es', ⟨hi.posted, hlast, hle, ?_, ?_, ?_, fun m hm => ?_⟩, hi.fits⟩
  · rw [heq]
    show kv.posted ++ (List.range' kv.lastEventId (es'.map _).length).zip _ = _
    rw [h.numbers, h.last, length_map, zip_append]
  · rw [hactor]
    exact actor_append es' h.actor h.awaits.known
  · rw [hactor, hmessages, flatMap_append, Posts.seqNos hposts]
    have hk := h.actor.k_le
    refine ⟨nodup_append.2 ⟨h.awaits.nodup, nodup_range', fun a ha b hb heq => ?_⟩, fun n hn => ?_,
      fun n hn => ?_, fun n hle hlt => ?_⟩
    · have := hold a ha
      rw [mem_range'_1] at hb
      omega
    · rw [length_append]
      rcases mem_append.1 hn with hn | hn
      · obtain ⟨h1, h2, h3⟩ := h.awaits.coming n hn
        exact ⟨h1, by omega, h3⟩
      · rw [mem_range'_1] at hn
        refine ⟨by omega, by omega, ?_⟩
        by_contra hw
        have := h.awaits.known n hw
        omega
    · have := h.awaits.known n hn
      rw [length_append]
      omega
    · rw [length_append] at hlt
      rw [mem_append, mem_range'_1]
      by_cases hnew : n < first + es.length
      · exact (h.awaits.total n hle hnew).imp_right .inl
      · exact .inr (.inr (by omega))
  · rw [hmessages] at hm
    rcases mem_append.1 hm with hm | hm
    · exact carries_append es' (h.carries m hm) fun n hn => hold n (mem_flatMap.2 ⟨m, hm, hn⟩)
    · exact Posts.carries hposts m hm

/-! ## Opening -/

/-- Opening the file of a log that mirrors a map gives the map. -/
theorem init_inv (magic : Magic) {f : Bytes → Option (Bytes × Nat)}
    (hpath : disk.restored.path = some (encode c enc log)) (hlog : LegalLog log) (hfits : Readable log)
    (hopens : OpenedBy c enc dbKey .empty) (hbound : bound 1 log ≤ 2 ^ 63) (hf : Mirrors f (lookup (liveEvents log))) :
    ∃ kv log', init c r disk dbKey magic = .ok kv ∧ kv.map.get = f ∧ kv.lastEventId = bound 1 log ∧
      Inv c dbKey log' [] kv.lastEventId 0 kv ∧ ∀ e ∈ log', e ∈ log := by
  obtain ⟨b, events, enc', log', hinit, hrun, hevents, hrew, hkey, hlast, hproc⟩ := Binlog.init_spec (r := r)
    (hpath.trans (congrArg some (encode_eq c enc log))) hlog hfits (.inl (Torn.nil c)) hopens
  have hord := (KeyLog.Ordered.nil 1).replay hlog
  obtain ⟨map, hreplay, hget⟩ := hf.replay hord hevents
  have hmod : (b.lastEventId + 1) % 2 ^ 64 = b.lastEventId + 1 := Nat.mod_eq_of_lt (by omega)
  have hlegal : LegalLog log' := by have := hrun.log.legal; rwa [append_nil] at this
  have hord' : KeyLog.Ordered (b.lastEventId + 1) (liveEvents log') := by
    rw [hrew.live, hlast]; exact hord
  refine ⟨{ map, magic, lastEventId := b.lastEventId + 1
            actor := { binlog := b, processor := .new (b.lastEventId + 1) } },
    log', ?_, hget, hlast, ⟨⟨hord', ?_, Nat.le_add_left 1 _, trivial, Nat.le_refl _, ?_⟩, rfl, ?_, rfl, ?_, ?_,
      by simp⟩,
    hrew.mem⟩
  · unfold init
    rw [hinit, ok_bind]
    rw [hreplay, ok_bind, hmod]
    rfl
  · intro e he
    rcases mem_replay he with he | ⟨he, -⟩
    · cases he
    · exact KeyLog.Legal.le_key hlegal (Nat.le_refl _) (by simp) e he
  · simp [hget, hrew.live, hf]
  · show b.lastEventId + 1 ≤ 2 ^ 63
    omega
  · refine ⟨valid_new _ _, rfl, Nat.le_refl _, ⟨⟨enc', log', [], hrun, ?_⟩, ?_, hkey, rfl⟩⟩
    · simp only [take_nil, append_nil]
      exact .refl log'
    · show b.processor.lastEventId + 1 = b.lastEventId + 1
      omega
  · have hnone : ∀ n,
        (new (b.lastEventId + 1) : OrderedEventsProcessor Bytes).waiting n = none :=
      fun n => by unfold waiting new; split <;> simp
    refine ⟨.nil, by simp, fun n hn => absurd (hnone n) hn, fun n hle hlt => ?_⟩
    have h1 : b.lastEventId + 1 ≤ n := hle
    have h2 : n < b.lastEventId + 1 + 0 := hlt
    omega

section

variable (h : Inv c dbKey log es first k kv)

include h

/-- With all messages delivered, the binlog has taken all events. -/
theorem Inv.all_taken (hm : kv.messages = []) : k = es.length := by
  have hawaits := h.awaits
  rw [hm] at hawaits
  have hdone := hawaits.done h.actor.valid
  have := h.actor.k_le
  have := h.actor.beginSeqNo
  omega

theorem Inv.running (hm : kv.messages = []) :
    ∃ enc fl bu, kv.actor.binlog.Running c enc fl bu ∧ Rewritten (log ++ es) (fl ++ bu) ∧
      OpenedBy c enc dbKey .empty := by
  obtain ⟨enc, fl, bu, hrun, hrew⟩ := h.actor.fed.running
  rw [h.all_taken hm, take_length] at hrew
  refine ⟨enc, fl, bu, hrun, hrew, true, fun e he => ?_⟩
  have hfor := hrun.keys.isFor e he
  rw [h.actor.fed.dbKey] at hfor
  exact hfor

/-- With all messages delivered, opening the file again gives the map. -/
theorem Inv.reopen (hfits : Readable (log ++ es)) (hm : kv.messages = [])
    (magic : Magic) (r : Entropy) :
    ∃ kv' log', init c r (kv.actor.binlog.close c) dbKey magic = .ok kv' ∧ kv'.map.get = kv.map.get ∧
      Inv c dbKey log' [] kv'.lastEventId 0 kv' ∧ Readable log' := by
  obtain ⟨enc, fl, bu, hrun, hrew, hopens⟩ := h.running hm
  have hreadable : Readable (fl ++ bu) := fun e he => hfits e (hrew.mem e he)
  have hnext := h.actor.fed.next
  rw [h.all_taken hm, take_length] at hnext
  have hbound : bound 1 (fl ++ bu) ≤ 2 ^ 63 := by
    have h1 := hrun.log.bound
    have h2 := h.posted.bound
    have h3 := h.last
    have h4 := h.last_le
    have h5 : kv.actor.binlog.processor.lastEventId + 1 = bound first es := hnext
    omega
  have hmirrors : Mirrors kv.map.get (lookup (liveEvents (fl ++ bu))) := by
    rw [hrew.live, liveEvents_append]
    exact h.posted.mirrors
  obtain ⟨kv', log', hinit, hget, -, hinv, hmem⟩ := init_inv (r := r) magic (restored_of_path hrun.flush.1.path)
    hrun.log.legal hreadable hopens hbound hmirrors
  exact ⟨kv', log', hinit, hget, hinv, fun e he => hreadable e (hmem e he)⟩

end

theorem init_messages (h : init c r disk dbKey magic = .ok kv) : kv.messages = [] := by
  obtain ⟨opened, -, h⟩ := Outcome.bind_ok_iff.1 h
  obtain ⟨map, -, h⟩ := Outcome.bind_ok_iff.1 h
  cases h
  rfl

theorem init_start (c : Crypto) (r : Entropy) (dbKey : DbKey) (magic : Magic) :
    ∃ kv, init c r {} dbKey magic = .ok kv ∧ kv.map.get = (fun _ => none) ∧ kv.lastEventId = 1 ∧ kv.messages = [] ∧
      Inv c dbKey [] [] 1 0 kv := by
  obtain ⟨kv, log', hinit, hget, hlast, hinv, hmem⟩ := init_inv (c := c) (r := r) (f := fun _ => none)
    magic (show ({} : Disk).restored.path = some (encode c none []) from rfl) trivial (by simp [Readable])
    (.none c _ _) (by decide) ⟨by simp [liveEvents, lookup], by simp [liveEvents, lookup]⟩
  obtain rfl : log' = [] := eq_nil_iff_forall_not_mem.2 fun e he => by cases hmem e he
  rw [show kv.lastEventId = 1 from hlast] at hinv
  exact ⟨kv, hinit, hget, hlast, init_messages hinit, hinv⟩

theorem Reachable.inv (h : Reachable c dbKey magic kv) :
    ∃ log es first k, Inv c dbKey log es first k kv ∧ Readable (log ++ es) := by
  induction h with
  | @start r kv hinit =>
    obtain ⟨kv', hinit', -, -, -, hinv⟩ := init_start c r dbKey magic
    rw [hinit] at hinit'
    cases hinit'
    exact ⟨_, _, _, _, hinv, by simp [Readable]⟩
  | step _ hstep ih =>
    obtain ⟨log, es, first, k, hinv, hfits⟩ := ih
    cases hstep with
    | call call hpossible hcall hrun hle =>
      obtain ⟨es', hinv', hes'⟩ := hinv.call hpossible hrun hle
      refine ⟨_, _, _, _, hinv', fun e he => ?_⟩
      rw [← append_assoc] at he
      rcases mem_append.1 he with he | he
      · exact hfits e he
      · exact hes' hcall e he
    | deliver r hm hok =>
      obtain ⟨actor, k', hok', hinv'⟩ := hinv.receive r hm
      rw [hok] at hok'
      cases hok'
      exact ⟨_, _, _, _, hinv', hfits⟩
    | flush => exact ⟨_, _, _, _, hinv.flush, hfits⟩
  | @restart r kv kv' _ hm hinit ih =>
    obtain ⟨log, es, first, k, hinv, hfits⟩ := ih
    obtain ⟨kv'', log', hinit', -, hinv', hfits'⟩ := hinv.reopen hfits hm magic r
    rw [hinit] at hinit'
    cases hinit'
    exact ⟨_, _, _, _, hinv', by rw [append_nil]; exact hfits'⟩

/-- **Concurrent clients.** Whatever clients call, the numbers they take are
those from some number on; and in whatever order their messages come, the
actor takes them all, the binlog is then given the posted events in the order
of their numbers, each once, and opening it again gives the map. -/
theorem reachable_replays (h : Reachable c dbKey magic kv) :
    (∃ first, kv.posted.map (·.1) = List.range' first kv.posted.length) ∧
    ∀ r order, order.Perm kv.messages → ∃ kv', kv.deliver c r order = .ok kv' ∧
      kv'.actor.added = kv.posted.map (·.2) ∧
      ∀ r', ∃ kv'', init c r' (kv'.actor.binlog.close c) dbKey magic = .ok kv'' ∧
        ∀ key, kv''.map.lookup key = kv.map.lookup key := by
  obtain ⟨log, es, first, k, hinv, hfits⟩ := h.inv
  have hnumbers := hinv.numbers
  refine ⟨⟨first, ?_⟩, fun r order horder => ?_⟩
  · simp [hnumbers, map_fst_zip, length_zip]
  · obtain ⟨actor, k', hok, hinv'⟩ := hinv.deliver r horder
    refine ⟨_, hok, ?_, fun r' => ?_⟩
    · rw [hinv.raws]
      have hadded := hinv'.actor.fed.added
      rwa [hinv'.all_taken rfl, take_length] at hadded
    · obtain ⟨kv'', -, hinit, hget, -⟩ := hinv'.reopen hfits rfl magic r'
      exact ⟨kv'', hinit, fun key => congrFun hget key⟩

def sampleMagic : Magic := ⟨1, by decide, by decide⟩

def sampleStart : KeyValue := (init keyless sampleEntropy {} .empty sampleMagic).get (by decide +kernel)

def sampleOnce : KeyValue := (sampleStart.set keyless [1] [10]).get (by decide +kernel)

/-- A key was set twice, and no message has arrived. -/
def sampleTwice : KeyValue := (sampleOnce.set keyless [1] [11]).get (by decide +kernel)

theorem sampleTwice_reachable : Reachable keyless .empty sampleMagic sampleTwice := by
  have hfits : ∀ value : UInt8, (Call.set [1] [value]).Fits := fun value data hdata => by
    cases hdata
    show 8 + minSize ≤ maxSize
    decide
  have hstart : Reachable keyless .empty sampleMagic sampleStart := .start (eq_ok_get _ _)
  have honce : Reachable keyless .empty sampleMagic sampleOnce :=
    hstart.step (.call (.set [1] [10]) trivial (hfits 10) (eq_ok_get _ _) (by decide +kernel))
  exact honce.step (.call (.set [1] [11]) trivial (hfits 11) (eq_ok_get _ _) (by decide +kernel))

theorem reachable_replays_sample :
    Reachable keyless .empty sampleMagic sampleTwice ∧ sampleTwice.messages.length = 2 ∧
    ∃ kv', sampleTwice.deliver keyless (fun _ => sampleEntropy) sampleTwice.messages.reverse = .ok kv' ∧
      kv'.actor.added = sampleTwice.posted.map (·.2) := by
  obtain ⟨kv', hdeliver, hadded, -⟩ := (reachable_replays sampleTwice_reachable).2 (fun _ => sampleEntropy)
    sampleTwice.messages.reverse (reverse_perm _)
  exact ⟨sampleTwice_reachable, by decide +kernel, kv', hdeliver, hadded⟩

/-! ## What cannot be stored -/

/-- A call, after which its messages arrive. -/
def perform (c : Crypto) (r : Nat → Entropy) (kv : KeyValue) (call : Call) : Outcome KeyValue := do
  let kv ← call.run c kv
  kv.deliver c r kv.messages

/-- Calls from no files on, each of which is over before the next one. -/
def performAll (c : Crypto) (r : Entropy) (dbKey : DbKey) (magic : Magic) (calls : List Call) : Outcome KeyValue := do
  let kv ← init c r {} dbKey magic
  calls.foldlM (perform c fun _ => r) kv

theorem set_eq (kv : KeyValue) (key value : Bytes) {old : Bytes} {id : Nat} (hkey : key ≠ [])
    (hshort : key.length < 2 ^ 24)
    (hvalue : value.length < 2 ^ 30) (hit : (kv.map.lookup key).getD ([], 0) = (old, id)) (hid : id < 2 ^ 64)
    (hnew : id ≠ 0 → old ≠ value) (hlast : kv.lastEventId < 2 ^ 64) :
    ∃ e : LogEvent, e.id = (if id ≠ 0 then id else kv.lastEventId) ∧ e.type = kv.magic.1 ∧
      e.flags = (if id ≠ 0 then rewriteFlag else 0) ∧ value.length ≤ e.data.length ∧
      kv.set c key value = .ok (kv.post (kv.map.insert key (value, e.id)) [e.raw c]
        [.addRawEvent kv.lastEventId (e.raw c)]) := by
  obtain ⟨data, hdata, hge, hle⟩ := storeKv_ok hshort (show value.length < 2 ^ 32 by omega)
  have hmagic := kv.magic.2
  have hsmall : data.length + minSize < 2 ^ 31 := by rw [show minSize = 32 from rfl]; omega
  let e : LogEvent := ⟨if id ≠ 0 then id else kv.lastEventId, kv.magic.1, if id ≠ 0 then rewriteFlag else 0, 0, data,
    by split <;> assumption, by omega, hmagic.2, by split <;> decide, LogEvent.zero_lt, storeKv_aligned hdata, hsmall⟩
  refine ⟨e, rfl, rfl, rfl, hge, ?_⟩
  unfold KeyValue.set
  rw [check_true hkey, ok_bind, hit]
  rw [if_neg (fun h => hnew h.1 h.2), hdata, ok_bind]
  exact congrArg (· >>= _) (createRaw_eq c e rfl)

/-- A log of which the first event is refused gives the empty map. -/
theorem init_ends {tail : Bytes} (magic : Magic)
    (hpath : disk.restored.path = some (sealed c enc tail)) (hends : Ends c tail)
    (hopens : OpenedBy c enc dbKey .empty) : ∃ kv, init c r disk dbKey magic = .ok kv ∧ kv.map = ∅ := by
  obtain ⟨b, events, -, -, hinit, -, hevents, -⟩ := Binlog.init_spec (r := r)
    (show _ = some (sealed c enc (raws c [] ++ tail)) from hpath) trivial (by simp [Readable]) hends hopens
  obtain rfl : events = [] := map_eq_nil_iff.1 hevents
  unfold init
  rw [hinit, ok_bind]
  exact ⟨_, rfl, rfl⟩

/-- The event of a value of `MAX_SIZE` bytes is bigger than that: the value is
stored and cannot be read. -/
theorem perform_big {value : Bytes} (hlen : value.length = maxSize) (c : Crypto) (r : Entropy) (dbKey : DbKey)
    (magic : Magic) :
    ∃ kv kv', performAll c r dbKey magic [.set [1] value] = .ok kv ∧ kv.map.lookup [1] = some (value, 1) ∧
      init c r (kv.actor.binlog.close c) dbKey magic = .ok kv' ∧ kv'.map.lookup [1] = none := by
  obtain ⟨kv, hinit, hget, hlast, -, hinv⟩ := init_start c r dbKey magic
  have hnone : kv.map.lookup [1] = none := congrFun hget [1]
  obtain ⟨e, hid, -, -, hdata, hset⟩ := set_eq (c := c) kv [1] value (by simp) (by decide) (by rw [hlen]; decide)
    (show _ = ([], 0) by rw [hnone]; rfl) (by decide) (by simp) (by rw [hlast]; decide)
  obtain ⟨es', hinv1, -⟩ := hinv.call (show (Call.set [1] value).Possible kv from trivial) hset
    (by show (kv.lastEventId + 1) % 2 ^ 64 ≤ _; rw [hlast]; decide)
  obtain ⟨actor, k, hdeliver, hinv2⟩ := hinv1.deliver (fun _ => r) (List.Perm.refl _)
  obtain ⟨enc, fl, bu, hrun, hrew, hopens⟩ := hinv2.running rfl
  have hbig : ∀ x ∈ fl ++ bu, ¬ x.Fits := fun x hx => by
    have hmem : x.raw c ∈ ([] ++ es').map (LogEvent.raw c) := mem_map_of_mem (hrew.mem x hx)
    rw [← hinv1.raws] at hmem
    have hposted : kv.posted = [] := hinv.numbers
    have hraw : x.raw c = e.raw c := by simpa [KeyValue.post, hposted] using hmem
    have hsize := congrArg List.length hraw
    rw [LogEvent.length_raw, LogEvent.length_raw] at hsize
    unfold LogEvent.Fits
    rw [hsize, LogEvent.size]
    have : minSize = 32 := rfl
    omega
  obtain ⟨kv', hinit', hmap⟩ := init_ends (r := r) magic (restored_of_path hrun.flush.1.path)
    (ends_of_big c hbig) hopens
  refine ⟨_, kv', ?_, ?_, hinit', by rw [hmap]; rfl⟩
  · unfold performAll
    rw [hinit, ok_bind, foldlM_cons]
    unfold perform
    rw [show (Call.set [1] value).run c kv = _ from hset, ok_bind, hdeliver]
    rfl
  · show (kv.map.insert [1] (value, e.id)).lookup [1] = _
    rw [AList.lookup_insert, hid, if_neg (by simp), hlast]

/-- Calls that give one key the values 0 and 1 by turns. -/
def alternate (n : Nat) : List Call := (List.range n).map fun i => .set [1] [UInt8.ofNat (i % 2)]

/-- After `n` of the calls. -/
structure Alternated (c : Crypto) (dbKey : DbKey) (n : Nat) (kv : KeyValue) : Prop where
  inv : ∃ es k, Inv c dbKey [] es 1 k kv
  messages : kv.messages = []
  last : kv.lastEventId = n + 1
  some : n ≠ 0 → kv.map.lookup [1] = some ([UInt8.ofNat ((n - 1) % 2)], 1)
  none : ∀ key, n = 0 ∨ key ≠ [1] → kv.map.lookup key = none

theorem ofNat_mod_ne (hn : n ≠ 0) : UInt8.ofNat ((n - 1) % 2) ≠ UInt8.ofNat (n % 2) := by
  rcases Nat.mod_two_eq_zero_or_one n with h | h
  · rw [h, show (n - 1) % 2 = 1 by omega]; decide
  · rw [h, show (n - 1) % 2 = 0 by omega]; decide

theorem Alternated.step (h : Alternated c dbKey n kv) (hn : n + 2 ≤ 2 ^ 63) (r : Nat → Entropy) :
    ∃ kv', perform c r kv (.set [1] [UInt8.ofNat (n % 2)]) = .ok kv' ∧ Alternated c dbKey (n + 1) kv' := by
  obtain ⟨es, k, hinv⟩ := h.inv
  have hlast := h.last
  obtain ⟨old, id, hit, hid, hnew, heid⟩ : ∃ old id, (kv.map.lookup [1]).getD ([], 0) = (old, id) ∧ id < 2 ^ 64 ∧
      (id ≠ 0 → old ≠ [UInt8.ofNat (n % 2)]) ∧ (if id ≠ 0 then id else kv.lastEventId) = 1 := by
    by_cases hzero : n = 0
    · exact ⟨[], 0, by rw [h.none [1] (.inl hzero)]; rfl, by decide, by simp, by rw [if_neg (by simp), hlast, hzero]⟩
    · refine ⟨_, 1, by rw [h.some hzero]; rfl, by decide, fun _ heq => ?_, rfl⟩
      exact ofNat_mod_ne hzero (List.cons.inj heq).1
  obtain ⟨e, heq, -, -, -, hset⟩ := set_eq (c := c) kv [1] [UInt8.ofNat (n % 2)] (by simp) (by decide)
    (show 1 < 2 ^ 30 by decide) hit hid hnew (by omega)
  rw [heid] at heq
  rw [heq] at hset
  have hmod : (kv.lastEventId + 1) % 2 ^ 64 = n + 2 := by rw [hlast]; exact Nat.mod_eq_of_lt (by omega)
  obtain ⟨es', hinv1, -⟩ := hinv.call (show (Call.set [1] _).Possible kv from trivial) hset
    (by show (kv.lastEventId + 1) % 2 ^ 64 ≤ _; omega)
  obtain ⟨actor, k', hdeliver, hinv2⟩ := hinv1.deliver r (List.Perm.refl _)
  refine ⟨_, ?_, ⟨_, _, hinv2⟩, rfl, hmod, fun _ => AList.lookup_insert _, fun key hkey => ?_⟩
  · unfold perform
    rw [show (Call.set [1] _).run c kv = _ from hset, ok_bind]
    exact hdeliver
  · have hne : key ≠ [1] := hkey.resolve_left (by omega)
    show (kv.map.insert [1] _).lookup key = _
    rw [AList.lookup_insert_ne hne]
    exact h.none key (.inr hne)

theorem alternate_run (h : Alternated c dbKey 0 kv) (hn : n + 1 ≤ 2 ^ 63) (r : Nat → Entropy) :
    ∃ kv', (alternate n).foldlM (perform c r) kv = .ok kv' ∧ Alternated c dbKey n kv' := by
  induction n with
  | zero => exact ⟨kv, rfl, h⟩
  | succ n ih =>
    obtain ⟨kv1, hrun, h1⟩ := ih (by omega)
    obtain ⟨kv2, hstep, h2⟩ := h1.step hn r
    refine ⟨kv2, ?_, h2⟩
    simp_all [range_succ, map_append, foldlM_append, ok_bind, foldlM_cons,
      alternate]

theorem Alternated.set_wraps (h : Alternated c dbKey n kv) (hn : n + 1 = 2 ^ 63) (r : Nat → Entropy) :
    perform c r kv (.set [2] []) = .fatal := by
  obtain ⟨es, k, hinv⟩ := h.inv
  have hlast : kv.lastEventId = 2 ^ 63 := by rw [h.last, hn]
  obtain ⟨enc, fl, bu, hrun, hrew, -⟩ := hinv.running h.messages
  obtain ⟨e, hid, htype, hflags, -, hset⟩ := set_eq (c := c) kv [2] [] (by simp) (by decide) (by decide)
    (show _ = ([], 0) by rw [h.none [2] (.inr (by decide))]; rfl) (by decide) (by simp) (by rw [hlast]; decide)
  have hlive : liveEvents (fl ++ bu) ≠ [] := by
    obtain ⟨hmem, -⟩ := hinv.posted.mem_live (h.some (by omega))
    rw [hrew.live, liveEvents_append]
    intro hnil
    rw [hnil] at hmem
    cases hmem
  have hfatal := hrun.addRawEvent_wraps (r := r kv.lastEventId) (e := e) (by rw [hid, if_neg (by simp), hlast])
    (by rw [hflags, if_neg (by simp)]) (by rw [htype]; exact kv.magic.2.1) hlive
  have hbegin : kv.lastEventId = kv.actor.processor.beginSeqNo := by
    rw [hinv.actor.beginSeqNo, hinv.last, hinv.all_taken h.messages]
  have hreceive : kv.actor.receive c r (.addRawEvent kv.lastEventId (e.raw c)) = .fatal := by
    have hdo : BinlogActor.doAddRawEvent c r (kv.actor.binlog, kv.actor.added) kv.lastEventId (e.raw c) = .fatal := by
      unfold BinlogActor.doAddRawEvent
      rw [if_neg (raw_ne_nil e), hfatal]
      rfl
    show kv.actor.addRawEvent c r kv.lastEventId (e.raw c) = .fatal
    unfold BinlogActor.addRawEvent add
    rw [check_true (by omega), ok_bind, if_pos hbegin, hdo]
    rfl
  unfold perform
  rw [show (Call.set [2] []).run c kv = _ from hset, ok_bind]
  show (kv.messages ++ [_]).foldlM _ kv.actor >>= _ = _
  rw [h.messages, nil_append, foldlM_cons, hreceive]
  rfl

/-- The set of a new key after 2^63 - 1 events. -/
theorem perform_long (hn : n + 1 = 2 ^ 63) (c : Crypto) (r : Entropy) (dbKey : DbKey) (magic : Magic) :
    performAll c r dbKey magic (alternate n ++ [.set [2] []]) = .fatal := by
  obtain ⟨kv, hinit, hget, hlast, hmessages, hinv⟩ := init_start c r dbKey magic
  have hstart : Alternated c dbKey 0 kv :=
    ⟨⟨_, _, hinv⟩, hmessages, hlast, fun h => absurd rfl h, fun key _ => congrFun hget key⟩
  obtain ⟨kv', hrun, h⟩ := alternate_run hstart (Nat.le_of_eq hn) (fun _ => r)
  unfold performAll
  rw [hinit, ok_bind, foldlM_append, hrun, ok_bind, foldlM_cons, h.set_wraps hn]
  rfl

/-- A value that is stored and lost, and a run that ends in an abort. -/
theorem not_replays : (∃ kv kv',
      performAll keyless sampleEntropy .empty sampleMagic [.set [1] (List.replicate maxSize 0)] = .ok kv ∧
      kv.map.lookup [1] = some (List.replicate maxSize 0, 1) ∧
      init keyless sampleEntropy (kv.actor.binlog.close keyless) .empty sampleMagic = .ok kv' ∧
      kv'.map.lookup [1] = none) ∧
    performAll keyless sampleEntropy .empty sampleMagic (alternate (2 ^ 63 - 1) ++ [.set [2] []]) = .fatal :=
  ⟨perform_big length_replicate _ _ _ _, perform_long (by decide) _ _ _ _⟩

end Tdlib.Db.KeyValue
