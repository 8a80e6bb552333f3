/-
The actor that owns the binlog: whatever order messages come in, it gives the
events to the binlog in the order of their numbers, and the binlog takes
each of them.
-/
import Tdlib.KeyValue.Clients
import Tdlib.Binlog.Running

namespace Tdlib.Db

open Outcome List BinlogActor

variable {c : Crypto} {r : Nat → Entropy} {dbKey : DbKey} {log es : List LogEvent} {first k n : Nat}

/-! ## Feeding the binlog -/

/-- The event with the number `n`, of those that have the numbers from `first`
on. -/
def rawOf (c : Crypto) (first : Nat) (es : List LogEvent) (n : Nat) : Bytes := (es.map (·.raw c))[n - first]?.getD []

theorem rawOf_eq {e : LogEvent} (h : es[k]? = some e) : rawOf c first es (first + k) = e.raw c := by
  unfold rawOf
  rw [Nat.add_sub_cancel_left, List.getElem?_map, h]
  rfl

theorem rawOf_append (es' : List LogEvent) (hn : n < first + es.length) (hle : first ≤ n) :
    rawOf c first (es ++ es') n = rawOf c first es n := by
  unfold rawOf
  rw [map_append, List.getElem?_append_left (by rw [length_map]; omega)]

theorem raw_ne_nil (e : LogEvent) : e.raw c ≠ [] := by
  intro h
  have hlen := congrArg List.length h
  rw [LogEvent.length_raw, length_nil] at hlen
  have := e.size_ge
  omega

/-- The binlog has taken the first `k` of the events `es` over the log `log`. -/
structure Fed (c : Crypto) (dbKey : DbKey) (log es : List LogEvent) (first k : Nat) (s : Binlog × List Bytes) :
    Prop where
  running : ∃ enc fl bu, s.1.Running c enc fl bu ∧ Rewritten (log ++ es.take k) (fl ++ bu)
  next : s.1.processor.lastEventId + 1 = KeyLog.bound first (es.take k)
  dbKey : s.1.dbKey = dbKey
  added : s.2 = (es.take k).map (·.raw c)

theorem liveEvents_append (log es : List LogEvent) : liveEvents (log ++ es) = KeyLog.replay (liveEvents log) es :=
  KeyLog.replay_append [] log es

section

variable {s : Binlog × List Bytes} (h : Fed c dbKey log es first k s)
    (hlegal : KeyLog.Legal LogEvent.Ok (liveEvents log) first es)

include h hlegal

theorem Fed.step (hk : k < es.length) :
    ∃ s', doAddRawEvent c r s (first + k) (rawOf c first es (first + k)) = .ok s' ∧
      Fed c dbKey log es first (k + 1) s' := by
  obtain ⟨enc, fl, bu, hrun, hrew⟩ := h.running
  obtain ⟨e, he⟩ : ∃ e, es[k]? = some e := ⟨_, List.getElem?_eq_getElem hk⟩
  have htake : es.take (k + 1) = es.take k ++ [e] := by rw [take_add_one, he]; rfl
  have hlive : liveEvents (fl ++ bu) = KeyLog.replay (liveEvents log) (es.take k) := by
    rw [hrew.live, liveEvents_append]
  have hfollows : KeyLog.Follows LogEvent.Ok (liveEvents (fl ++ bu)) (s.1.processor.lastEventId + 1) e := by
    have := KeyLog.Legal.take hlegal (k + 1)
    rw [htake] at this
    rw [hlive, h.next]
    exact (KeyLog.legal_append.1 this).2.1
  obtain ⟨b, enc', fl', bu', hadd, hrun', hrew', hnext, -, hkey⟩ :=
    hrun.addEvent (r := r (first + k)) hfollows (Image.event c e) rfl
  refine ⟨(b, s.2 ++ [e.raw c]), ?_, ⟨enc', fl', bu', hrun', ?_⟩, ?_, hkey.trans h.dbKey, ?_⟩
  · unfold doAddRawEvent Binlog.addRawEvent
    rw [rawOf_eq he, if_neg (raw_ne_nil e), e.init_raw, ok_bind, hadd]
    rfl
  · rw [htake, ← append_assoc]
    exact (hrew.append [e]).trans hrew'
  · rw [hnext, h.next, htake, KeyLog.bound_append]
    rfl
  · rw [htake, map_append, ← h.added]
    rfl

theorem Fed.run (hk : k + n ≤ es.length) :
    ∃ s', OrderedEventsProcessor.runAll (doAddRawEvent c r) (rawOf c first es) (first + k) n s = .ok s' ∧
      Fed c dbKey log es first (k + n) s' := by
  induction n generalizing k s with
  | zero => exact ⟨s, rfl, h⟩
  | succ n ih =>
    obtain ⟨s1, hstep, h1⟩ := h.step (r := r) hlegal (by omega)
    obtain ⟨s2, hrun, h2⟩ := ih h1 (by omega)
    refine ⟨s2, ?_, by rw [show k + (n + 1) = k + 1 + n by omega]; exact h2⟩
    rw [OrderedEventsProcessor.runAll_succ, hstep, ok_bind]
    exact hrun

end

/-! ## Numbers that are on their way -/

/-- Every number from the next one on up to `last` waits in the processor or
is one of `ns`, which are on their way. -/
structure Awaits (p : OrderedEventsProcessor Bytes) (last : Nat) (ns : List Nat) : Prop where
  nodup : ns.Nodup
  coming : ∀ n ∈ ns, p.beginSeqNo ≤ n ∧ n < last ∧ p.waiting n = none
  known : ∀ n, p.waiting n ≠ none → n < last
  total : ∀ n, p.beginSeqNo ≤ n → n < last → p.waiting n ≠ none ∨ n ∈ ns

variable {p : OrderedEventsProcessor Bytes}

theorem Awaits.perm {last : Nat} {ns ns' : List Nat} (h : Awaits p last ns) (hperm : ns.Perm ns') : Awaits p last ns' :=
  ⟨hperm.nodup_iff.1 h.nodup, fun n hn => h.coming n (hperm.mem_iff.2 hn), h.known,
    fun n hle hlt => (h.total n hle hlt).imp_right hperm.mem_iff.1⟩

/-- Nothing is left out: with nothing on its way all numbers are done. -/
theorem Awaits.done {g : Nat → Bytes} {last : Nat} (h : Awaits p last []) (hv : p.Valid g) : last ≤ p.beginSeqNo := by
  by_contra hlt
  rcases h.total p.beginSeqNo (Nat.le_refl _) (by omega) with hw | hmem
  · exact hw hv.next
  · cases hmem

/-- The actor: its binlog has taken the first `k` events, and the processor
holds others of them. -/
structure ActorInv (c : Crypto) (dbKey : DbKey) (log es : List LogEvent) (first k : Nat) (a : BinlogActor) : Prop where
  valid : a.processor.Valid (rawOf c first es)
  beginSeqNo : a.processor.beginSeqNo = first + k
  k_le : k ≤ es.length
  fed : Fed c dbKey log es first k (a.binlog, a.added)

/-- **One event arrives.** -/
theorem ActorInv.addRawEvent {a : BinlogActor} {ns : List Nat} (h : ActorInv c dbKey log es first k a)
    (hlegal : KeyLog.Legal LogEvent.Ok (liveEvents log) first es)
    (hawaits : Awaits a.processor (first + es.length) (n :: ns)) :
    ∃ a' k', a.addRawEvent c r n (rawOf c first es n) = .ok a' ∧ ActorInv c dbKey log es first k' a' ∧
      Awaits a'.processor (first + es.length) ns := by
  obtain ⟨hn, hlt, hnone⟩ := hawaits.coming n (by simp)
  obtain ⟨hfresh, hnodup⟩ := nodup_cons.1 hawaits.nodup
  obtain ⟨p', j, hvalid, hbegin, hwait, hready, hadd⟩ :=
    OrderedEventsProcessor.add_spec (BinlogActor.doAddRawEvent c r) h.valid hn
  -- The events that are run are all known.
  have hj : k + j ≤ es.length := by
    by_contra hgt
    have hle := h.k_le
    rcases hready (first + es.length) (by rw [h.beginSeqNo]; omega) (by rw [h.beginSeqNo]; omega) with heq | hw
    · omega
    · have := hawaits.known _ hw; omega
  obtain ⟨s', hrun, hfed⟩ := h.fed.run (r := r) (n := j) hlegal hj
  refine ⟨⟨s'.1, p', s'.2⟩, k + j, ?_, ⟨hvalid, ?_, hj, hfed⟩,
    ⟨hnodup, fun x hx => ?_, fun x hx => ?_, fun x hle hx => ?_⟩⟩
  · unfold BinlogActor.addRawEvent
    rw [hadd, h.beginSeqNo, hrun]
    rfl
  · rw [hbegin, h.beginSeqNo]; omega
  · obtain ⟨hx1, hx2, hx3⟩ := hawaits.coming x (by simp [hx])
    have hne : x ≠ n := fun heq => hfresh (heq ▸ hx)
    have hge : a.processor.beginSeqNo + j ≤ x := by
      by_contra hlt'
      rcases hready x hx1 (by omega) with heq | hw
      · exact hne heq
      · exact hw hx3
    refine ⟨show p'.beginSeqNo ≤ x by omega, hx2, ?_⟩
    simp [hwait, hne, hx3]
  · have hx' : p'.waiting x ≠ none := hx
    rw [hwait] at hx'
    split at hx'
    next => exact absurd rfl hx'
    next =>
      split at hx'
      next heq => rw [heq]; exact hlt
      next => exact hawaits.known x hx'
  · have hle' : p'.beginSeqNo ≤ x := hle
    rw [hwait, if_neg (by omega)]
    by_cases heq : x = n
    · rw [if_pos heq]; simp
    · rw [if_neg heq]
      rcases hawaits.total x (by omega) hx with hw | hmem
      · exact .inl hw
      · exact .inr ((mem_cons.1 hmem).resolve_left heq)

/-! ## Messages -/

/-- The numbers of the events of a message. -/
def Message.seqNos : Message → List Nat
  | .addRawEvent seqNo _ => [seqNo]
  | .eraseBatch seqNo eventIds => List.range' seqNo eventIds.length

/-- A message has the events of its numbers. -/
def Message.Carries (c : Crypto) (g : Nat → Bytes) : Message → Prop
  | .addRawEvent seqNo rawEvent => rawEvent = g seqNo
  | .eraseBatch seqNo eventIds =>
    ∀ i eventId, eventIds[i]? = some eventId → eraseRaw c eventId = .ok (g (seqNo + i))

section

variable {a : BinlogActor} (h : ActorInv c dbKey log es first k a)
    (hlegal : KeyLog.Legal LogEvent.Ok (liveEvents log) first es)

include h hlegal

theorem ActorInv.eraseBatch {ns ids : List Nat} (hcarries : (Message.eraseBatch n ids).Carries c (rawOf c first es))
    (hawaits : Awaits a.processor (first + es.length) (List.range' n ids.length ++ ns)) :
    ∃ a' k', a.eraseBatch c r n ids = .ok a' ∧ ActorInv c dbKey log es first k' a' ∧
      Awaits a'.processor (first + es.length) ns := by
  induction ids generalizing a k n with
  | nil => exact ⟨a, k, rfl, h, hawaits⟩
  | cons id ids ih =>
    obtain ⟨a1, k1, hadd, h1, hawaits1⟩ := h.addRawEvent (r := r) hlegal hawaits
    have hrest : (Message.eraseBatch (n + 1) ids).Carries c (rawOf c first es) := fun i eventId hi => by
      rw [Nat.add_assoc, Nat.add_comm 1 i]
      exact hcarries (i + 1) eventId hi
    obtain ⟨a2, k2, hrun, h2, hawaits2⟩ := ih h1 hrest hawaits1
    refine ⟨a2, k2, ?_, h2, hawaits2⟩
    unfold eraseBatch
    rw [hcarries 0 id rfl, ok_bind, Nat.add_zero, hadd, ok_bind]
    exact hrun

/-- **A message arrives.** -/
theorem ActorInv.receive {ns : List Nat} {m : Message} (hcarries : m.Carries c (rawOf c first es))
    (hawaits : Awaits a.processor (first + es.length) (m.seqNos ++ ns)) :
    ∃ a' k', a.receive c r m = .ok a' ∧ ActorInv c dbKey log es first k' a' ∧
      Awaits a'.processor (first + es.length) ns := by
  cases m with
  | addRawEvent seqNo rawEvent =>
    cases hcarries
    exact h.addRawEvent hlegal hawaits
  | eraseBatch seqNo eventIds => exact h.eraseBatch hlegal hcarries hawaits

end

end Tdlib.Db
