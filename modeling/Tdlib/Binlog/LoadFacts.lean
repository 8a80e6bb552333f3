/-
What the loop of `load_binlog` does on the bytes of a log: whatever the
pieces the file is read in, and encrypted or not, the events in it are added
one after the other, and a torn event at the end is left out.
-/
import Tdlib.Binlog.Load
import Tdlib.Binlog.Log

namespace Tdlib.Db.Binlog

open List hiding pure_def
open Outcome

variable {c : Crypto} {b b1 : Binlog} {e : LogEvent}

/-- The bytes the reader has not consumed yet, decrypted. -/
def rest (c : Crypto) (b : Binlog) : Bytes :=
  if b.byteFlowFlag then b.input.sink ++ b.aesCtrState.encrypt c (b.input.bufferReader ++ b.input.unread)
  else b.input.bufferReader ++ b.input.unread

/-- The key stream once all of the file is decrypted. -/
def flowEnd (b : Binlog) : AesCtrState :=
  if b.byteFlowFlag then b.aesCtrState.advance (b.input.bufferReader ++ b.input.unread).length else b.aesCtrState

/-- Reading on changes nothing but what is read from. -/
structure SameCore (b b1 : Binlog) : Prop where
  eq : b1 = { b with input := b1.input, aesCtrState := b1.aesCtrState }
  flowEnd : b1.flowEnd = b.flowEnd

theorem SameCore.trans {b2 : Binlog} (h1 : SameCore b b1) (h2 : SameCore b1 b2) : SameCore b b2 :=
  ⟨by rw [h2.eq, h1.eq], h2.flowEnd.trans h1.flowEnd⟩

/-! ## The pieces -/

theorem encrypt_append (c : Crypto) (s : AesCtrState) (as bs : Bytes) :
    s.encrypt c (as ++ bs) = s.encrypt c as ++ (s.advance as.length).encrypt c bs :=
  xorStream_append _ _ _ _

@[simp] theorem length_encrypt (c : Crypto) (s : AesCtrState) (bs : Bytes) : (s.encrypt c bs).length = bs.length :=
  length_xorStream _ _ _

theorem available_isPrefix (c : Crypto) (b : Binlog) : ∃ more, b.rest c = b.available ++ more := by
  unfold rest available
  split
  · exact ⟨_, rfl⟩
  · exact ⟨_, rfl⟩

theorem available_length_le (c : Crypto) (b : Binlog) : b.available.length ≤ (b.rest c).length := by
  obtain ⟨more, h⟩ := available_isPrefix c b
  rw [h, length_append]; omega

theorem take_available {n : Nat} (h : n ≤ b.available.length) : b.available.take n = (b.rest c).take n := by
  obtain ⟨more, hmore⟩ := available_isPrefix c b
  rw [hmore, take_append_of_le_length h]

@[simp] theorem rest_flushRead (n : Nat) (b : Binlog) : (b.flushRead c n).rest c = b.rest c := by
  unfold rest flushRead
  cases hf : b.byteFlowFlag with
  | false => simp
  | true =>
    simp only [if_true, append_assoc, nil_append]
    rw [← encrypt_append, append_assoc, take_append_drop]

theorem sameCore_flushRead (n : Nat) (b : Binlog) : SameCore b (b.flushRead c n) := by
  refine ⟨by unfold flushRead; split <;> rfl, ?_⟩
  unfold flowEnd flushRead
  cases hf : b.byteFlowFlag with
  | false => simp
  | true =>
    simp only [if_true, AesCtrState.advance, nil_append, length_append, length_take,
      length_drop, AesCtrState.mk.injEq, true_and]
    omega

@[simp] theorem readEvent_flushRead (n : Nat) (b : Binlog) : (b.flushRead c n).input.readEvent = b.input.readEvent := by
  unfold flushRead; split <;> rfl

@[simp] theorem offset_flushRead (n : Nat) (b : Binlog) : (b.flushRead c n).input.offset = b.input.offset := by
  unfold flushRead; split <;> rfl

/-- Reading `n` bytes gives as many, if there are as many left. -/
theorem le_available_flushRead {m n : Nat} (hmn : m ≤ n) (hm : m ≤ (b.rest c).length) :
    m ≤ (b.flushRead c n).available.length := by
  unfold rest at hm
  unfold flushRead available
  cases hf : b.byteFlowFlag with
  | false =>
    simp only [hf, Bool.false_eq_true, if_false, length_append, length_take] at hm ⊢
    omega
  | true =>
    simp only [hf, if_true, length_append, length_encrypt, length_take] at hm ⊢
    omega

theorem rest_cutHead {n : Nat} (h : n ≤ b.available.length) : (b.cutHead n).rest c = (b.rest c).drop n := by
  unfold available at h
  unfold rest cutHead
  cases hf : b.byteFlowFlag with
  | false =>
    simp only [hf, Bool.false_eq_true, if_false] at h ⊢
    rw [drop_append_of_le_length h]
  | true =>
    simp only [hf, if_true] at h ⊢
    rw [drop_append_of_le_length h]

theorem sameCore_cutHead (n : Nat) (b : Binlog) : SameCore b (b.cutHead n) := by
  unfold cutHead
  split
  · exact ⟨rfl, rfl⟩
  · next h => exact ⟨rfl, by simp [flowEnd, h]⟩

@[simp] theorem offset_cutHead (n : Nat) (b : Binlog) : (b.cutHead n).input.offset = b.input.offset := by
  unfold cutHead; split <;> rfl

/-! ## One event -/

/-- The log in the state `ReadEvent` of its reader. -/
def waiting (size : Nat) (b : Binlog) : Binlog := { b with input := { b.input with readEvent := some size } }

theorem sameCore_waiting (size : Nat) (b : Binlog) : SameCore b (b.waiting size) := ⟨rfl, rfl⟩
theorem available_waiting (size : Nat) (b : Binlog) : (b.waiting size).available = b.available := rfl
theorem rest_waiting (size : Nat) (b : Binlog) : (b.waiting size).rest c = b.rest c := rfl

/-- The event as the reader hands it on, read up to `offset`. -/
def readImage (c : Crypto) (e : LogEvent) (offset : Nat) : BinlogEvent := { e.event c with offset }

/-- The reader has gone over `size` bytes and waits for the next event. -/
structure Advanced (b b1 : Binlog) (size : Nat) : Prop where
  core : SameCore b b1
  idle : b1.input.readEvent = none
  offset : b1.input.offset = b.input.offset + size

theorem readEvent_available {rest : Bytes} (hrest : b.rest c = e.raw c ++ rest) (hsize : e.size ≤ b.available.length) :
    ∃ b1, b.readEvent c e.size = .ok (.event (readImage c e (b.input.offset + e.size)), b1) ∧
      Advanced b b1 e.size ∧ b1.rest c = rest := by
  have htake : b.available.take e.size = e.raw c := by
    rw [take_available (c := c) hsize, hrest, ← e.length_raw c, take_left]
  unfold readEvent
  rw [if_neg (by omega), htake, e.init_raw]
  simp only [ok_bind, pure_def]
  rw [if_pos (e.validate_raw c rfl rfl rfl)]
  simp only [offset_cutHead]
  refine ⟨_, rfl, ⟨(sameCore_cutHead e.size b).trans ⟨rfl, rfl⟩, rfl, by simp⟩, ?_⟩
  have hcut := rest_cutHead (c := c) hsize
  rw [hrest, ← e.length_raw c, drop_left] at hcut
  rw [← hcut, e.length_raw]
  rfl

variable {tail : Bytes} {size fuel : Nat}

/-- A size that was read sets the state `ReadEvent`, and no more. -/
theorem readNext_eq (hfits : e.Fits) (hidle : b.input.readEvent = none) (hrest : b.rest c = tail)
    (hfour : 4 ≤ b.available.length) (htail : leNat (tail.take 4) = e.size) :
    b.readNext c = (b.waiting e.size).readNext c := by
  have hmax : ¬ e.size > maxSize := Nat.not_lt.2 hfits
  have hmin : ¬ e.size < minSize := by have := e.size_ge; simp only [LogEvent.minSize_eq]; omega
  conv => lhs; unfold readNext
  rw [hidle]
  rw [if_neg (by omega), take_available (c := c) hfour, hrest, htail, if_neg hmax, if_neg hmin,
    if_neg (by simp [e.size_aligned])]
  rfl

theorem loadLoop_need (hnext : b.readNext c = .ok (.need size, b1)) (hsize : size ≤ (b1.rest c).length) :
    loadLoop c (fuel + 1) b = loadLoop c fuel (b1.flushRead c (max size 4096)) := by
  have := le_available_flushRead (b := b1) (c := c) (Nat.le_max_left size 4096) hsize
  unfold loadLoop
  rw [hnext]
  simp only [ok_bind]
  rw [if_neg (by omega)]
  cases fuel <;> rfl

theorem loadLoop_stop (hnext : b.readNext c = .ok (.need size, b1))
    (hsize : (b1.rest c).length < size) : loadLoop c (fuel + 1) b = .ok (b1.flushRead c (max size 4096)) := by
  have := available_length_le c (b1.flushRead c (max size 4096))
  rw [rest_flushRead] at this
  unfold loadLoop
  rw [hnext]
  simp only [ok_bind]
  rw [if_pos (by omega)]
  rfl

/-- The rest of the loop, once an event was read. -/
def afterEvent (c : Crypto) (event : BinlogEvent) (fuel : Nat) (b : Binlog) : Outcome Binlog := do
  let b ← b.doAddEvent c event
  if b.wrongPassword then pure b else loadLoop c fuel b

theorem loadLoop_readEvent {rest : Bytes} (hwait : b.input.readEvent = some e.size) (hrest : b.rest c = e.raw c ++ rest)
    (fuel : Nat) :
    ∃ b1 k, fuel ≤ k ∧ loadLoop c (fuel + 2) b = b1.afterEvent c (readImage c e (b.input.offset + e.size)) k ∧
      Advanced b b1 e.size ∧ b1.rest c = rest := by
  have hlen : e.size ≤ (b.rest c).length := by rw [hrest]; simp
  by_cases hsize : e.size ≤ b.available.length
  · obtain ⟨b1, hread, hadv, hrest1⟩ := readEvent_available hrest hsize
    refine ⟨b1, fuel + 1, by omega, ?_, hadv, hrest1⟩
    conv => lhs; unfold loadLoop
    unfold readNext
    rw [hwait]
    dsimp only
    rw [hread]
    rfl
  · have hnext : b.readNext c = .ok (.need e.size, b) := by
      unfold readNext readEvent
      rw [hwait]
      dsimp only
      rw [if_pos (by omega)]
      rfl
    obtain ⟨b1, hread, hadv, hrest1⟩ := readEvent_available (b := b.flushRead c (max e.size 4096))
      (by rw [rest_flushRead, hrest]) (le_available_flushRead (Nat.le_max_left _ _) hlen)
    rw [offset_flushRead] at hread
    refine ⟨b1, fuel, Nat.le_refl _, ?_, ⟨(sameCore_flushRead _ _).trans hadv.core, hadv.idle, ?_⟩, hrest1⟩
    · rw [loadLoop_need hnext hlen]
      conv => lhs; unfold loadLoop
      unfold readNext
      rw [readEvent_flushRead, hwait]
      dsimp only
      rw [hread]
      rfl
    · rw [hadv.offset, offset_flushRead]

theorem readNext_short (hidle : b.input.readEvent = none) (hav : ¬ 4 ≤ b.available.length) :
    b.readNext c = .ok (.need 4, b) := by
  unfold readNext
  rw [hidle]
  rw [if_pos (by omega)]
  rfl

/-- **Reading an event** takes at most three iterations of the loop. -/
theorem loadLoop_event {rest : Bytes} (hfits : e.Fits) (hidle : b.input.readEvent = none)
    (hrest : b.rest c = e.raw c ++ rest) (fuel : Nat) :
    ∃ b1 k, fuel ≤ k ∧ loadLoop c (fuel + 3) b = b1.afterEvent c (readImage c e (b.input.offset + e.size)) k ∧
      Advanced b b1 e.size ∧ b1.rest c = rest := by
  have hfour : 4 ≤ (b.rest c).length := by
    have := e.size_ge; rw [hrest, length_append, LogEvent.length_raw]; omega
  -- Once the size is there, the reader is in the state `ReadEvent`.
  have hready : ∀ (b : Binlog) (fuel : Nat), b.input.readEvent = none → b.rest c = e.raw c ++ rest →
      4 ≤ b.available.length →
      ∃ b1 k, fuel ≤ k ∧ loadLoop c (fuel + 2) b = b1.afterEvent c (readImage c e (b.input.offset + e.size)) k ∧
        Advanced b b1 e.size ∧ b1.rest c = rest := by
    intro b fuel hidle hrest hfour
    obtain ⟨b1, k, hk, hloop, hadv, hrest1⟩ :=
      loadLoop_readEvent (b := b.waiting e.size) rfl hrest fuel
    refine ⟨b1, k, hk, ?_, ⟨(sameCore_waiting _ _).trans hadv.core, hadv.idle, hadv.offset⟩, hrest1⟩
    refine Eq.trans ?_ hloop
    conv => lhs; unfold loadLoop
    conv => rhs; unfold loadLoop
    rw [readNext_eq hfits hidle hrest hfour (e.leNat_size c rest)]
  by_cases hav : 4 ≤ b.available.length
  · obtain ⟨b1, k, hk, h⟩ := hready b (fuel + 1) hidle hrest hav
    exact ⟨b1, k, by omega, h⟩
  · have hnext := readNext_short (c := c) hidle hav
    obtain ⟨b1, k, hk, hloop, hadv, hrest1⟩ := hready (b.flushRead c (max 4 4096)) fuel (by simpa using hidle)
      (by simpa using hrest) (le_available_flushRead (Nat.le_max_left _ _) hfour)
    refine ⟨b1, k, hk, ?_, ⟨(sameCore_flushRead _ _).trans hadv.core, hadv.idle, ?_⟩, hrest1⟩
    · rw [loadLoop_need hnext hfour, hloop, offset_flushRead]
    · rw [hadv.offset, offset_flushRead]

section

variable (hidle : b.input.readEvent = none)

include hidle

theorem loadLoop_torn (htorn : Torn c (b.rest c)) (fuel : Nat) :
    ∃ b1, loadLoop c (fuel + 2) b = .ok b1 ∧ SameCore b b1 ∧ b1.rest c = b.rest c := by
  obtain ⟨e, m, hfits, hm, hrest⟩ := htorn
  have hlen : (b.rest c).length = m := by rw [hrest]; simp; omega
  -- The size is there, the event is not.
  have hready : ∀ (b : Binlog) (fuel : Nat), b.input.readEvent = none → b.rest c = (e.raw c).take m →
      4 ≤ b.available.length → ∃ b1, loadLoop c (fuel + 1) b = .ok b1 ∧ SameCore b b1 ∧ b1.rest c = b.rest c := by
    intro b fuel hidle hrest hfour
    have hav := available_length_le c b
    have hlen : (b.rest c).length = m := by rw [hrest]; simp; omega
    have hsize : leNat (((e.raw c).take m).take 4) = e.size := by
      have := e.leNat_size c []
      rw [append_nil] at this
      rw [take_take, Nat.min_eq_left (by omega), this]
    have hnext : b.readNext c = .ok (.need e.size, b.waiting e.size) := by
      rw [readNext_eq hfits hidle hrest hfour hsize]
      unfold readNext readEvent
      rw [show (b.waiting e.size).input.readEvent = some e.size from rfl]
      dsimp only
      rw [if_pos (by rw [available_waiting]; omega)]
      rfl
    exact ⟨_, loadLoop_stop hnext (by rw [rest_waiting]; omega),
      (sameCore_waiting _ _).trans (sameCore_flushRead _ _), by rw [rest_flushRead, rest_waiting]⟩
  by_cases hav : 4 ≤ b.available.length
  · exact hready b (fuel + 1) hidle hrest hav
  · have hnext := readNext_short (c := c) hidle hav
    by_cases hfour : 4 ≤ m
    · obtain ⟨b1, hloop, hcore, hsame⟩ := hready (b.flushRead c (max 4 4096)) fuel (by simpa using hidle)
        (by simpa using hrest) (le_available_flushRead (Nat.le_max_left _ _) (by omega))
      exact ⟨b1, by rw [loadLoop_need hnext (by omega), hloop], (sameCore_flushRead _ _).trans hcore,
        by rw [hsame, rest_flushRead]⟩
    · exact ⟨_, loadLoop_stop hnext (by omega), sameCore_flushRead _ _, rest_flushRead _ _⟩

theorem loadLoop_tooBig (hbig : TooBig (b.rest c)) (fuel : Nat) :
    ∃ b1, loadLoop c (fuel + 2) b = .ok b1 ∧ SameCore b b1 ∧ b1.rest c = b.rest c := by
  have hready : ∀ (b : Binlog) (fuel : Nat), b.input.readEvent = none → TooBig (b.rest c) →
      4 ≤ b.available.length → loadLoop c (fuel + 1) b = .ok b := by
    intro b fuel hidle hbig hfour
    unfold loadLoop readNext
    rw [hidle]
    rw [if_neg (by omega), take_available (c := c) hfour, if_pos hbig.2]
    rfl
  by_cases hav : 4 ≤ b.available.length
  · exact ⟨b, hready b (fuel + 1) hidle hbig hav, ⟨rfl, rfl⟩, rfl⟩
  · have hnext := readNext_short (c := c) hidle hav
    refine ⟨_, ?_, sameCore_flushRead (max 4 4096) b, rest_flushRead _ _⟩
    rw [loadLoop_need hnext hbig.1]
    exact hready _ fuel (by simpa using hidle) (by simpa using hbig)
      (le_available_flushRead (Nat.le_max_left _ _) hbig.1)

/-- **The end of the log.** -/
theorem loadLoop_ends (hends : Ends c (b.rest c)) (fuel : Nat) :
    ∃ b1, loadLoop c (fuel + 2) b = .ok b1 ∧ SameCore b b1 ∧ b1.rest c = b.rest c :=
  hends.elim (fun h => loadLoop_torn hidle h fuel) fun h => loadLoop_tooBig hidle h fuel

end

/-! ## A whole log -/

/-- Adding an event leaves alone what is read from. -/
structure KeepsInput (b b1 : Binlog) : Prop where
  input : b1.input = b.input
  aesCtrState : b1.aesCtrState = b.aesCtrState
  byteFlowFlag : b1.byteFlowFlag = b.byteFlowFlag
  wrongPassword : b1.wrongPassword = false

theorem KeepsInput.rest (h : KeepsInput b b1) : b1.rest c = b.rest c := by
  unfold Binlog.rest
  rw [h.input, h.aesCtrState, h.byteFlowFlag]

/-- **The loop on a log.** What adding one event after the other keeps is
kept by the loop on the events' bytes. -/
theorem loadLoop_run {I : List LogEvent → Nat → Binlog → Prop}
    (stable : ∀ {es off b b1}, I es off b → SameCore b b1 → I es off b1)
    (step : ∀ {e es off b}, I (e :: es) off b → ∃ b1, b.doAddEvent c (readImage c e (off + e.size)) = .ok b1 ∧
      I es (off + e.size) b1 ∧ KeepsInput b b1) {es : List LogEvent} (hfits : Readable es)
    (hfuel : 3 * es.length + 2 ≤ fuel) (hidle : b.input.readEvent = none) (hrest : b.rest c = raws c es ++ tail)
    (hends : Ends c tail) (hI : I es b.input.offset b) :
    ∃ b1, loadLoop c fuel b = .ok b1 ∧ I [] (b.input.offset + (raws c es).length) b1 ∧ b1.rest c = tail := by
  induction es generalizing b fuel with
  | nil =>
    obtain ⟨fuel, rfl⟩ : ∃ m, fuel = m + 2 := ⟨fuel - 2, by omega⟩
    rw [raws_nil, nil_append] at hrest
    obtain ⟨b1, hloop, hcore, hsame⟩ := loadLoop_ends hidle (hrest ▸ hends) fuel
    exact ⟨b1, hloop, stable hI hcore, hsame.trans hrest⟩
  | cons e es ih =>
    rw [length_cons] at hfuel
    obtain ⟨fuel, rfl⟩ : ∃ m, fuel = m + 3 := ⟨fuel - 3, by omega⟩
    rw [raws_cons, append_assoc] at hrest
    obtain ⟨b1, k, hk, hloop, hadv, hrest1⟩ := loadLoop_event (hfits e (by simp)) hidle hrest fuel
    obtain ⟨b2, hadd, hI2, hkeeps⟩ := step (stable hI hadv.core)
    have hoff : b2.input.offset = b.input.offset + e.size := by rw [hkeeps.input, hadv.offset]
    obtain ⟨b3, hloop3, hI3, hrest3⟩ := ih (b := b2) (fun x hx => hfits x (by simp [hx]))
      (show 3 * es.length + 2 ≤ k by omega) (by rw [hkeeps.input, hadv.idle]) (by rw [hkeeps.rest, hrest1])
      (by rw [hoff]; exact hI2)
    refine ⟨b3, ?_, ?_, hrest3⟩
    · rw [hloop]
      unfold afterEvent
      rw [hadd]
      simp only [ok_bind, hkeeps.wrongPassword, Bool.false_eq_true, if_false]
      exact hloop3
    · rw [raws_cons, length_append, LogEvent.length_raw, ← Nat.add_assoc, ← hoff]
      exact hI3

end Tdlib.Db.Binlog
