/-
What the fast path of `fix_entities` lets through. `are_entities_valid` keeps the
entities around the current one on a stack and their types in a mask; a list that
it accepts has every two entities apart, or the second inside the first and of a
type that may stand there.
-/
import Tdlib.Text.MessageEntity

namespace Tdlib.Text

open List hiding pure_def
open MessageEntity Outcome

/-! ## The groups of types and their masks -/

theorem MessageEntityType.toNat_injective : Function.Injective MessageEntityType.toNat := by
  intro a b h
  have hidx : ∀ t : MessageEntityType, t.toNat = t.ctorIdx := by
    intro t
    cases t <;> rfl
  rw [hidx, hidx] at h
  rw [← MessageEntityType.ofNat_ctorIdx a, h, MessageEntityType.ofNat_ctorIdx]

variable {t : MessageEntityType}

theorem getEntityTypeMask_and {u : MessageEntityType} (h : t ≠ u) :
    getEntityTypeMask t &&& getEntityTypeMask u = 0 := by
  have hne : t.toNat ≠ u.toNat := fun heq => h (MessageEntityType.toNat_injective heq)
  refine BitVec.eq_of_getLsbD_eq fun i hi => ?_
  simp only [getEntityTypeMask, BitVec.getLsbD_and, BitVec.getLsbD_shiftLeft, BitVec.getLsbD_one, BitVec.ofNat_eq_ofNat,
    BitVec.getLsbD_zero, Bool.and_eq_false_iff, decide_eq_false_iff_not, Bool.not_eq_eq_eq_not, Bool.not_false,
    decide_eq_true_eq]
  omega

theorem type_cases (t : MessageEntityType) :
    isSplittableEntity t = true ∨ isBlockquoteEntity t = true ∨ isContinuousEntity t = true ∨ isPreEntity t = true := by
  cases t <;> decide

theorem not_splittable_of_blockquote (h : isBlockquoteEntity t = true) : isSplittableEntity t = false := by
  revert h
  cases t <;> decide

theorem not_splittable_of_pre (h : isPreEntity t = true) : isSplittableEntity t = false := by
  revert h
  cases t <;> decide

theorem not_splittable_of_continuous (h : isContinuousEntity t = true) : isSplittableEntity t = false := by
  revert h
  cases t <;> decide

theorem not_blockquote_of_pre (h : isPreEntity t = true) : isBlockquoteEntity t = false := by
  revert h
  cases t <;> decide

theorem not_blockquote_of_continuous (h : isContinuousEntity t = true) : isBlockquoteEntity t = false := by
  revert h
  cases t <;> decide

theorem not_pre_of_continuous (h : isContinuousEntity t = true) : isPreEntity t = false := by
  revert h
  cases t <;> decide

theorem mask_and_not_blockquote
    (h : getEntityTypeMask t &&& ~~~getBlockquoteEntitiesMask = 0) : isBlockquoteEntity t = true := by
  revert h
  cases t <;> decide

/-- What the mask is while no two of the entities have one type. -/
def stackMask : List MessageEntity → BitVec 32
  | [] => 0
  | top :: stack => stackMask stack + getEntityTypeMask top.type

variable {stack : List MessageEntity} {offset : Int} {entities : List MessageEntity}

theorem stackMask_and_eq_zero (htypes : (stack.map type).Nodup) {mask : BitVec 32} :
    stackMask stack &&& mask = 0 ↔ ∀ entity ∈ stack, getEntityTypeMask entity.type &&& mask = 0 := by
  induction stack generalizing mask with
  | nil => simp [stackMask]
  | cons top stack ih =>
    rw [map_cons, nodup_cons] at htypes
    -- the new bit is not in the mask, so the sum is the union
    have hbit : stackMask stack &&& getEntityTypeMask top.type = 0 :=
      (ih htypes.2).mpr fun entity hmem =>
        getEntityTypeMask_and fun heq => htypes.1 (mem_map.mpr ⟨entity, hmem, heq⟩)
    have hor : (stackMask stack ||| getEntityTypeMask top.type) &&& mask =
        stackMask stack &&& mask ||| getEntityTypeMask top.type &&& mask := by ext i; simp [Bool.and_or_distrib_right]
    simp_all [stackMask, BitVec.add_eq_or_of_and_eq_zero _ _ hbit, and_comm]

/-! ## The loop -/

/-- What an entity of a valid list may have inside: a blockquote everything but
blockquotes, and a continuous entity splittable ones. -/
def MayContain (outer inner : MessageEntityType) : Prop :=
  isBlockquoteEntity outer = true ∧ isBlockquoteEntity inner = false ∨
    isContinuousEntity outer = true ∧ isSplittableEntity inner = true

theorem MayContain.not_pre {outer inner : MessageEntityType} (h : MayContain outer inner) :
    isPreEntity outer = false := by
  rcases h with ⟨h, -⟩ | ⟨h, -⟩
  · by_contra hpre
    simp [not_blockquote_of_pre (Bool.not_eq_false _ ▸ hpre)] at h
  · exact not_pre_of_continuous h

/-- What a valid list has of `a` and a later `b`. -/
def Apart (a b : MessageEntity) : Prop :=
  a.endOffset ≤ b.offset ∨ b.endOffset ≤ a.endOffset ∧ MayContain a.type b.type

theorem mayContain_of_canBeNested {entity parent : MessageEntity}
    (htypes : ((parent :: stack).map type).Nodup) (hstack : ∀ d ∈ stack, isPreEntity d.type = false)
    (h : canBeNested entity parent (stackMask (parent :: stack)) = true) :
    entity.endOffset ≤ parent.endOffset ∧ ∀ d ∈ parent :: stack, d.type ≠ entity.type ∧
      MayContain d.type entity.type := by
  simp only [canBeNested, Bool.if_false_left, bne_iff_ne, ne_eq, Bool.not_eq_true', decide_eq_false_iff_not,
    Bool.and_eq_true, Bool.and_true, Bool.or_eq_true, not_and, not_not, stackMask_and_eq_zero htypes] at h
  obtain ⟨hend, hsame, hparent, hpre, hcont, hquote, hsplit⟩ := h
  refine ⟨by omega, fun d hd => ⟨?_, ?_⟩⟩
  · intro heq
    have := hsame d hd
    rw [heq] at this
    revert this
    cases entity.type <;> decide
  · have hnotpre : isPreEntity d.type = false := by
      rcases mem_cons.mp hd with rfl | hd
      · simpa using hparent
      · exact hstack d hd
    have hnotsplit : isSplittableEntity d.type = false := by simp [isSplittableEntity, hsplit d hd]
    rcases type_cases d.type with hd' | hd' | hd' | hd'
    · simp [hnotsplit] at hd'
    · refine .inl ⟨hd', Bool.eq_false_iff.mpr fun he => ?_⟩
      have := hquote he d hd
      simp [isBlockquoteEntity, this] at hd'
    · refine .inr ⟨hd', ?_⟩
      rcases type_cases entity.type with he | he | he | he
      · exact he
      · have := hcont (.inr he) d hd
        simp [isContinuousEntity, this] at hd'
      · have := hcont (.inl he) d hd
        simp [isContinuousEntity, this] at hd'
      · have := mask_and_not_blockquote (hpre he d hd)
        simp [not_blockquote_of_continuous hd'] at this
    · simp [hnotpre] at hd'

theorem popNestedEntities_spec (offset : Int) (stack : List MessageEntity) :
    ∃ popped left, stack = popped ++ left ∧ (∀ d ∈ popped, d.endOffset ≤ offset) ∧
      popNestedEntities offset stack (stackMask stack) = (left, stackMask left) := by
  induction stack with
  | nil => exact ⟨[], [], rfl, by simp, rfl⟩
  | cons top stack ih =>
    rw [popNestedEntities]
    split_ifs with hend
    · obtain ⟨popped, left, rfl, hpopped, heq⟩ := ih
      refine ⟨top :: popped, left, rfl, forall_mem_cons.mpr ⟨hend, hpopped⟩, ?_⟩
      rw [stackMask, BitVec.add_sub_cancel, heq]
    · exact ⟨[], top :: stack, rfl, by simp, rfl⟩

/-- The loop before an entity at `offset` or later, with the entities of `done` behind it. -/
structure Accepted (offset : Int) (done : List MessageEntity) (s : ValidState) : Prop where
  apart : done.Pairwise Apart
  nested : s.nestedEntitiesStack.Pairwise fun inner outer =>
    inner.endOffset ≤ outer.endOffset ∧ MayContain outer.type inner.type
  types : (s.nestedEntitiesStack.map type).Nodup
  mask : s.nestedEntityTypeMask = stackMask s.nestedEntitiesStack
  seen : ∀ d ∈ done, d ∈ s.nestedEntitiesStack ∨ d.endOffset ≤ offset

theorem Accepted.start (offset : Int) : Accepted offset [] {} :=
  ⟨List.Pairwise.nil, List.Pairwise.nil, nodup_nil, rfl, by simp⟩

theorem Accepted.step {done : List MessageEntity} {s s' : ValidState} {entity : MessageEntity}
    (h : Accepted offset done s) (hle : offset ≤ entity.offset)
    (hstep : areEntitiesValidStep s entity = .ok (some s')) : Accepted entity.offset (done ++ [entity]) s' := by
  obtain ⟨popped, left, hstack, hpopped, hpop⟩ := popNestedEntities_spec entity.offset s.nestedEntitiesStack
  rw [areEntitiesValidStep, h.mask, hpop] at hstep
  dsimp only at hstep
  have hnested := h.nested
  have htypes := h.types
  have hseen := h.seen
  rw [hstack] at hnested htypes hseen
  rw [map_append] at htypes
  -- what is left on the stack is around the entity and of types that may be
  have hinside : ∀ d ∈ left, entity.endOffset ≤ d.endOffset ∧ d.type ≠ entity.type ∧
      MayContain d.type entity.type := by
    cases left with
    | nil => simp
    | cons parent left =>
      have hleft := (pairwise_append.mp hnested).2.1
      split_ifs at hstep with hno <;> simp only [Bool.not_eq_true', Bool.not_eq_false, pure_def, reduceCtorEq,
        Outcome.ok.injEq] at hstep hno
      all_goals
        obtain ⟨hend, hall⟩ := mayContain_of_canBeNested (nodup_append'.mp htypes).2.1
          (fun d hd => ((pairwise_cons.mp hleft).1 d hd).2.not_pre) hno
        intro d hd
        refine ⟨?_, hall d hd⟩
        rcases mem_cons.mp hd with rfl | hd
        · exact hend
        · exact hend.trans ((pairwise_cons.mp hleft).1 d hd).1
  have hpush : s'.nestedEntitiesStack = entity :: left ∧
      s'.nestedEntityTypeMask = stackMask left + getEntityTypeMask entity.type := by
    split_ifs at hstep
    · cases hstep
    · rw [bind_ok_iff] at hstep
      obtain ⟨index, -, hstep⟩ := hstep
      split_ifs at hstep
      · cases hstep
      · cases hstep
        exact ⟨rfl, rfl⟩
    · cases hstep
      exact ⟨rfl, rfl⟩
  have hbefore : ∀ d ∈ done, d ∈ left ∨ d.endOffset ≤ entity.offset := by
    intro d hd
    rcases hseen d hd with hmem | hend
    · rcases mem_append.mp hmem with hmem | hmem
      · exact .inr (hpopped d hmem)
      · exact .inl hmem
    · exact .inr (hend.trans hle)
  refine ⟨?_, ?_, ?_, ?_, ?_⟩
  · refine pairwise_append.mpr ⟨h.apart, pairwise_singleton _ _, fun d hd e he => ?_⟩
    cases mem_singleton.mp he
    rcases hbefore d hd with hmem | hend
    · exact .inr ⟨(hinside d hmem).1, (hinside d hmem).2.2⟩
    · exact .inl hend
  · rw [hpush.1]
    exact pairwise_cons.mpr
      ⟨fun d hd => ⟨(hinside d hd).1, (hinside d hd).2.2⟩, (pairwise_append.mp hnested).2.1⟩
  · rw [hpush.1, map_cons, nodup_cons]
    refine ⟨fun hmem => ?_, (nodup_append'.mp htypes).2.1⟩
    obtain ⟨d, hd, heq⟩ := mem_map.mp hmem
    exact (hinside d hd).2.1 heq
  · rw [hpush.1, hpush.2, stackMask]
  · intro d hd
    rw [hpush.1]
    rcases mem_append.mp hd with hd | hd
    · exact (hbefore d hd).imp_left (mem_cons_of_mem _)
    · exact .inl (mem_cons.mpr (.inl (mem_singleton.mp hd)))

theorem Accepted.loop {done : List MessageEntity} {s : ValidState}
    (h : Accepted offset done s) (hoffset : ∀ entity ∈ entities, offset ≤ entity.offset)
    (hsorted : entities.Pairwise NotAfter) (hloop : areEntitiesValidLoop s entities = .ok true) :
    (done ++ entities).Pairwise Apart := by
  induction entities generalizing offset done s with
  | nil => simpa using h.apart
  | cons entity entities ih =>
    rw [areEntitiesValidLoop, bind_ok_iff] at hloop
    obtain ⟨s', hstep, hloop⟩ := hloop
    cases s' with
    | none => cases hloop
    | some s' =>
      rw [pairwise_cons] at hsorted
      have hnext := ih (h.step (hoffset entity (by simp)) hstep)
        (fun e he => (hsorted.1 e he).offset_le) hsorted.2 hloop
      rwa [append_assoc] at hnext

theorem apart_of_areEntitiesValid (hsorted : IsSorted entities)
    (h : areEntitiesValid entities = .ok true) : entities.Pairwise Apart := by
  cases entities with
  | nil => exact List.Pairwise.nil
  | cons entity entities =>
    rw [areEntitiesValid, checkIsSorted, check_true hsorted] at h
    rw [isSorted_iff_pairwise] at hsorted
    have hoffset : ∀ e ∈ entity :: entities, entity.offset ≤ e.offset := fun e he =>
      (mem_cons.mp he).elim (fun heq => heq ▸ le_refl _) fun he =>
        ((pairwise_cons.mp hsorted).1 e he).offset_le
    exact (Accepted.start entity.offset).loop hoffset hsorted h

/-! ## The loop returns -/

theorem getSplittableEntityTypeIndex_isOk (h : isSplittableEntity t = true) :
    ∃ index, getSplittableEntityTypeIndex t = .ok index := by
  revert h
  cases t <;> decide

theorem areEntitiesValidStep_isOk (s : ValidState) (entity : MessageEntity) :
    ∃ s', areEntitiesValidStep s entity = .ok s' := by
  rw [areEntitiesValidStep]
  dsimp only
  split_ifs with _ hsplit
  · exact ⟨_, rfl⟩
  · obtain ⟨index, hindex⟩ := getSplittableEntityTypeIndex_isOk hsplit
    rw [hindex, ok_bind]
    split_ifs <;> exact ⟨_, rfl⟩
  · exact ⟨_, rfl⟩

theorem areEntitiesValidLoop_isOk (s : ValidState) (entities : List MessageEntity) :
    ∃ valid, areEntitiesValidLoop s entities = .ok valid := by
  induction entities generalizing s with
  | nil => exact ⟨true, rfl⟩
  | cons entity entities ih =>
    obtain ⟨s', hstep⟩ := areEntitiesValidStep_isOk s entity
    rw [areEntitiesValidLoop, hstep, ok_bind]
    cases s' with
    | none => exact ⟨false, rfl⟩
    | some s' => exact ih s'

theorem areEntitiesValid_isOk (hsorted : IsSorted entities) : ∃ valid, areEntitiesValid entities = .ok valid := by
  rw [areEntitiesValid]
  split_ifs
  · exact ⟨true, rfl⟩
  · rw [checkIsSorted, check_true hsorted]
    exact areEntitiesValidLoop_isOk {} entities

end Tdlib.Text
