/-
What `fix_entities` leaves. Both of its paths end in a sorted list in which every
two entities are apart, or the second is inside the first and of a type that may
stand there: the fast path because `are_entities_valid` accepted the list, the slow
path because it removed what crosses and cut the splittable types into pieces.
-/
import Mathlib.Data.List.Pairwise
import Tdlib.Text.SplitEntities

namespace Tdlib.Text

open List hiding pure_def
open MessageEntity Piece Outcome

/-! ## Removal of entities that intersect -/

variable {entity a b : MessageEntity} {entities : List MessageEntity}

theorem removeIntersectingLoop_spec (last : Int) (hlength : ∀ entity ∈ entities, 0 < entity.length) :
    ∃ left, removeIntersectingLoop last entities = .ok left ∧ left.Sublist entities ∧
      (∀ entity ∈ left, last ≤ entity.offset) ∧ left.Pairwise fun a b => a.endOffset ≤ b.offset := by
  induction entities generalizing last with
  | nil => exact ⟨[], rfl, .slnil, by simp, List.Pairwise.nil⟩
  | cons entity entities ih =>
    rw [forall_mem_cons] at hlength
    rw [removeIntersectingLoop, check_true hlength.1, ok_bind]
    split_ifs with hoffset
    · obtain ⟨left, hloop, hsub, hleft, hpairwise⟩ := ih entity.endOffset hlength.2
      rw [hloop]
      refine ⟨entity :: left, rfl, hsub.cons_cons entity, forall_mem_cons.mpr ⟨hoffset, fun e he => ?_⟩,
        pairwise_cons.mpr ⟨hleft, hpairwise⟩⟩
      have := hleft e he
      simp only [endOffset] at this
      omega
    · obtain ⟨left, hloop, hsub, hleft⟩ := ih last hlength.2
      exact ⟨left, hloop, hsub.cons entity, hleft⟩

/-- Nothing is removed from entities that do not intersect. -/
theorem removeIntersectingLoop_of_pairwise {last : Int}
    (hlength : ∀ entity ∈ entities, 0 < entity.length) (hlast : ∀ entity ∈ entities, last ≤ entity.offset)
    (hpairwise : entities.Pairwise fun a b => a.endOffset ≤ b.offset) :
    removeIntersectingLoop last entities = .ok entities := by
  induction entities generalizing last with
  | nil => rfl
  | cons entity entities ih =>
    rw [forall_mem_cons] at hlength hlast
    rw [pairwise_cons] at hpairwise
    rw [removeIntersectingLoop, check_true hlength.1, ok_bind, if_pos hlast.1,
      ih hlength.2 hpairwise.1 hpairwise.2]
    rfl

section

variable (hsorted : IsSorted entities) (hlength : ∀ entity ∈ entities, 0 < entity.length)

include hsorted hlength

theorem removeIntersectingEntities_spec :
    ∃ left, removeIntersectingEntities entities = .ok left ∧ left.Sublist entities ∧
      left.Pairwise fun a b => a.endOffset ≤ b.offset := by
  obtain ⟨left, hloop, hsub, -, hpairwise⟩ := removeIntersectingLoop_spec 0 hlength
  refine ⟨left, ?_, hsub, hpairwise⟩
  rw [removeIntersectingEntities, checkIsSorted, check_true hsorted, ok_bind, hloop]

theorem removeIntersectingEntities_of_pairwise (hoffset : ∀ entity ∈ entities, 0 ≤ entity.offset)
    (hpairwise : entities.Pairwise fun a b => a.endOffset ≤ b.offset) :
    removeIntersectingEntities entities = .ok entities := by
  rw [removeIntersectingEntities, checkIsSorted, check_true hsorted, ok_bind,
    removeIntersectingLoop_of_pairwise hlength hoffset hpairwise]

end

/-- What is left of `entity` and a blockquote. -/
def Clear (entity blockquote : MessageEntity) : Prop :=
  blockquote.endOffset ≤ entity.offset ∨ entity.endOffset ≤ blockquote.offset ∨
    blockquote.offset ≤ entity.offset ∧ entity.endOffset ≤ blockquote.endOffset

variable {blockquotes : List MessageEntity}

theorem nextBlockquotes_spec (offset : Int) (htype : ∀ b ∈ blockquotes, isBlockquoteEntity b.type = true) :
    ∃ passed, blockquotes = passed ++ nextBlockquotes offset blockquotes ∧ (∀ b ∈ passed, b.endOffset ≤ offset) ∧
      ∀ b ∈ (nextBlockquotes offset blockquotes).head?, offset < b.endOffset := by
  induction blockquotes with
  | nil => exact ⟨[], rfl, by simp, by simp [nextBlockquotes]⟩
  | cons b blockquotes ih =>
    rw [forall_mem_cons] at htype
    simp only [nextBlockquotes, htype.1, Bool.not_true, Bool.false_or, decide_eq_true_eq]
    split_ifs with hend
    · obtain ⟨passed, heq, hpassed, hhead⟩ := ih htype.2
      exact ⟨b :: passed, by rw [cons_append, ← heq], forall_mem_cons.mpr ⟨hend, hpassed⟩, hhead⟩
    · exact ⟨[], rfl, by simp, by simp; omega⟩

theorem intersectsBlockquote_eq_false {blockquote : MessageEntity}
    (hend : entity.offset < blockquote.endOffset) (hlength : 0 < blockquote.length) :
    intersectsBlockquote entity blockquote = false ↔ Clear entity blockquote := by
  simp only [intersectsBlockquote, Clear, Bool.or_eq_false_iff, Bool.and_eq_false_iff, decide_eq_false_iff_not]
  simp only [endOffset] at *
  omega

/-- One pass over both lists, each in order. The blockquotes that were passed ended
before the entity at hand and so before all that follow. -/
theorem removeIntersectingBlockquoteLoop_spec (blockquotes : List MessageEntity)
    (htype : ∀ b ∈ blockquotes, isBlockquoteEntity b.type = true)
    (hblock : blockquotes.Pairwise fun a b => a.endOffset ≤ b.offset) (hlength : ∀ b ∈ blockquotes, 0 < b.length)
    (hpositive : ∀ entity ∈ entities, 0 < entity.length)
    (hentities : entities.Pairwise fun a b => a.endOffset ≤ b.offset) :
    (removeIntersectingBlockquoteLoop blockquotes entities).Sublist entities ∧
      (∀ entity ∈ removeIntersectingBlockquoteLoop blockquotes entities, ∀ b ∈ blockquotes, Clear entity b) ∧
      ((∀ entity ∈ entities, ∀ b ∈ blockquotes, Clear entity b) →
        removeIntersectingBlockquoteLoop blockquotes entities = entities) := by
  induction entities generalizing blockquotes with
  | nil => exact ⟨.slnil, by simp [removeIntersectingBlockquoteLoop], fun _ => rfl⟩
  | cons entity entities ih =>
    rw [forall_mem_cons] at hpositive
    rw [pairwise_cons] at hentities
    obtain ⟨passed, heq, hpassed, hhead⟩ := nextBlockquotes_spec entity.offset htype
    -- the blockquotes passed here are behind all entities that follow
    have hbehind : ∀ e ∈ entity :: entities, ∀ b ∈ passed, Clear e b := by
      intro e he b hb
      have hb := hpassed b hb
      rcases mem_cons.mp he with rfl | he
      · exact .inl hb
      · have := hentities.1 e he
        simp only [endOffset] at this hb
        exact .inl (by simp only [endOffset]; omega)
    rw [removeIntersectingBlockquoteLoop]
    generalize nextBlockquotes entity.offset blockquotes = next at heq hhead
    subst heq
    cases next with
    | nil =>
      obtain ⟨hsub, hclear, hall⟩ := ih [] (by simp) List.Pairwise.nil (by simp) hpositive.2 hentities.2
      refine ⟨hsub.cons_cons entity, fun e he b hb => ?_, fun h => by rw [hall (by simp)]⟩
      rw [append_nil] at hb
      rcases mem_cons.mp he with rfl | he
      · exact hbehind e (by simp) b hb
      · exact hbehind e (mem_cons_of_mem _ (hsub.subset he)) b hb
    | cons blockquote next =>
      have hnext := pairwise_append.mp hblock
      have hlt : entity.offset < blockquote.endOffset := hhead blockquote (by simp)
      have hlen : 0 < blockquote.length := hlength blockquote (by simp)
      obtain ⟨hsub, hclear, hall⟩ := ih (blockquote :: next)
        (fun b hb => htype b (mem_append_right _ hb)) hnext.2.1
        (fun b hb => hlength b (mem_append_right _ hb)) hpositive.2 hentities.2
      dsimp only
      by_cases hbad : intersectsBlockquote entity blockquote = true
      · rw [if_pos hbad]
        refine ⟨hsub.cons entity, fun e he b hb => ?_, fun h => ?_⟩
        · rcases mem_append.mp hb with hb | hb
          · exact hbehind e (mem_cons_of_mem _ (hsub.subset he)) b hb
          · exact hclear e he b hb
        · have := (intersectsBlockquote_eq_false hlt hlen).mpr (h entity (by simp) blockquote (by simp))
          simp [this] at hbad
      · rw [if_neg hbad]
        have hfirst := (intersectsBlockquote_eq_false hlt hlen).mp (by simpa using hbad)
        refine ⟨hsub.cons_cons entity, fun e he b hb => ?_, fun h => ?_⟩
        · rcases mem_append.mp hb with hb | hb
          · refine hbehind e ?_ b hb
            rcases mem_cons.mp he with rfl | he
            · simp
            · exact mem_cons_of_mem _ (hsub.subset he)
          · rcases mem_cons.mp he with rfl | he
            · rcases mem_cons.mp hb with rfl | hb
              · exact hfirst
              · -- a later blockquote begins after the one that the entity does not reach past
                have horder := (pairwise_cons.mp hnext.2.1).1 b hb
                unfold Clear at hfirst ⊢
                simp only [endOffset] at *
                omega
            · exact hclear e he b hb
        · rw [hall fun e he b hb => h e (mem_cons_of_mem _ he) b (mem_append_right _ hb)]

theorem removeEntitiesIntersectingBlockquote_eq (hentities : entities.Pairwise fun a b => a.endOffset ≤ b.offset)
    (hblock : blockquotes.Pairwise fun a b => a.endOffset ≤ b.offset) :
    removeEntitiesIntersectingBlockquote entities blockquotes =
      .ok (removeIntersectingBlockquoteLoop blockquotes entities) := by
  rw [removeEntitiesIntersectingBlockquote, checkNonIntersecting, checkNonIntersecting,
    check_true hentities.isChain, check_true hblock.isChain, ok_bind, ok_bind]
  cases blockquotes with
  | nil =>
    have hnone : ∀ entities : List MessageEntity, removeIntersectingBlockquoteLoop [] entities = entities := by
      intro entities
      induction entities with
      | nil => rfl
      | cons entity entities ih => rw [removeIntersectingBlockquoteLoop, nextBlockquotes, ih]
    rw [hnone]
    rfl
  | cons => rfl

/-! ## Entities that stand together -/

/-- The types that a fixed list may have inside each other. A splittable entity has
others inside only where they begin together. -/
def MayStand (outer inner : MessageEntityType) : Prop :=
  MayContain outer inner ∨
    isSplittableEntity outer = true ∧ outer ≠ inner ∧
      (isSplittableEntity inner = true ∨ isContinuousEntity inner = true)

/-- What a fixed list has of `a` and a later `b`. -/
def Consistent (a b : MessageEntity) : Prop :=
  a.endOffset ≤ b.offset ∨ a.offset ≤ b.offset ∧ b.endOffset ≤ a.endOffset ∧ MayStand a.type b.type

theorem getTypePriority_eq_zero {t : MessageEntityType} : t.getTypePriority = 0 ↔ isBlockquoteEntity t = true := by
  cases t <;> decide

/-- Entities of one extent are sorted by type, which keeps what may stand inside second. -/
theorem MayStand.swap {t u : MessageEntityType} (h : MayStand u t) (hpriority : t.getTypePriority ≤ u.getTypePriority) :
    MayStand t u := by
  rcases h with (⟨hu, ht⟩ | ⟨hu, ht⟩) | ⟨hu, hne, ht | ht⟩
  · simp [getTypePriority_eq_zero.mpr hu, getTypePriority_eq_zero, ht] at hpriority
  · refine .inr ⟨ht, fun heq => ?_, .inr hu⟩
    rw [heq, not_splittable_of_continuous hu] at ht
    cases ht
  · exact .inr ⟨ht, hne.symm, .inl hu⟩
  · exact .inl (.inr ⟨ht, hu⟩)

theorem Consistent.of_sorted (hsorted : NotAfter a b) (hb : 0 < b.length)
    (h : Consistent a b ∨ Consistent b a) : Consistent a b := by
  refine h.elim id fun h => ?_
  rw [notAfter_iff] at hsorted
  rcases h with hend | ⟨hoffset, hend, htype⟩
  · simp only [endOffset] at hend
    omega
  · have hsame : a.offset = b.offset ∧ a.length = b.length ∧ a.type.getTypePriority ≤ b.type.getTypePriority := by
      simp only [endOffset] at hend
      omega
    refine .inr ⟨hsame.1.le, ?_, htype.swap hsame.2.2⟩
    simp only [endOffset]
    omega

/-- The order is the only thing that sorting adds. -/
theorem pairwise_consistent_of_perm {result : List MessageEntity} (hperm : result.Perm entities)
    (hsorted : IsSorted result) (hlength : ∀ entity ∈ entities, 0 < entity.length)
    (h : entities.Pairwise fun a b => Consistent a b ∨ Consistent b a) : result.Pairwise Consistent := by
  have hboth : result.Pairwise fun a b => NotAfter a b ∧ (Consistent a b ∨ Consistent b a) :=
    (isSorted_iff_pairwise.mp hsorted).and ((hperm.pairwise_iff fun h => h.symm).mpr h)
  exact hboth.imp_of_mem fun _ hb hab => Consistent.of_sorted hab.1 (hlength _ (hperm.mem_iff.mp hb)) hab.2

theorem Apart.consistent (h : Apart a b) (hsorted : NotAfter a b) : Consistent a b :=
  h.imp_right fun h => ⟨hsorted.offset_le, h.1, .inl h.2⟩

/-! ## The slow path -/

/-- What the checks of `fix_formatted_text` leave of an entity. -/
structure InRange (entity : MessageEntity) : Prop where
  offset_nonneg : 0 ≤ entity.offset
  offset_le : entity.offset ≤ 1000000
  length_pos : 1 ≤ entity.length
  length_le : entity.length ≤ 1000000

/-- All that the slow path needs to know of an entity. -/
structure Placed (entity : MessageEntity) : Prop where
  offset_nonneg : 0 ≤ entity.offset
  length_pos : 0 < entity.length
  endOffset_lt : entity.endOffset < maxInt32

theorem InRange.placed (h : InRange entity) : Placed entity where
  offset_nonneg := h.offset_nonneg
  length_pos := h.length_pos
  endOffset_lt := by
    have := h.offset_le
    have := h.length_le
    simp only [endOffset, maxInt32]
    omega

section

variable {entities others continuous blockquotes result : List MessageEntity}

theorem fixOtherEntities_spec (std : StdSort) (hcontinuous : IsSorted continuous) (hblockquotes : IsSorted blockquotes)
    (hlength : ∀ entity, entity ∈ continuous ∨ entity ∈ blockquotes → 0 < entity.length)
    (hnot : ∀ entity ∈ continuous, isBlockquoteEntity entity.type = false)
    (htype : ∀ entity ∈ blockquotes, isBlockquoteEntity entity.type = true) :
    ∃ others, fixOtherEntities std continuous blockquotes = .ok others ∧ IsSorted others ∧
      others.Pairwise Consistent ∧ ∀ entity ∈ others, entity ∈ continuous ∨ entity ∈ blockquotes := by
  obtain ⟨cs, hcs, hcsub, hcpairwise⟩ := removeIntersectingEntities_spec hcontinuous fun e he => hlength e (.inl he)
  obtain ⟨bs, hbs, hbsub, hbpairwise⟩ := removeIntersectingEntities_spec hblockquotes fun e he => hlength e (.inr he)
  rw [fixOtherEntities, hcs, ok_bind]
  split_ifs with hempty
  · exact ⟨cs, rfl, hcontinuous.sublist hcsub, hcpairwise.imp .inl, fun e he => .inl (hcsub.subset he)⟩
  · obtain ⟨hsub, hclear, -⟩ := removeIntersectingBlockquoteLoop_spec _ (fun b hb => htype b (hbsub.subset hb))
      hbpairwise
      (fun b hb => hlength b (.inr (hbsub.subset hb))) (fun e he => hlength e (.inl (hcsub.subset he))) hcpairwise
    rw [hbs, ok_bind, removeEntitiesIntersectingBlockquote_eq hcpairwise hbpairwise, ok_bind,
      pure_def]
    generalize removeIntersectingBlockquoteLoop bs cs = kept at hsub hclear
    have hmem : ∀ entity ∈ kept ++ bs, entity ∈ continuous ∨ entity ∈ blockquotes := fun e he =>
      (mem_append.mp he).imp (fun he => hcsub.subset (hsub.subset he)) fun he => hbsub.subset he
    refine ⟨_, rfl, isSorted_sortEntities std _, ?_, fun e he => hmem e (mem_sortEntities.mp he)⟩
    refine pairwise_consistent_of_perm (sortEntities_perm std _) (isSorted_sortEntities std _)
      (fun e he => hlength e (hmem e he)) ?_
    refine pairwise_append.mpr ⟨(hcpairwise.sublist hsub).imp fun h => .inl (.inl h),
      hbpairwise.imp fun h => .inl (.inl h), fun entity hentity b hb => ?_⟩
    rcases hclear entity hentity b hb with hend | hend | ⟨hoffset, hend⟩
    · exact .inr (.inl hend)
    · exact .inl (.inl hend)
    · exact .inr (.inr ⟨hoffset, hend, .inl (.inl ⟨htype b (hbsub.subset hb),
        hnot entity (hcsub.subset (hsub.subset hentity))⟩)⟩)

/-- A list made of entities that were kept and pieces of the splittable types. -/
structure Rebuilt (entities others result : List MessageEntity) (ps : List (Piece SplittableIndex)) : Prop where
  sorted : IsSorted result
  perm : result.Perm (others ++ ps.map pieceEntity)
  others_sorted : IsSorted others
  others_consistent : others.Pairwise Consistent
  others_mem : ∀ entity ∈ others, entity ∈ entities
  others_type : ∀ entity ∈ others, isSplittableEntity entity.type = false
  cuts : Cuts (keptCovers entities others) (cutPoints entities others) 0 maxInt32 ps

theorem Nest.of_consistent (h : Consistent a b) (htype : isSplittableEntity a.type = false) : Nest a b := by
  rcases h with hend | ⟨-, hend, hstand | ⟨hsplit, -⟩⟩
  · exact .inl hend
  · exact .inr ⟨hend, hstand.not_pre⟩
  · simp [htype] at hsplit

theorem others_of_consistent (hsorted : IsSorted others) (hconsistent : others.Pairwise Consistent)
    (htype : ∀ entity ∈ others, isSplittableEntity entity.type = false) (hplaced : ∀ entity ∈ others, Placed entity) :
    Others others where
  sorted := (isSorted_iff_pairwise.mp hsorted).imp NotAfter.offset_le
  nest := hconsistent.imp_of_mem fun ha _ h => Nest.of_consistent h (htype _ ha)
  offset q hq := (hplaced q hq).offset_nonneg
  length q hq := (hplaced q hq).length_pos
  bound q hq := (hplaced q hq).endOffset_lt

theorem splittable_splittablePart (hsorted : IsSorted entities) (hplaced : ∀ entity ∈ entities, Placed entity) :
    Splittable (splittablePart entities) where
  sorted := ((isSorted_iff_pairwise.mp hsorted).imp NotAfter.offset_le).filter _
  type _ he := (mem_filter.mp he).2
  offset e he := (hplaced e (mem_filter.mp he).1).offset_nonneg
  length e he := (hplaced e (mem_filter.mp he).1).length_pos

theorem covers_splittablePart (entities : List MessageEntity) : covers (splittablePart entities) = covers entities := by
  funext index
  ext x
  simp only [covers, splittablePart, Set.mem_ofPred_eq, mem_filter]
  constructor
  · rintro ⟨e, ⟨he, -⟩, hx⟩
    exact ⟨e, he, hx⟩
  · rintro ⟨e, he, htype, hx⟩
    exact ⟨e, ⟨he, by simp [htype]⟩, htype, hx⟩

theorem mem_blockquotePart : entity ∈ blockquotePart entities ↔
    entity ∈ entities ∧ isSplittableEntity entity.type = false ∧ isBlockquoteEntity entity.type = true := by
  simp [blockquotePart]

theorem mem_continuousPart : entity ∈ continuousPart entities ↔
    entity ∈ entities ∧ isSplittableEntity entity.type = false ∧ isBlockquoteEntity entity.type = false := by
  simp [continuousPart]

/-- `resplit_entities` puts the pieces of the splittable entities beside the others. -/
theorem resplitEntities_spec (std : StdSort) (hothers : Others others) (hothersSorted : IsSorted others)
    (hsorted : IsSorted entities)
    (hin : Splittable entities) : ∃ result ps, resplitEntities std entities others = .ok result ∧ IsSorted result ∧
      result.Perm (others ++ ps.map pieceEntity) ∧
      Cuts (keptCovers entities others) (cutPoints entities others) 0 maxInt32 ps := by
  rw [resplitEntities]
  by_cases hempty : entities.isEmpty = true
  · cases List.isEmpty_iff.mp hempty
    exact ⟨others, [], rfl, hothersSorted, by simp, .nil fun i x _ _ hx => by simp [keptCovers, covers] at hx⟩
  · obtain ⟨s, ps, hloop, hresult, hcuts⟩ := splitLoop_cuts hin hothers
    rw [if_neg hempty, splitEntities, checkIsSorted, checkIsSorted, check_true hsorted,
      check_true hothersSorted, ok_bind, ok_bind, hloop, ok_bind, hresult,
      pure_def, ok_bind]
    by_cases hnone : others.isEmpty = true
    · cases List.isEmpty_iff.mp hnone
      exact ⟨_, ps, rfl, isSorted_sortEntities std _, sortEntities_perm std _, hcuts⟩
    · rw [if_neg hnone]
      exact ⟨_, ps, rfl, isSorted_sortEntities std _,
        (sortEntities_perm std _).trans ((sortEntities_perm std _).append_left others), hcuts⟩

/-- The slow path puts the pieces beside what `fixOtherEntities` leaves. -/
theorem fixSortedEntities_spec (std : StdSort) (hsorted : IsSorted entities)
    (hplaced : ∀ entity ∈ entities, Placed entity) :
    ∃ others ps result, fixOtherEntities std (continuousPart entities) (blockquotePart entities) = .ok others ∧
      fixSortedEntities std entities = .ok result ∧ Rebuilt entities others result ps := by
  have hcontinuous : IsSorted (continuousPart entities) := hsorted.filter _
  have hblockquotes : IsSorted (blockquotePart entities) := hsorted.filter _
  obtain ⟨others, hothers, hothersSorted, hconsistent, hmem⟩ := fixOtherEntities_spec std
    hcontinuous hblockquotes
    (fun e he => (hplaced e (he.elim (fun he => (mem_continuousPart.mp he).1) fun he =>
      (mem_blockquotePart.mp he).1)).length_pos)
    (fun e he => (mem_continuousPart.mp he).2.2) fun e he => (mem_blockquotePart.mp he).2.2
  simp only [mem_continuousPart, mem_blockquotePart] at hmem
  have hmem' : ∀ entity ∈ others, entity ∈ entities := fun e he => (hmem e he).elim And.left And.left
  have htype : ∀ entity ∈ others, isSplittableEntity entity.type = false := fun e he =>
    (hmem e he).elim (fun h => h.2.1) fun h => h.2.1
  have hsplittable : IsSorted (splittablePart entities) := hsorted.filter _
  obtain ⟨result, ps, hresplit, hresultSorted, hperm, hcuts⟩ := resplitEntities_spec std
    (others_of_consistent hothersSorted hconsistent htype fun e he => hplaced e (hmem' e he)) hothersSorted
    hsplittable (splittable_splittablePart hsorted hplaced)
  refine ⟨others, ps, result, hothers, ?_, hresultSorted, hperm, hothersSorted, hconsistent, hmem', htype, ?_⟩
  · simp [fixSortedEntities, hothers, hresplit, checkIsSorted, check_true hresultSorted, pure_def]
  · unfold keptCovers cutPoints at hcuts ⊢
    rwa [covers_splittablePart] at hcuts

theorem pairwise_pieces {ps : List (Piece SplittableIndex)} {C : SplittableIndex → Set ℤ} {K : Set ℤ} {a b : ℤ}
    (h : Cuts C K a b ps) : (ps.map pieceEntity).Pairwise fun p q => Consistent p q ∨ Consistent q p := by
  rw [pairwise_map]
  refine h.nodup.imp_of_mem fun {p q} hp hq hne => ?_
  unfold Consistent
  rw [pieceEntity_endOffset, pieceEntity_endOffset]
  rcases (h.sound p hp).apart (h.sound q hq) hne with hlt | hlt | ⟨hfirst, hindex⟩
  · exact .inl (.inl hlt)
  · exact .inr (.inl hlt)
  · -- two types that begin together: the longer one is outside
    have htype : splittableType p.index ≠ splittableType q.index := fun heq => hindex (splittableType_injective heq)
    rcases le_total q.last p.last with hle | hle
    · exact .inl (.inr ⟨hfirst.le, hle, .inr ⟨by simp, htype, .inl (by simp)⟩⟩)
    · exact .inr (.inr ⟨hfirst.ge, hle, .inr ⟨by simp, htype.symm, .inl (by simp)⟩⟩)

variable {ps : List (Piece SplittableIndex)}

section

variable (h : Rebuilt entities others result ps)

include h

theorem Rebuilt.length_pos (hplaced : ∀ entity ∈ entities, Placed entity) :
    ∀ entity ∈ others ++ ps.map pieceEntity, 0 < entity.length := by
  intro e he
  rcases mem_append.mp he with he | he
  · exact (hplaced e (h.others_mem e he)).length_pos
  · obtain ⟨p, hp, rfl⟩ := mem_map.mp he
    have := (h.cuts.sound p hp).lt
    rw [pieceEntity_length]
    omega

theorem Rebuilt.consistent (hplaced : ∀ entity ∈ entities, Placed entity) : result.Pairwise Consistent := by
  refine pairwise_consistent_of_perm h.perm h.sorted (h.length_pos hplaced) ?_
  refine pairwise_append.mpr ⟨h.others_consistent.imp .inl, pairwise_pieces h.cuts, fun q hq e he => ?_⟩
  obtain ⟨p, hp, rfl⟩ := mem_map.mp he
  have hpiece := h.cuts.sound p hp
  unfold Consistent
  rw [pieceEntity_endOffset]
  rcases hpiece.apart_of_mem (.inl (.inr ⟨q, hq, .inl rfl⟩)) (.inl (.inr ⟨q, hq, .inr rfl⟩)) with
    hlt | hlt | ⟨hfirst, hlast⟩
  · exact .inr (.inl hlt)
  · exact .inl (.inl hlt)
  · refine .inl (.inr ⟨hfirst, hlast, .inl ?_⟩)
    have hsplit : isSplittableEntity (pieceEntity p).type = true := by simp
    have hnot := h.others_type q hq
    rcases type_cases q.type with hq' | hq' | hq' | hq'
    · simp [hnot] at hq'
    · refine .inl ⟨hq', Bool.eq_false_iff.mpr fun hblock => ?_⟩
      rw [not_splittable_of_blockquote hblock] at hsplit
      cases hsplit
    · exact .inr ⟨hq', hsplit⟩
    · have := hpiece.lt
      exact absurd ⟨q, hq, hq', hfirst, by omega⟩ (hpiece.sub _ hpiece.has_first).2

theorem Rebuilt.mem_result : entity ∈ result ↔ entity ∈ others ∨ ∃ p ∈ ps, pieceEntity p = entity := by
  rw [h.perm.mem_iff, mem_append, mem_map]

theorem Rebuilt.mem_others (hmem : entity ∈ result)
    (htype : isSplittableEntity entity.type = false) : entity ∈ others := by
  rcases h.mem_result.mp hmem with hmem | ⟨p, -, rfl⟩
  · exact hmem
  · simp at htype

theorem Rebuilt.mem_inPre {x : ℤ} : x ∈ inPre others ↔ x ∈ inPre result := by
  constructor
  · rintro ⟨q, hq, hpre, hx⟩
    exact ⟨q, h.mem_result.mpr (.inl hq), hpre, hx⟩
  · rintro ⟨q, hq, hpre, hx⟩
    exact ⟨q, h.mem_others hq (not_splittable_of_pre hpre), hpre, hx⟩

theorem Rebuilt.covers_result (hplaced : ∀ entity ∈ entities, Placed entity)
    (index : SplittableIndex) : covers result index = keptCovers entities others index := by
  ext x
  constructor
  · rintro ⟨e, he, htype, hx⟩
    rcases h.mem_result.mp he with he | ⟨p, hp, rfl⟩
    · have := h.others_type e he
      simp [htype] at this
    · cases splittableType_injective htype
      rw [pieceEntity_endOffset] at hx
      exact (h.cuts.sound p hp).sub x hx
  · intro hx
    obtain ⟨e, he, -, hoffset, hend⟩ := hx.1
    have hnonneg := (hplaced e he).offset_nonneg
    have hmax := (hplaced e he).endOffset_lt
    obtain ⟨p, hp, rfl, hhas⟩ := h.cuts.complete index x (by omega) (by omega) hx
    refine ⟨pieceEntity p, h.mem_result.mpr (.inr ⟨p, hp, rfl⟩), rfl, ?_⟩
    rw [pieceEntity_endOffset]
    exact hhas

end

end

/-! ## The result -/

namespace MessageEntity

def Within (inner outer : MessageEntity) : Prop := outer.offset ≤ inner.offset ∧ inner.endOffset ≤ outer.endOffset

def Separate (a b : MessageEntity) : Prop := a.endOffset ≤ b.offset ∨ b.endOffset ≤ a.offset

def Has (entity : MessageEntity) (x : Int) : Prop := entity.offset ≤ x ∧ x < entity.endOffset

end MessageEntity

/-- What `fix_entities` makes of its input. -/
structure Fixed (input result : List MessageEntity) : Prop where
  sorted : IsSorted result
  nested : result.Pairwise fun a b => Within a b ∨ Within b a ∨ Separate a b
  splittable : result.Pairwise fun a b => isSplittableEntity a.type = true → a.type = b.type → Separate a b
  continuous : result.Pairwise fun a b =>
    isContinuousEntity a.type = true → isContinuousEntity b.type = true → Separate a b
  blockquote : result.Pairwise fun a b =>
    isBlockquoteEntity a.type = true → isBlockquoteEntity b.type = true → Separate a b
  /-- Nothing is inside a `Pre`, but a blockquote around it may have its extent. -/
  pre : result.Pairwise fun a b => (isPreEntity a.type = true → ¬ Within b a) ∧
    (isPreEntity b.type = true → Within a b → isBlockquoteEntity a.type = true ∧ Within b a)
  kept : ∀ entity ∈ result, isSplittableEntity entity.type = false → entity ∈ input
  coverage : ∀ type, isSplittableEntity type = true → ∀ x,
    (∃ entity ∈ result, entity.type = type ∧ entity.Has x) ↔
      (∃ entity ∈ input, entity.type = type ∧ entity.Has x) ∧
        ¬ ∃ entity ∈ result, isPreEntity entity.type = true ∧ entity.Has x

section

variable {a b : MessageEntity} {t u : MessageEntityType}

theorem not_mayStand_self (ht : isSplittableEntity t = true) : ¬ MayStand t t := by
  rintro ((⟨hblock, -⟩ | ⟨hcont, -⟩) | ⟨-, hne, -⟩)
  · simp [not_splittable_of_blockquote hblock] at ht
  · simp [not_splittable_of_continuous hcont] at ht
  · exact hne rfl

theorem not_mayStand_of_continuous (ht : isContinuousEntity t = true) (hu : isContinuousEntity u = true) :
    ¬ MayStand t u := by
  rintro ((⟨hblock, -⟩ | ⟨-, hsplit⟩) | ⟨hsplit, -⟩)
  · simp [not_blockquote_of_continuous ht] at hblock
  · simp [not_splittable_of_continuous hu] at hsplit
  · simp [not_splittable_of_continuous ht] at hsplit

theorem not_mayStand_of_blockquote (ht : isBlockquoteEntity t = true) (hu : isBlockquoteEntity u = true) :
    ¬ MayStand t u := by
  rintro ((⟨-, hblock⟩ | ⟨-, hsplit⟩) | ⟨hsplit, -⟩)
  · simp [hu] at hblock
  · simp [not_splittable_of_blockquote hu] at hsplit
  · simp [not_splittable_of_blockquote ht] at hsplit

theorem not_mayStand_of_pre (ht : isPreEntity t = true) : ¬ MayStand t u := by
  rintro (hcontain | ⟨hsplit, -⟩)
  · simp [hcontain.not_pre] at ht
  · simp [not_splittable_of_pre ht] at hsplit

/-- Only a blockquote is around a `Pre`. -/
theorem MayStand.blockquote_of_pre (h : MayStand t u) (hu : isPreEntity u = true) : isBlockquoteEntity t = true := by
  rcases h with (⟨hblock, -⟩ | ⟨-, hsplit⟩) | ⟨-, -, hsplit | hcont⟩
  · exact hblock
  · simp [not_splittable_of_pre hu] at hsplit
  · simp [not_splittable_of_pre hu] at hsplit
  · simp [not_pre_of_continuous hcont] at hu

theorem Consistent.separate (h : Consistent a b) (hnot : ¬ MayStand a.type b.type) : Separate a b :=
  .inl (h.resolve_right fun h => hnot h.2.2)

theorem Consistent.nested (h : Consistent a b) : Within a b ∨ Within b a ∨ Separate a b :=
  h.elim (fun h => .inr (.inr (.inl h))) fun h => .inr (.inl ⟨h.1, h.2.1⟩)

theorem Consistent.pre (h : Consistent a b) (ha : 0 < a.length) (hb : 0 < b.length) :
    (isPreEntity a.type = true → ¬ Within b a) ∧
      (isPreEntity b.type = true → Within a b → isBlockquoteEntity a.type = true ∧ Within b a) := by
  constructor
  · rintro hpre ⟨-, hend⟩
    have := h.resolve_right fun h => not_mayStand_of_pre hpre h.2.2
    simp only [endOffset] at this hend
    omega
  · rintro hpre ⟨hoffset, -⟩
    have := h.resolve_left fun h => by simp only [endOffset] at h; omega
    exact ⟨this.2.2.blockquote_of_pre hpre, this.1, this.2.1⟩

/-- Splittable entities and `Pre` have no position in common. -/
theorem not_mem_covers_of_inPre {result : List MessageEntity} (h : result.Pairwise Consistent) {index x}
    (hpre : x ∈ inPre result) : x ∉ covers result index := by
  rintro ⟨e, he, htype, hx⟩
  obtain ⟨q, hq, hq', hqx⟩ := hpre
  have hsplit : isSplittableEntity e.type = true := by simp [htype]
  have hne : e ≠ q := fun heq => by simp [heq, not_splittable_of_pre hq'] at hsplit
  have : Std.Symm fun a b => Consistent a b ∨ Consistent b a := ⟨fun _ _ h => h.symm⟩
  have hboth : result.Pairwise fun a b => Consistent a b ∨ Consistent b a := h.imp .inl
  have hno : ¬ MayStand e.type q.type := fun hstand => by
    simp [not_splittable_of_blockquote (hstand.blockquote_of_pre hq')] at hsplit
  have hapart : Separate e q := by
    rcases hboth.forall he hq hne with h | h
    · exact h.separate hno
    · exact (h.separate (not_mayStand_of_pre hq')).symm
  unfold Separate at hapart
  omega

theorem fixed_of_consistent {input result : List MessageEntity} (hsorted : IsSorted result)
    (hlength : ∀ entity ∈ result, 0 < entity.length) (h : result.Pairwise Consistent)
    (hkept : ∀ entity ∈ result, isSplittableEntity entity.type = false → entity ∈ input)
    (hcovers : ∀ index, covers result index = covers input index \ inPre result) : Fixed input result where
  sorted := hsorted
  nested := h.imp Consistent.nested
  splittable := h.imp fun {a b} h hsplit heq => h.separate (by rw [← heq]; exact not_mayStand_self hsplit)
  continuous := h.imp fun h ha hb => h.separate (not_mayStand_of_continuous ha hb)
  blockquote := h.imp fun h ha hb => h.separate (not_mayStand_of_blockquote ha hb)
  pre := h.imp_of_mem fun ha hb h => h.pre (hlength _ ha) (hlength _ hb)
  kept := hkept
  coverage type htype x := by
    obtain ⟨index, rfl⟩ := exists_splittableType htype
    exact Set.ext_iff.mp (hcovers index) x

end

/-- Both paths of `fix_entities` return. -/
theorem fixEntities_cases (std : StdSort) (hplaced : ∀ entity ∈ entities, Placed entity) :
    ∃ result, fixEntities std entities = .ok result ∧
      (result = sortEntities std entities ∧ result.Pairwise Consistent ∨
        ∃ others ps, Rebuilt (sortEntities std entities) others result ps) := by
  have hsorted := isSorted_sortEntities std entities
  rw [fixEntities]
  obtain ⟨valid, hvalid⟩ := areEntitiesValid_isOk hsorted
  rw [hvalid, ok_bind]
  cases valid with
  | true =>
    exact ⟨_, rfl, .inl ⟨rfl, ((apart_of_areEntitiesValid hsorted hvalid).and (isSorted_iff_pairwise.mp hsorted)).imp
      fun h => h.1.consistent h.2⟩⟩
  | false =>
    obtain ⟨others, ps, result, -, hrun, hrebuilt⟩ := fixSortedEntities_spec std hsorted fun e he =>
      hplaced e (mem_sortEntities.mp he)
    exact ⟨result, hrun, .inr ⟨others, ps, hrebuilt⟩⟩

/-- `fix_entities` fails no check, and what it returns is in order. -/
theorem fixEntities_fixed (std : StdSort) (entities : List MessageEntity) (hrange : ∀ entity ∈ entities, InRange entity) :
    ∃ result, fixEntities std entities = .ok result ∧ Fixed entities result := by
  have hmem : ∀ entity, entity ∈ sortEntities std entities ↔ entity ∈ entities := fun _ => mem_sortEntities
  have hplaced : ∀ entity ∈ sortEntities std entities, Placed entity := fun e he => (hrange e ((hmem e).mp he)).placed
  have hcovers : covers (sortEntities std entities) = covers entities := by
    funext index
    ext x
    simp [covers]
  obtain ⟨result, hrun, ⟨rfl, hconsistent⟩ | ⟨others, ps, hrebuilt⟩⟩ :=
    fixEntities_cases std fun e he => (hrange e he).placed
  · refine ⟨_, hrun, fixed_of_consistent (isSorted_sortEntities std entities) (fun e he => (hplaced e he).length_pos)
      hconsistent (fun e he _ => (hmem e).mp he) fun index => ?_⟩
    rw [hcovers]
    refine (sdiff_eq_left.mpr (Set.disjoint_right.mpr fun x hpre hx => ?_)).symm
    rw [← hcovers] at hx
    exact not_mem_covers_of_inPre hconsistent hpre hx
  · refine ⟨result, hrun, fixed_of_consistent hrebuilt.sorted
      (fun e he => hrebuilt.length_pos hplaced e (hrebuilt.perm.mem_iff.mp he)) (hrebuilt.consistent hplaced)
      (fun e he htype => (hmem e).mp (hrebuilt.others_mem e (hrebuilt.mem_others he htype))) fun index => ?_⟩
    rw [hrebuilt.covers_result hplaced, keptCovers, hcovers, Set.ext fun x => hrebuilt.mem_inPre]

/-! A bold and an italic range that cross each other and a `Pre`, a mention that
crosses a link, and all of it in a blockquote. -/

def sampleEntities : List MessageEntity :=
  [plain .bold 0 10, plain .italic 5 9, plain .pre 3 4, plain .url 12 4, plain .mention 14 4, plain .blockQuote 0 20]

def sampleFixed : List MessageEntity :=
  [plain .blockQuote 0 20, plain .bold 0 3, plain .pre 3 4, plain .italic 7 5, plain .bold 7 3, plain .url 12 4,
    plain .italic 12 2]

theorem sampleEntities_inRange : ∀ entity ∈ sampleEntities, InRange entity := by
  have h : ∀ entity ∈ sampleEntities,
      0 ≤ entity.offset ∧ entity.offset ≤ 1000000 ∧ 1 ≤ entity.length ∧ entity.length ≤ 1000000 := by decide
  exact fun e he => ⟨(h e he).1, (h e he).2.1, (h e he).2.2.1, (h e he).2.2.2⟩

theorem fixEntities_sampleEntities : fixEntities StdSort.insertion sampleEntities = .ok sampleFixed := by decide

theorem fixEntities_fixed_sample : Fixed sampleEntities sampleFixed := by
  obtain ⟨result, hrun, hfixed⟩ := fixEntities_fixed StdSort.insertion sampleEntities sampleEntities_inRange
  cases fixEntities_sampleEntities.symm.trans hrun
  exact hfixed

/-- A blockquote and a `Pre` of one extent are valid as they are. -/
theorem blockquote_around_pre : fixEntities StdSort.insertion [plain .blockQuote 0 5, plain .pre 0 5] =
        .ok [plain .blockQuote 0 5, plain .pre 0 5] ∧
      isPreEntity (plain .pre 0 5).type = true ∧ Within (plain .blockQuote 0 5) (plain .pre 0 5) := by
  refine ⟨by decide, by decide, ?_⟩
  unfold Within
  decide

end Tdlib.Text
