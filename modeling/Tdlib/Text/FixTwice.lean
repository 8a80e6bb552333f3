/-
`fix_entities` changes nothing that it made itself. On the fast path that is plain.
On the slow path the second pass drops nothing, stops at the same ends of other
entities, and sees the types begin where the first pass cut or where a `Pre` ended;
so it emits the pieces that it was given. The order of a fixed list leaves no
choice to `std::sort`.
-/
import Tdlib.Text.FixEntities

namespace Tdlib.Text

open List hiding pure_def
open MessageEntity Piece Outcome

/-! ## Only one order -/

theorem getTypePriority_splittableType (index : SplittableIndex) :
    (splittableType index).getTypePriority = 90 + index := by
  revert index
  decide

theorem getTypePriority_of_continuous {t : MessageEntityType} (h : isContinuousEntity t = true) :
    t.getTypePriority < 90 ∨ 94 < t.getTypePriority := by
  revert h
  cases t <;> decide

theorem getTypePriority_of_splittable {t : MessageEntityType} (h : isSplittableEntity t = true) :
    90 ≤ t.getTypePriority ∧ t.getTypePriority ≤ 94 := by
  revert h
  cases t <;> decide

theorem MayStand.priority_ne {t u : MessageEntityType} (h : MayStand t u) : t.getTypePriority ≠ u.getTypePriority := by
  rcases h with (⟨ht, hu⟩ | ⟨ht, hu⟩) | ⟨ht, hne, hu | hu⟩
  · intro heq
    rw [getTypePriority_eq_zero.mpr ht] at heq
    simp [getTypePriority_eq_zero.mp heq.symm] at hu
  · have := getTypePriority_of_continuous ht
    have := getTypePriority_of_splittable hu
    omega
  · obtain ⟨i, rfl⟩ := exists_splittableType ht
    obtain ⟨j, rfl⟩ := exists_splittableType hu
    rw [getTypePriority_splittableType, getTypePriority_splittableType]
    intro heq
    exact hne (congrArg splittableType (Fin.ext (by omega)))
  · have := getTypePriority_of_splittable ht
    have := getTypePriority_of_continuous hu
    omega

theorem Consistent.not_tied {a b : MessageEntity} (h : Consistent a b) (hlength : 0 < a.length)
    (hab : NotAfter a b) (hba : NotAfter b a) : False := by
  rw [notAfter_iff] at hab hba
  have htied : a.offset = b.offset ∧ a.type.getTypePriority = b.type.getTypePriority := by omega
  rcases h with hend | ⟨-, -, hstand⟩
  · simp only [endOffset] at hend
    omega
  · exact hstand.priority_ne htied.2

/-- Two sorted lists of the same consistent entities are one list. -/
theorem eq_of_perm_of_consistent {xs ys : List MessageEntity} (hperm : xs.Perm ys) (hxs : IsSorted xs)
    (hys : IsSorted ys) (hlength : ∀ entity ∈ xs, 0 < entity.length) (hconsistent : xs.Pairwise Consistent) :
    xs = ys := by
  refine hperm.eq_of_pairwise (fun a b ha hb hab hba => ?_) (isSorted_iff_pairwise.mp hxs)
    (isSorted_iff_pairwise.mp hys)
  by_contra hne
  have hb := hperm.mem_iff.mpr hb
  have : Std.Symm fun a b => Consistent a b ∨ Consistent b a := ⟨fun _ _ h => h.symm⟩
  have hboth : xs.Pairwise fun a b => Consistent a b ∨ Consistent b a := hconsistent.imp .inl
  rcases hboth.forall ha hb hne with h | h
  · exact h.not_tied (hlength a ha) hab hba
  · exact h.not_tied (hlength b hb) hba hab

/-! ## The second pass -/

section

variable {std : StdSort} {entities others result : List MessageEntity} {ps : List (Piece SplittableIndex)}

section

variable (h : Rebuilt entities others result ps)

include h

theorem Rebuilt.placed (hplaced : ∀ entity ∈ entities, Placed entity) : ∀ entity ∈ result, Placed entity := by
  intro e he
  rcases h.mem_result.mp he with he | ⟨p, hp, rfl⟩
  · exact hplaced e (h.others_mem e he)
  · have hlt := (h.cuts.sound p hp).lt
    have hfirst := (h.cuts.within p hp).1
    -- the last position of a piece is one of an entity
    obtain ⟨⟨e, he, -, -, hend⟩, -⟩ := (h.cuts.sound p hp).sub (p.last - 1) ⟨by omega, by omega⟩
    have hmax := (hplaced e he).endOffset_lt
    refine ⟨hfirst, ?_, ?_⟩
    · rw [pieceEntity_length]
      omega
    · rw [pieceEntity_endOffset]
      omega

/-- What is not splittable in the result is what was kept. -/
theorem Rebuilt.perm_others : (continuousPart result ++ blockquotePart result).Perm others := by
  have hothers : (others ++ ps.map pieceEntity).filter (fun entity => !isSplittableEntity entity.type) = others := by
    rw [filter_append, filter_eq_self.mpr fun e he => by simp [h.others_type e he],
      filter_eq_nil_iff.mpr, append_nil]
    intro e he
    obtain ⟨p, -, rfl⟩ := mem_map.mp he
    simp
  have hparts : (continuousPart result ++ blockquotePart result).Perm
      (result.filter fun entity => !isSplittableEntity entity.type) := by
    have hcontinuous : continuousPart result = (result.filter fun entity => !isSplittableEntity entity.type).filter
        fun entity => !isBlockquoteEntity entity.type := by
      rw [filter_filter]
      exact filter_congr fun e _ => Bool.and_comm _ _
    have hblockquote : blockquotePart result = (result.filter fun entity => !isSplittableEntity entity.type).filter
        fun entity => !!isBlockquoteEntity entity.type := by
      rw [filter_filter]
      exact filter_congr fun e _ => by rw [Bool.not_not, Bool.and_comm]
    rw [hcontinuous, hblockquote]
    exact filter_append_perm _ _
  exact hparts.trans ((h.perm.filter _).trans (List.Perm.of_eq hothers))

section

variable (hplaced : ∀ entity ∈ entities, Placed entity)

include hplaced

theorem Rebuilt.pairwise_continuousPart : (continuousPart result).Pairwise fun a b => a.endOffset ≤ b.offset := by
  refine ((h.consistent hplaced).filter _).imp_of_mem fun {a b} ha hb hab => hab.resolve_right fun hab => ?_
  obtain ⟨-, ha, ha'⟩ := mem_continuousPart.mp ha
  obtain ⟨-, hb, -⟩ := mem_continuousPart.mp hb
  rcases hab.2.2 with (⟨hblock, -⟩ | ⟨-, hsplit⟩) | ⟨hsplit, -⟩
  · simp [ha'] at hblock
  · simp [hb] at hsplit
  · simp [ha] at hsplit

theorem Rebuilt.pairwise_blockquotePart : (blockquotePart result).Pairwise fun a b => a.endOffset ≤ b.offset := by
  refine ((h.consistent hplaced).filter _).imp_of_mem fun {a b} ha hb hab => hab.resolve_right fun hab => ?_
  exact not_mayStand_of_blockquote (mem_blockquotePart.mp ha).2.2 (mem_blockquotePart.mp hb).2.2 hab.2.2

theorem Rebuilt.clear : ∀ c ∈ continuousPart result, ∀ b ∈ blockquotePart result, Clear c b := by
  intro c hc b hb
  obtain ⟨hc, hcs, hcb⟩ := mem_continuousPart.mp hc
  obtain ⟨hb, hbs, hbb⟩ := mem_blockquotePart.mp hb
  have : Std.Symm fun a b => Consistent a b ∨ Consistent b a := ⟨fun _ _ h => h.symm⟩
  have hboth : result.Pairwise fun a b => Consistent a b ∨ Consistent b a := (h.consistent hplaced).imp .inl
  rcases hboth.forall hc hb (fun heq => by simp [heq, hbb] at hcb) with hcb' | hbc
  · refine .inr (.inl (hcb'.resolve_right fun hcb' => ?_))
    rcases hcb'.2.2 with (⟨hblock, -⟩ | ⟨-, hsplit⟩) | ⟨hsplit, -⟩
    · simp [hcb] at hblock
    · simp [hbs] at hsplit
    · simp [hcs] at hsplit
  · rcases hbc with hend | ⟨hoffset, hend, -⟩
    · exact .inl hend
    · exact .inr (.inr ⟨hoffset, hend⟩)

/-- However the second pass sorts what it keeps, it has the list of the first. -/
theorem Rebuilt.eq_others
    {list : List MessageEntity} (hperm : list.Perm (continuousPart result ++ blockquotePart result))
    (hlist : IsSorted list) : list = others :=
  (eq_of_perm_of_consistent (hperm.trans h.perm_others).symm h.others_sorted hlist
    (fun e he => (hplaced e (h.others_mem e he)).length_pos) h.others_consistent).symm

theorem Rebuilt.fixOtherEntities_result :
    fixOtherEntities std (continuousPart result) (blockquotePart result) = .ok others := by
  have hresult := h.placed hplaced
  have hcontinuous := h.pairwise_continuousPart hplaced
  have hblockquotes := h.pairwise_blockquotePart hplaced
  have hc : ∀ e ∈ continuousPart result, Placed e := fun e he => hresult e (mem_continuousPart.mp he).1
  have hb : ∀ e ∈ blockquotePart result, Placed e := fun e he => hresult e (mem_blockquotePart.mp he).1
  have hcsorted : IsSorted (continuousPart result) := h.sorted.filter _
  have hbsorted : IsSorted (blockquotePart result) := h.sorted.filter _
  rw [fixOtherEntities, removeIntersectingEntities_of_pairwise hcsorted (fun e he => (hc e he).length_pos)
    (fun e he => (hc e he).offset_nonneg) hcontinuous, ok_bind]
  by_cases hempty : (blockquotePart result).isEmpty = true
  · rw [if_pos hempty, pure_def]
    refine congrArg Outcome.ok (h.eq_others hplaced ?_ hcsorted)
    rw [List.isEmpty_iff.mp hempty, append_nil]
  · have hclear := (removeIntersectingBlockquoteLoop_spec _ (fun b hb => (mem_blockquotePart.mp hb).2.2) hblockquotes
      (fun e he => (hb e he).length_pos) (fun e he => (hc e he).length_pos) hcontinuous).2.2 (h.clear hplaced)
    rw [if_neg hempty, removeIntersectingEntities_of_pairwise hbsorted (fun e he => (hb e he).length_pos)
      (fun e he => (hb e he).offset_nonneg) hblockquotes, ok_bind,
      removeEntitiesIntersectingBlockquote_eq hcontinuous hblockquotes, ok_bind, hclear, pure_def]
    exact congrArg Outcome.ok (h.eq_others hplaced (sortEntities_perm std _) (isSorted_sortEntities std _))

end

end

theorem mem_bounds_of_inPre {x : ℤ} (hbefore : x - 1 ∈ inPre others) (hx : x ∉ inPre others) : x ∈ bounds others := by
  obtain ⟨q, hq, hpre, hoffset, hend⟩ := hbefore
  have hlast : ¬ x < q.endOffset := fun hlt => hx ⟨q, hq, hpre, by omega, hlt⟩
  exact .inr ⟨q, hq, .inr (by omega)⟩

section

variable (h : Rebuilt entities others result ps) (hplaced : ∀ entity ∈ entities, Placed entity)

include h hplaced

/-- Both passes cut the same sets at the same points. -/
theorem Rebuilt.cuts_result {qs : List (Piece SplittableIndex)}
    (hqs : Cuts (keptCovers result others) (cutPoints result others) 0 maxInt32 qs) :
    Cuts (keptCovers entities others) (cutPoints entities others) 0 maxInt32 qs := by
  have hcovers : covers result = keptCovers entities others := funext (h.covers_result hplaced)
  have hkept : keptCovers result others = keptCovers entities others := by
    funext index
    rw [keptCovers, hcovers, keptCovers, Set.sdiff_sdiff, Set.union_self]
  unfold cutPoints at hqs ⊢
  rw [hkept, hcovers] at hqs
  exact hqs.congr fun i x hx => (mem_cuts_diff_iff (fun _ => mem_bounds_of_inPre) hx).symm

theorem Rebuilt.fixSortedEntities_result : fixSortedEntities std result = .ok result := by
  obtain ⟨others', qs, result', hothers, hrun, h'⟩ := fixSortedEntities_spec std h.sorted (h.placed hplaced)
  cases (h.fixOtherEntities_result hplaced).symm.trans hothers
  have hinside : ∀ i, ∀ x ∈ keptCovers entities others i, 0 ≤ x ∧ x < maxInt32 := by
    rintro i x ⟨⟨e, he, -, hoffset, hend⟩, -⟩
    have := (hplaced e he).offset_nonneg
    have := (hplaced e he).endOffset_lt
    omega
  have hperm : ps.Perm qs := h.cuts.perm (h.cuts_result hplaced h'.cuts) hinside
  have hsame : result.Perm result' :=
    h.perm.trans (((hperm.map pieceEntity).append_left others).trans h'.perm.symm)
  rw [hrun, eq_of_perm_of_consistent hsame h.sorted h'.sorted (fun e he => (h.placed hplaced e he).length_pos)
    (h.consistent hplaced)]

end

end

/-- `fix_entities` leaves its own results as they are. -/
theorem fixEntities_idempotent (std : StdSort) (entities : List MessageEntity)
    (hrange : ∀ entity ∈ entities, InRange entity) :
    ∃ result, fixEntities std entities = .ok result ∧ fixEntities std result = .ok result := by
  have hsorted := isSorted_sortEntities std entities
  have hplaced : ∀ entity ∈ sortEntities std entities, Placed entity := fun e he =>
    (hrange e (mem_sortEntities.mp he)).placed
  rw [fixEntities]
  obtain ⟨valid, hvalid⟩ := areEntitiesValid_isOk hsorted
  rw [hvalid, ok_bind]
  cases valid with
  | true =>
    refine ⟨_, rfl, ?_⟩
    rw [fixEntities, sortEntities_of_isSorted hsorted, hvalid]
    rfl
  | false =>
    obtain ⟨others, ps, result, -, hrun, hrebuilt⟩ := fixSortedEntities_spec std hsorted hplaced
    refine ⟨result, hrun, ?_⟩
    rw [fixEntities, sortEntities_of_isSorted hrebuilt.sorted]
    obtain ⟨valid, hvalid'⟩ := areEntitiesValid_isOk hrebuilt.sorted
    rw [hvalid', ok_bind]
    cases valid with
    | true => rfl
    | false => exact hrebuilt.fixSortedEntities_result hplaced

/-- The entities of the sample, fixed, are cut at the same places again. -/
theorem fixEntities_idempotent_sample : fixEntities StdSort.insertion sampleEntities = .ok sampleFixed ∧
      fixEntities StdSort.insertion sampleFixed = .ok sampleFixed := by
  obtain ⟨result, hfirst, hsecond⟩ := fixEntities_idempotent StdSort.insertion sampleEntities sampleEntities_inRange
  cases fixEntities_sampleEntities.symm.trans hfirst
  exact ⟨hfirst, hsecond⟩

end Tdlib.Text
