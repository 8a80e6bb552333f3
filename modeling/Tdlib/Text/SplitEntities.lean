/-
`split_entities` as a sweep. The cut points are the ends of the other entities and
the points at which a splittable type begins; between two of them nothing begins,
so each type covers the front of the segment. What the sweep keeps are the pieces
of the covered positions, without those inside a `Pre`.
-/
import Mathlib.Data.List.FinRange
import Tdlib.Lib.Pieces
import Tdlib.Text.ValidEntities

namespace Tdlib.Text

open List hiding pure_def
open MessageEntity Piece Outcome Function

/-! ## The types by their index -/

def splittableType : SplittableIndex → MessageEntityType
  | 0 => .bold
  | 1 => .italic
  | 2 => .underline
  | 3 => .strikethrough
  | 4 => .spoiler

theorem splittableTypes_eq : splittableTypes = (List.finRange 5).map splittableType := by decide

@[simp] theorem getSplittableEntityTypeIndex_splittableType (index : SplittableIndex) :
    getSplittableEntityTypeIndex (splittableType index) = .ok index := by
  revert index
  decide

@[simp] theorem isSplittableEntity_splittableType (index : SplittableIndex) :
    isSplittableEntity (splittableType index) = true := by
  revert index
  decide

theorem exists_splittableType {t : MessageEntityType} (h : isSplittableEntity t = true) :
    ∃ index, t = splittableType index := by
  revert h
  cases t <;> decide

theorem splittableType_injective : Function.Injective splittableType := by
  intro i j h
  have hindex := congrArg getSplittableEntityTypeIndex h
  simpa using hindex

/-- The positions that the entities of a type cover. -/
def covers (entities : List MessageEntity) (index : SplittableIndex) : Set ℤ :=
  {x | ∃ entity ∈ entities, entity.type = splittableType index ∧ entity.offset ≤ x ∧ x < entity.endOffset}

theorem mem_covers_append {done it : List MessageEntity} {index : SplittableIndex} {x : ℤ} :
    x ∈ covers (done ++ it) index ↔ x ∈ covers done index ∨ x ∈ covers it index := by
  simp [covers, mem_append, or_and_right, exists_or]

theorem mem_covers_singleton {entity : MessageEntity} {index i : SplittableIndex} {x : ℤ}
    (htype : entity.type = splittableType index) :
    x ∈ covers [entity] i ↔ index = i ∧ entity.offset ≤ x ∧ x < entity.endOffset := by
  simp [covers, htype, splittableType_injective.eq_iff]

/-- `result.emplace_back(type, begin, end - begin)`. -/
def pieceEntity (p : Piece SplittableIndex) : MessageEntity :=
  plain (splittableType p.index) p.first (p.last - p.first)

section

variable (p : Piece SplittableIndex)

include p

@[simp] theorem pieceEntity_type : (pieceEntity p).type = splittableType p.index := rfl

@[simp] theorem pieceEntity_offset : (pieceEntity p).offset = p.first := rfl

@[simp] theorem pieceEntity_length : (pieceEntity p).length = p.last - p.first := rfl

@[simp] theorem pieceEntity_endOffset : (pieceEntity p).endOffset = p.last := by
  simp [pieceEntity, plain, endOffset]

end

/-! ## A flush -/

/-- What a flush at `offset` emits of one type. -/
def flushed (offset : Int) (s : SplitState) (index : SplittableIndex) : Option (Piece SplittableIndex) :=
  if s.endPos index ≠ 0 ∧ s.beginPos index < offset then
    some ⟨index, s.beginPos index, min (s.endPos index) offset⟩
  else none

def flushedBegin (offset : Int) (s : SplitState) (index : SplittableIndex) : Int :=
  if s.endPos index ≠ 0 ∧ s.beginPos index < offset then if s.endPos index ≤ offset then 0 else offset
  else s.beginPos index

def flushedEnd (offset : Int) (s : SplitState) (index : SplittableIndex) : Int :=
  if s.endPos index ≠ 0 ∧ s.beginPos index < offset ∧ s.endPos index ≤ offset then 0 else s.endPos index

theorem flushType_eq (offset : Int) (s : SplitState) (index : SplittableIndex) :
    flushType offset s (splittableType index) = .ok
      { s with
        beginPos := update s.beginPos index (flushedBegin offset s index)
        endPos := update s.endPos index (flushedEnd offset s index)
        result := s.result ++ ((flushed offset s index).map pieceEntity).toList } := by
  rw [flushType, getSplittableEntityTypeIndex_splittableType, ok_bind]
  unfold flushed flushedBegin flushedEnd
  split_ifs with hopen hend h h h
  · simp [pieceEntity, min_eq_left hend]
  · exact absurd ⟨hopen.1, hopen.2, hend⟩ h
  · exact absurd h.2.2 hend
  · simp [pieceEntity, min_eq_right (le_of_not_ge hend)]
  · exact absurd ⟨h.1, h.2.1⟩ hopen
  · simp

/-- The types are flushed one after the other, each on its own entries. -/
theorem foldlM_flushType (offset : Int) (s : SplitState) (indices : List SplittableIndex) (hnodup : indices.Nodup) :
    (indices.map splittableType).foldlM (flushType offset) s = .ok
      { s with
        beginPos := fun i => if i ∈ indices then flushedBegin offset s i else s.beginPos i
        endPos := fun i => if i ∈ indices then flushedEnd offset s i else s.endPos i
        result := s.result ++ (indices.filterMap (flushed offset s)).map pieceEntity } := by
  induction indices generalizing s with
  | nil => simp
  | cons index indices ih =>
    rw [nodup_cons] at hnodup
    rw [map_cons, foldlM_cons, flushType_eq, ok_bind, ih _ hnodup.2]
    have hother : ∀ i ∈ indices, i ≠ index := fun i hi heq => hnodup.1 (heq ▸ hi)
    congr 2
    · funext i
      by_cases hi : i ∈ indices
      · simp [hi, hother i hi, flushedBegin]
      · by_cases heq : i = index
        · subst heq
          simp [hi]
        · simp [hi, heq]
    · funext i
      by_cases hi : i ∈ indices
      · simp [hi, hother i hi, flushedEnd]
      · by_cases heq : i = index
        · subst heq
          simp [hi]
        · simp [hi, heq]
    · have hsame : ∀ i ∈ indices, flushed offset { s with
          beginPos := update s.beginPos index (flushedBegin offset s index)
          endPos := update s.endPos index (flushedEnd offset s index)
          result := s.result ++ ((flushed offset s index).map pieceEntity).toList } i = flushed offset s i :=
        fun i hi => by simp [flushed, hother i hi]
      rw [filterMap_congr hsame, append_assoc]
      cases hflushed : flushed offset s index <;> simp [hflushed]

theorem flushEntities_eq (offset : Int) (s : SplitState) : flushEntities offset s = .ok
      { s with
        beginPos := flushedBegin offset s
        endPos := flushedEnd offset s
        result := s.result ++ ((List.finRange 5).filterMap (flushed offset s)).map pieceEntity } := by
  rw [flushEntities, splittableTypes_eq, foldlM_flushType offset s _ (nodup_finRange 5)]
  simp

/-! ## The sweep between two ends of other entities -/

section

variable {entities : List MessageEntity} {K : Set ℤ} {o p : ℤ} {done it : List MessageEntity} {s : SplitState}

/-- The entities that a sweep can take. -/
structure Splittable (entities : List MessageEntity) : Prop where
  sorted : entities.Pairwise fun a b => a.offset ≤ b.offset
  type : ∀ entity ∈ entities, isSplittableEntity entity.type = true
  offset : ∀ entity ∈ entities, 0 ≤ entity.offset
  length : ∀ entity ∈ entities, 0 < entity.length

/-- The sweep at `o`: what is open began there. -/
structure Swept (entities : List MessageEntity) (K : Set ℤ) (o : ℤ) (done it : List MessageEntity)
    (s : SplitState) : Prop where
  nonneg : 0 ≤ o
  split : entities = done ++ it
  later : ∀ entity ∈ it, o ≤ entity.offset
  opened : ∀ i, s.endPos i ≠ 0 → s.beginPos i = o ∧ o < s.endPos i
  covered : ∀ i x, o ≤ x → (x ∈ covers done i ↔ x < s.endPos i)
  cut : o ∈ K ∨ o = 0

/-- Positions before the next entity are covered by those behind. -/
theorem Swept.mem_covers_iff (h : Swept entities K o done it s) (hlater : ∀ entity ∈ it, p ≤ entity.offset) {i x}
    (hx : x < p) : x ∈ covers entities i ↔ x ∈ covers done i := by
  rw [h.split, mem_covers_append]
  refine or_iff_left fun hit => ?_
  obtain ⟨entity, hmem, -, hoffset, -⟩ := hit
  have := hlater entity hmem
  omega

theorem not_mem_covers_of_neg (hin : Splittable entities) {i x} (hx : x < 0) : x ∉ covers entities i := by
  rintro ⟨entity, hmem, -, hoffset, -⟩
  have := hin.offset entity hmem
  omega

section

variable (h : Swept entities K o done it s)

include h

theorem Swept.cut_of_mem (hin : Splittable entities)
    (hK : starts (covers entities) ⊆ K) {i} (ho : o ∈ covers entities i) : o ∈ K := by
  rcases h.cut with hcut | rfl
  · exact hcut
  · exact hK ⟨i, ho, not_mem_covers_of_neg hin (by omega)⟩

/-- Between the flushes every type covers the front of what is left. -/
theorem Swept.mem_covers_iff_lt (hlater : ∀ entity ∈ it, p ≤ entity.offset) {i x}
    (ho : o ≤ x) (hp : x < p) : x ∈ covers entities i ↔ x < s.endPos i :=
  (h.mem_covers_iff hlater hp).trans (h.covered i x ho)

theorem Swept.isPiece_flushed (hin : Splittable entities)
    (hK : starts (covers entities) ⊆ K) (hlater : ∀ entity ∈ it, p ≤ entity.offset) (hcut : p ∈ K)
    (hbetween : ∀ x, o < x → x < p → x ∈ K → x ∈ starts (covers entities)) {i} (hne : s.endPos i ≠ 0) (hop : o < p) :
    IsPiece (covers entities) K ⟨i, o, min (s.endPos i) p⟩ := by
  have hlt := (h.opened i hne).2
  refine ⟨lt_min hlt hop, ?_, ?_, ?_, ?_⟩
  · rintro x ⟨hfirst, hlast⟩
    obtain ⟨hend, hp⟩ := lt_min_iff.mp hlast
    exact (h.mem_covers_iff_lt hlater hfirst hp).mpr hend
  · exact h.cut_of_mem hin hK ((h.mem_covers_iff_lt hlater le_rfl hop).mpr hlt)
  · intro x hfirst hlast hx
    have hp := (lt_min_iff.mp hlast).2
    -- a type that begins at `x` would cover the position before, too
    obtain ⟨j, hj, hbefore⟩ := hbetween x hfirst hp hx
    have hj := (h.mem_covers_iff_lt hlater hfirst.le hp).mp hj
    exact hbefore ((h.mem_covers_iff_lt hlater (Int.le_sub_one_of_lt hfirst) (by omega)).mpr (by omega))
  · by_cases hend : s.endPos i < p
    · refine .inr fun hmem => ?_
      simp only [min_eq_left hend.le] at hmem
      exact lt_irrefl _ ((h.mem_covers_iff_lt hlater hlt.le hend).mp hmem)
    · exact .inl (by rwa [min_eq_right (by omega)])

theorem Swept.flushed_eq {i q} (hq : flushed p s i = some q) :
    s.endPos i ≠ 0 ∧ o < p ∧ q = ⟨i, o, min (s.endPos i) p⟩ := by
  unfold flushed at hq
  split_ifs at hq with hopen
  have hbegin := (h.opened i hopen.1).1
  simp_all

theorem Swept.cuts_flushed (hin : Splittable entities)
    (hK : starts (covers entities) ⊆ K) (hlater : ∀ entity ∈ it, p ≤ entity.offset) (hcut : p ∈ K)
    (hbetween : ∀ x, o < x → x < p → x ∈ K → x ∈ starts (covers entities)) :
    Cuts (covers entities) K o p ((List.finRange 5).filterMap (flushed p s)) where
  nodup := by
    refine List.Nodup.filterMap (fun i j q hi hj => ?_) (nodup_finRange 5)
    have hi := (h.flushed_eq hi).2.2
    have hj := (h.flushed_eq hj).2.2
    exact congrArg Piece.index (hi.symm.trans hj)
  sound q hq := by
    obtain ⟨i, -, hi⟩ := mem_filterMap.mp hq
    obtain ⟨hne, hop, rfl⟩ := h.flushed_eq hi
    exact h.isPiece_flushed hin hK hlater hcut hbetween hne hop
  within q hq := by
    obtain ⟨i, -, hi⟩ := mem_filterMap.mp hq
    obtain ⟨-, -, rfl⟩ := h.flushed_eq hi
    exact ⟨le_rfl, min_le_right _ _⟩
  complete i x ho hp hx := by
    have hlt := (h.mem_covers_iff_lt hlater ho hp).mp hx
    have hnonneg := h.nonneg
    have hne : s.endPos i ≠ 0 := by omega
    have hbegin := (h.opened i hne).1
    refine ⟨⟨i, s.beginPos i, min (s.endPos i) p⟩, ?_, rfl, ?_, lt_min hlt hp⟩
    · exact mem_filterMap.mpr ⟨i, mem_finRange i, if_pos ⟨hne, by omega⟩⟩
    · exact hbegin.trans_le ho

theorem Swept.flush (hin : Splittable entities)
    (hK : starts (covers entities) ⊆ K) (hop : o ≤ p) (hlater : ∀ entity ∈ it, p ≤ entity.offset) (hcut : p ∈ K)
    (hbetween : ∀ x, o < x → x < p → x ∈ K → x ∈ starts (covers entities)) :
    ∃ s' ps, flushEntities p s = .ok s' ∧ Swept entities K p done it s' ∧ s'.it = s.it ∧
      (∀ i, s.endPos i ≤ p → s'.endPos i = 0) ∧
      s'.result = s.result ++ ps.map pieceEntity ∧ Cuts (covers entities) K o p ps := by
  have hnonneg := h.nonneg
  have hend : ∀ i, flushedEnd p s i = if s.endPos i ≤ p then 0 else s.endPos i := by
    intro i
    have := h.opened i
    unfold flushedEnd
    split_ifs with h1 h2 <;> omega
  refine ⟨_, _, flushEntities_eq p s, ⟨by omega, h.split, hlater, ?_, ?_, .inl hcut⟩, rfl, ?_, rfl,
    h.cuts_flushed hin hK hlater hcut hbetween⟩
  · intro i hne
    dsimp only at hne ⊢
    have := h.opened i
    rw [hend] at hne ⊢
    unfold flushedBegin
    split_ifs at hne ⊢ <;> omega
  · intro i x hx
    dsimp only
    rw [hend, h.covered i x (by omega)]
    split_ifs <;> omega
  · intro i hi
    simp [hend, hi]

end

variable {entity : MessageEntity} {index}

theorem Swept.merge (h : Swept entities K o done (entity :: it) s)
    (htype : entity.type = splittableType index) (hle : entity.offset ≤ s.endPos index) (hne : s.endPos index ≠ 0)
    {endPos : SplittableIndex → Int}
    (hend : endPos = update s.endPos index (max (s.endPos index) entity.endOffset)) :
    Swept entities K o (done ++ [entity]) it { s with endPos } where
  nonneg := h.nonneg
  split := by rw [h.split, append_assoc, singleton_append]
  later e he := h.later e (mem_cons_of_mem _ he)
  opened i hi := by
    subst hend
    dsimp only at hi ⊢
    by_cases heq : i = index
    · subst heq
      rw [update_self]
      exact ⟨(h.opened i hne).1, lt_max_of_lt_left (h.opened i hne).2⟩
    · rw [update_of_ne heq] at hi ⊢
      exact h.opened i hi
  covered i x hx := by
    subst hend
    rw [mem_covers_append, h.covered i x hx, mem_covers_singleton htype]
    dsimp only
    by_cases heq : i = index
    · subst heq
      rw [update_self, lt_max_iff, eq_self, true_and]
      omega
    · rw [update_of_ne heq]
      simp [Ne.symm heq]
  cut := h.cut

theorem Swept.begin (h : Swept entities K entity.offset done (entity :: it) s)
    (htype : entity.type = splittableType index) (hlength : 0 < entity.length) (hzero : s.endPos index = 0)
    (hsorted : ∀ e ∈ it, entity.offset ≤ e.offset) :
    Swept entities K entity.offset (done ++ [entity]) it { s with
      beginPos := update s.beginPos index entity.offset
      endPos := update s.endPos index entity.endOffset } where
  nonneg := h.nonneg
  split := by rw [h.split, append_assoc, singleton_append]
  later := hsorted
  opened i hi := by
    dsimp only at hi ⊢
    by_cases heq : i = index
    · subst heq
      rw [update_self, update_self, endOffset]
      omega
    · rw [update_of_ne heq] at hi ⊢
      rw [update_of_ne heq]
      exact h.opened i hi
  covered i x hx := by
    rw [mem_covers_append, h.covered i x hx, mem_covers_singleton htype]
    have hnonneg := h.nonneg
    dsimp only
    by_cases heq : i = index
    · subst heq
      rw [update_self, hzero, eq_self, true_and]
      omega
    · rw [update_of_ne heq]
      simp [Ne.symm heq]
  cut := h.cut

/-- Where a type that is not open begins is a cut point. -/
theorem Swept.mem_starts (h : Swept entities K o done (entity :: it) s)
    (hin : Splittable entities) (hK : starts (covers entities) ⊆ K)
    (htype : entity.type = splittableType index) (hsorted : ∀ e ∈ it, entity.offset ≤ e.offset)
    (hnew : ¬ (entity.offset ≤ s.endPos index ∧ s.endPos index ≠ 0)) : entity.offset ∈ K := by
  have hmem : entity ∈ entities := by simp [h.split]
  have hoffset := h.later entity (by simp)
  have hcovers : entity.offset ∈ covers entities index :=
    ⟨entity, hmem, htype, le_rfl, by have := hin.length entity hmem; simp only [endOffset]; omega⟩
  rcases hoffset.eq_or_lt with heq | hlt
  · rw [← heq] at hcovers ⊢
    exact h.cut_of_mem hin hK hcovers
  · refine hK ⟨index, hcovers, fun hbefore => hnew ?_⟩
    have hlater : ∀ e ∈ entity :: it, entity.offset ≤ e.offset := forall_mem_cons.mpr ⟨le_rfl, hsorted⟩
    have hend := (h.mem_covers_iff_lt hlater (by omega) (by omega)).mp hbefore
    have hnonneg := h.nonneg
    omega

theorem Swept.addEntitiesLoop {e : ℤ} (h : Swept entities K o done it s) (hin : Splittable entities)
    (hK : starts (covers entities) ⊆ K) (hoe : o ≤ e)
    (hbetween : ∀ x, o < x → x < e → x ∈ K → x ∈ starts (covers entities)) :
    ∃ s' done' o' ps, addEntitiesLoop e it s = .ok s' ∧ o ≤ o' ∧ o' ≤ e ∧ Swept entities K o' done' s'.it s' ∧
      (∀ entity ∈ s'.it, e ≤ entity.offset) ∧ s'.result = s.result ++ ps.map pieceEntity ∧
      Cuts (covers entities) K o o' ps := by
  have hempty : ∀ o, Cuts (covers entities) K o o [] := fun o => .nil fun i x ho hp => by omega
  induction it generalizing o done s with
  | nil =>
    exact ⟨_, done, o, [], rfl, le_rfl, hoe, { h with }, by simp, by simp, hempty o⟩
  | cons entity it ih =>
    have hmem : entity ∈ entities := by simp [h.split]
    obtain ⟨index, htype⟩ := exists_splittableType (hin.type entity hmem)
    have hsorted : ∀ e ∈ it, entity.offset ≤ e.offset :=
      (pairwise_cons.mp (pairwise_append.mp (h.split ▸ hin.sorted)).2.1).1
    have hlater : ∀ e ∈ entity :: it, entity.offset ≤ e.offset := forall_mem_cons.mpr ⟨le_rfl, hsorted⟩
    rw [Text.addEntitiesLoop]
    split_ifs with hstop
    · exact ⟨_, done, o, [], rfl, le_rfl, hoe, { h with }, fun e he => le_trans hstop (hlater e he), by simp, hempty o⟩
    · rw [check_true (hin.type entity hmem), ok_bind, htype,
        getSplittableEntityTypeIndex_splittableType, ok_bind]
      split_ifs with hopen hlonger
      · exact ih (h.merge htype hopen.1 hopen.2 (by rw [max_eq_right hlonger.le])) hoe hbetween
      · refine ih (h.merge htype hopen.1 hopen.2 ?_) hoe hbetween
        rw [max_eq_left (by omega), update_eq_self]
      · have hoffset := h.later entity (by simp)
        obtain ⟨s1, ps1, hflush, h1, -, hzero, hresult1, hcuts1⟩ := h.flush hin hK hoffset hlater
          (h.mem_starts hin hK htype hsorted hopen) fun x ho hx => hbetween x ho (by omega)
        have hnonneg := h.nonneg
        obtain ⟨s', done', o', ps', hloop, ho', he, h', hit, hresult, hcuts⟩ :=
          ih (h1.begin htype (hin.length entity hmem) (hzero index (by omega)) hsorted) (by omega)
            fun x ho hx => hbetween x (by omega) hx
        rw [hflush, ok_bind, hloop]
        refine ⟨s', done', o', ps1 ++ ps', rfl, by omega, he, h', hit, ?_, hcuts1.append hcuts hoffset ho'⟩
        rw [hresult, hresult1, map_append, append_assoc]

theorem Swept.addEntities {e : ℤ} (h : Swept entities K o done s.it s) (hin : Splittable entities)
    (hK : starts (covers entities) ⊆ K) (hoe : o ≤ e) (he : e ∈ K)
    (hbetween : ∀ x, o < x → x < e → x ∈ K → x ∈ starts (covers entities)) :
    ∃ s' done' ps, addEntities e s = .ok s' ∧ Swept entities K e done' s'.it s' ∧
      s'.result = s.result ++ ps.map pieceEntity ∧ Cuts (covers entities) K o e ps := by
  obtain ⟨s1, done', o', ps1, hloop, ho', he', h1, hit, hresult1, hcuts1⟩ := h.addEntitiesLoop hin hK hoe hbetween
  obtain ⟨s', ps', hflush, h', hit', -, hresult, hcuts⟩ := h1.flush hin hK he' hit he
    fun x ho hx => hbetween x (by omega) hx
  refine ⟨s', done', ps1 ++ ps', ?_, hit' ▸ h', ?_, hcuts1.append hcuts ho' he'⟩
  · rw [Text.addEntities, hloop, ok_bind, hflush]
  · rw [hresult, hresult1, map_append, append_assoc]

end

/-! ## The stack of other entities -/

/-- What `split_entities` may be given beside the splittable entities: of two of them
the second begins behind the first or is inside it, and nothing is inside a `Pre`. -/
def Nest (a b : MessageEntity) : Prop :=
  a.endOffset ≤ b.offset ∨ b.endOffset ≤ a.endOffset ∧ isPreEntity a.type = false

structure Others (others : List MessageEntity) : Prop where
  sorted : others.Pairwise fun a b => a.offset ≤ b.offset
  nest : others.Pairwise Nest
  offset : ∀ q ∈ others, 0 ≤ q.offset
  length : ∀ q ∈ others, 0 < q.length
  bound : ∀ q ∈ others, q.endOffset < maxInt32

/-- Where `split_entities` flushes for the other entities. -/
def bounds (others : List MessageEntity) : Set ℤ :=
  {x | x = maxInt32 ∨ ∃ q ∈ others, x = q.offset ∨ x = q.endOffset}

/-- The positions inside a `Pre`. -/
def inPre (others : List MessageEntity) : Set ℤ :=
  {x | ∃ q ∈ others, isPreEntity q.type = true ∧ q.offset ≤ x ∧ x < q.endOffset}

/-- The stack at `o`, the last bound that was passed. -/
structure Stacked (others : List MessageEntity) (o : ℤ) (stack rest : List MessageEntity) : Prop where
  nested : stack.Pairwise fun inner outer => inner.endOffset ≤ outer.endOffset ∧ isPreEntity outer.type = false
  around : ∀ q ∈ stack, q.offset ≤ o ∧ o ≤ q.endOffset
  within : ∀ q ∈ stack, ∀ r ∈ rest, Nest q r
  known : ∀ q, q ∈ stack ∨ q ∈ rest → q ∈ others
  cover : ∀ q ∈ others, q ∈ stack ∨ q ∈ rest ∨ q.endOffset ≤ o
  sorted : rest.Pairwise fun a b => a.offset ≤ b.offset
  nest : rest.Pairwise Nest

section

variable {entities others : List MessageEntity} {o e : ℤ} {done stack rest : List MessageEntity} {s : SplitState}

/-- No other entity begins or ends before the next bound. -/
theorem Stacked.not_mem_bounds (h : Stacked others o stack rest) (hothers : Others others)
    (hstack : ∀ q ∈ stack, e ≤ q.endOffset) (hrest : ∀ q ∈ rest, e ≤ q.offset) (he : e ≤ maxInt32) {x : ℤ}
    (ho : o < x) (hx : x < e) : x ∉ bounds others := by
  rintro (rfl | ⟨q, hq, hend⟩)
  · omega
  · have hlength := hothers.length q hq
    have hqe : q.endOffset = q.offset + q.length := rfl
    rcases h.cover q hq with hmem | hmem | hle
    · have := h.around q hmem
      have := hstack q hmem
      omega
    · have := hrest q hmem
      omega
    · omega

/-- A segment of the sweep in which nothing but one entity of the stack can be a `Pre`. -/
theorem Stacked.not_mem_inPre (h : Stacked others o stack rest) (hrest : ∀ q ∈ rest, e ≤ q.offset)
    (hstack : ∀ q ∈ stack, isPreEntity q.type = false) {x : ℤ} (ho : o ≤ x) (hx : x < e) : x ∉ inPre others := by
  rintro ⟨q, hq, hpre, hoffset, hend⟩
  rcases h.cover q hq with hmem | hmem | hle
  · simp [hstack q hmem] at hpre
  · have := hrest q hmem
    omega
  · omega

/-- The cut points of the sweep, and the positions that it keeps. -/
def cutPoints (entities others : List MessageEntity) : Set ℤ := bounds others ∪ starts (covers entities)

def keptCovers (entities others : List MessageEntity) (index : SplittableIndex) : Set ℤ :=
  covers entities index \ inPre others

theorem Stacked.addEntities (h : Stacked others o stack rest) (hothers : Others others) (hin : Splittable entities)
    (hs : Swept entities (cutPoints entities others) o done s.it s) (hoe : o ≤ e) (hmax : e ≤ maxInt32)
    (he : e ∈ bounds others) (hstack : ∀ q ∈ stack, e ≤ q.endOffset) (hrest : ∀ q ∈ rest, e ≤ q.offset) :
    ∃ s' done' ps, addEntities e s = .ok s' ∧ Swept entities (cutPoints entities others) e done' s'.it s' ∧
      s'.result = s.result ++ ps.map pieceEntity ∧ Cuts (covers entities) (cutPoints entities others) o e ps :=
  hs.addEntities hin Set.subset_union_right hoe (.inl he) fun _ ho hx hK =>
    hK.resolve_left (h.not_mem_bounds hothers hstack hrest hmax ho hx)

theorem Stacked.pop {top : MessageEntity} (h : Stacked others o (top :: stack) rest) :
    Stacked others top.endOffset stack rest where
  nested := (pairwise_cons.mp h.nested).2
  around q hq := by
    have hle := ((pairwise_cons.mp h.nested).1 q hq).1
    have := h.around q (mem_cons_of_mem _ hq)
    have := h.around top (by simp)
    omega
  within q hq := h.within q (mem_cons_of_mem _ hq)
  known q hq := h.known q (hq.imp_left (mem_cons_of_mem _))
  cover q hq := by
    have htop := h.around top (by simp)
    rcases h.cover q hq with hq | hq | hq
    · rcases mem_cons.mp hq with rfl | hq
      · exact .inr (.inr le_rfl)
      · exact .inl hq
    · exact .inr (.inl hq)
    · exact .inr (.inr (hq.trans htop.2))
  sorted := h.sorted
  nest := h.nest

theorem Stacked.push {q : MessageEntity} (h : Stacked others q.offset stack (q :: rest)) (hlength : 0 < q.length)
    (hstack : ∀ d ∈ stack, q.offset < d.endOffset) : Stacked others q.offset (q :: stack) rest where
  nested := by
    refine pairwise_cons.mpr ⟨fun d hd => ?_, h.nested⟩
    have := hstack d hd
    exact (h.within d hd q (by simp)).resolve_left (by omega)
  around := forall_mem_cons.mpr ⟨⟨le_rfl, by simp only [endOffset]; omega⟩, h.around⟩
  within := forall_mem_cons.mpr
    ⟨(pairwise_cons.mp h.nest).1, fun d hd r hr => h.within d hd r (mem_cons_of_mem _ hr)⟩
  known d hd := h.known d (by simp only [mem_cons] at hd ⊢; tauto)
  cover d hd := by
    have := h.cover d hd
    simp only [mem_cons] at this ⊢
    tauto
  sorted := (pairwise_cons.mp h.sorted).2
  nest := (pairwise_cons.mp h.nest).2

section

variable (h : Stacked others o stack rest) (hothers : Others others) (hin : Splittable entities)
    (hs : Swept entities (cutPoints entities others) o done s.it s)

include h hothers hin hs

theorem Stacked.popOffset {offset : ℤ} (hoffset : o ≤ offset) (hrest : ∀ q ∈ rest, offset ≤ q.offset) :
    ∃ stack' s' done' o' ps, popOffset offset stack s = .ok (stack', s') ∧ o ≤ o' ∧ o' ≤ offset ∧
      Stacked others o' stack' rest ∧ (∀ q ∈ stack', q ∈ stack ∧ offset < q.endOffset) ∧
      Swept entities (cutPoints entities others) o' done' s'.it s' ∧ s'.result = s.result ++ ps.map pieceEntity ∧
      Cuts (keptCovers entities others) (cutPoints entities others) o o' ps := by
  induction stack generalizing o done s with
  | nil =>
    exact ⟨[], s, done, o, [], rfl, le_rfl, hoffset, h, by simp, hs, by simp, .nil fun i x ho hp => by omega⟩
  | cons top stack ih =>
    have htop := h.around top (by simp)
    have hnested := pairwise_cons.mp h.nested
    have hmem := h.known top (.inl (by simp))
    rw [Text.popOffset]
    by_cases hend : offset ≥ top.endOffset
    · rw [if_pos hend]
      have hlater : ∀ q ∈ rest, top.endOffset ≤ q.offset := fun q hq => le_trans hend (hrest q hq)
      have hstack : ∀ q ∈ top :: stack, top.endOffset ≤ q.endOffset :=
        forall_mem_cons.mpr ⟨le_rfl, fun q hq => (hnested.1 q hq).1⟩
      obtain ⟨s1, done1, ps1, hadd, hs1, hresult1, hcuts1⟩ := h.addEntities hothers hin hs htop.2
        (hothers.bound top hmem).le (.inr ⟨top, hmem, .inr rfl⟩) hstack hlater
      rw [hadd, ok_bind]
      by_cases hpre : isPreEntity top.type = true
      · -- the whole segment is inside the `Pre`
        have hkept : Cuts (keptCovers entities others) (cutPoints entities others) o top.endOffset [] :=
          .nil fun i x ho hp hx => hx.2 ⟨top, hmem, hpre, htop.1.trans ho, hp⟩
        rw [if_pos hpre, hresult1, take_left]
        obtain ⟨stack', s', done', o', ps', hpop, ho', hle, h', hleft, hs', hresult, hcuts⟩ :=
          ih (s := { s1 with result := s.result }) h.pop { hs1 with } hend
        exact ⟨stack', s', done', o', ps', hpop, htop.2.trans ho', hle, h',
          fun q hq => ⟨mem_cons_of_mem _ (hleft q hq).1, (hleft q hq).2⟩, hs', hresult,
          hkept.append hcuts htop.2 ho'⟩
      · have hnone : ∀ q ∈ top :: stack, isPreEntity q.type = false :=
          forall_mem_cons.mpr ⟨by simpa using hpre, fun q hq => (hnested.1 q hq).2⟩
        have hkept : Cuts (keptCovers entities others) (cutPoints entities others) o top.endOffset ps1 :=
          hcuts1.restrict (fun i => Set.sdiff_subset) fun i x ho hp hx => ⟨hx, h.not_mem_inPre hlater hnone ho hp⟩
        rw [if_neg hpre]
        obtain ⟨stack', s', done', o', ps', hpop, ho', hle, h', hleft, hs', hresult, hcuts⟩ := ih h.pop hs1 hend
        refine ⟨stack', s', done', o', ps1 ++ ps', hpop, htop.2.trans ho', hle, h',
          fun q hq => ⟨mem_cons_of_mem _ (hleft q hq).1, (hleft q hq).2⟩, hs', ?_,
          hkept.append hcuts htop.2 ho'⟩
        rw [hresult, hresult1, map_append, append_assoc]
    · rw [if_neg hend]
      refine ⟨_, s, done, o, [], rfl, le_rfl, hoffset, h, fun q hq => ⟨hq, ?_⟩, hs, by simp,
        .nil fun i x ho hp => by omega⟩
      rcases mem_cons.mp hq with rfl | hq
      · omega
      · have := (hnested.1 q hq).1
        omega

/-- A bound that is reached: another entity begins, or the text ends. -/
theorem Stacked.addOffset {offset : ℤ} (hoffset : o ≤ offset)
    (hmax : offset ≤ maxInt32) (hbound : offset ∈ bounds others) (hrest : ∀ q ∈ rest, offset ≤ q.offset)
    (hpre : ∀ q ∈ stack, offset < q.endOffset → isPreEntity q.type = false) :
    ∃ stack' s' done' ps, addOffset offset stack s = .ok (stack', s') ∧ Stacked others offset stack' rest ∧
      (∀ q ∈ stack', offset < q.endOffset) ∧ Swept entities (cutPoints entities others) offset done' s'.it s' ∧
      s'.result = s.result ++ ps.map pieceEntity ∧
      Cuts (keptCovers entities others) (cutPoints entities others) o offset ps := by
  obtain ⟨stack', s1, done1, o1, ps1, hpop, ho1, hle1, h1, hleft, hs1, hresult1, hcuts1⟩ :=
    h.popOffset hothers hin hs hoffset hrest
  obtain ⟨s', done', ps', hadd, hs', hresult, hcuts⟩ := h1.addEntities hothers hin hs1 hle1 hmax hbound
    (fun q hq => (hleft q hq).2.le) hrest
  have hkept : Cuts (keptCovers entities others) (cutPoints entities others) o1 offset ps' :=
    hcuts.restrict (fun i => Set.sdiff_subset) fun i x ho hp hx =>
      ⟨hx, h1.not_mem_inPre hrest (fun q hq => hpre q (hleft q hq).1 (hleft q hq).2) ho hp⟩
  refine ⟨stack', s', done', ps1 ++ ps', ?_, ?_, fun q hq => (hleft q hq).2, hs', ?_, hcuts1.append hkept ho1 hle1⟩
  · simp [Text.addOffset, hpop, ok_bind, hadd, pure_def]
  · refine ⟨h1.nested, fun q hq => ⟨(h1.around q hq).1.trans hle1, (hleft q hq).2.le⟩, h1.within, h1.known,
      fun q hq => ?_, h1.sorted, h1.nest⟩
    rcases h1.cover q hq with hq | hq | hq
    · exact .inl hq
    · exact .inr (.inl hq)
    · exact .inr (.inr (hq.trans hle1))
  · rw [hresult, hresult1, map_append, append_assoc]

theorem Stacked.splitLoop (ho : o ≤ maxInt32) (hrest : ∀ q ∈ rest, o ≤ q.offset) :
    ∃ s' ps, splitLoop stack s rest = .ok s' ∧ s'.result = s.result ++ ps.map pieceEntity ∧
      Cuts (keptCovers entities others) (cutPoints entities others) o maxInt32 ps := by
  induction rest generalizing o done stack s with
  | nil =>
    obtain ⟨stack', s', done', ps, hadd, -, -, -, hresult, hcuts⟩ := h.addOffset hothers hin hs ho le_rfl (.inl rfl)
      (by simp) fun q hq hlt => absurd (hothers.bound q (h.known q (.inl hq))) (by omega)
    refine ⟨s', ps, ?_, hresult, hcuts⟩
    rw [Text.splitLoop, hadd, ok_bind]
    rfl
  | cons q rest ih =>
    have hmem := h.known q (.inr (by simp))
    have hlength := hothers.length q hmem
    have hsorted := (pairwise_cons.mp h.sorted).1
    have hmax : q.offset ≤ maxInt32 := by
      have := hothers.bound q hmem
      simp only [endOffset] at this
      omega
    obtain ⟨stack1, s1, done1, ps1, hadd, h1, hleft, hs1, hresult1, hcuts1⟩ := h.addOffset hothers hin hs
      (hrest q (by simp)) hmax (.inr ⟨q, hmem, .inl rfl⟩) (forall_mem_cons.mpr ⟨le_rfl, hsorted⟩)
      fun d hd hlt => ((h.within d hd q (by simp)).resolve_left (by omega)).2
    obtain ⟨s', ps', hloop, hresult, hcuts⟩ := ih (h1.push hlength hleft) hs1 hmax hsorted
    refine ⟨s', ps1 ++ ps', ?_, ?_, hcuts1.append hcuts (hrest q (by simp)) hmax⟩
    · rw [Text.splitLoop, hadd, ok_bind]
      exact hloop
    · rw [hresult, hresult1, map_append, append_assoc]

end

theorem splitLoop_cuts (hin : Splittable entities) (hothers : Others others) :
    ∃ s ps, splitLoop [] { it := entities } others = .ok s ∧ s.result = ps.map pieceEntity ∧
      Cuts (keptCovers entities others) (cutPoints entities others) 0 maxInt32 ps := by
  have hstart : Stacked others 0 [] others :=
    ⟨List.Pairwise.nil, by simp, by simp, by simp, by simp +contextual, hothers.sorted, hothers.nest⟩
  have hswept : Swept entities (cutPoints entities others) 0 [] entities { it := entities } :=
    ⟨le_rfl, rfl, hin.offset, by simp, fun i x hx => by simp [covers]; omega, .inr rfl⟩
  exact hstart.splitLoop hothers hin hswept (by decide) hothers.offset

end

end Tdlib.Text
