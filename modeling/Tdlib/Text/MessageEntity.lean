/-
Message entities and how `fix_entities` makes a list of them consistent: the
order of entities, the groups of types and the functions that drop, cut and merge.

Offsets and lengths are `int32` in the source; every sum that is taken here stays
below `2^31` for entities that passed the checks of `fix_formatted_text`, so they
are plain integers. `std::sort` is any function that sorts.
-/
import Mathlib.Data.List.Sort
import Tdlib.Lib.Bytes
import Tdlib.Lib.Outcome

namespace Tdlib.Text

open Outcome

inductive MessageEntityType
  | mention
  | hashtag
  | botCommand
  | url
  | emailAddress
  | bold
  | italic
  | code
  | pre
  | preCode
  | textUrl
  | mentionName
  | cashtag
  | phoneNumber
  | underline
  | strikethrough
  | blockQuote
  | bankCardNumber
  | mediaTimestamp
  | spoiler
  | customEmoji
  | expandableBlockQuote
  | formattedDate
  deriving DecidableEq, Repr

/-- `static_cast<int32>(type)`. -/
def MessageEntityType.toNat : MessageEntityType → Nat
  | .mention => 0
  | .hashtag => 1
  | .botCommand => 2
  | .url => 3
  | .emailAddress => 4
  | .bold => 5
  | .italic => 6
  | .code => 7
  | .pre => 8
  | .preCode => 9
  | .textUrl => 10
  | .mentionName => 11
  | .cashtag => 12
  | .phoneNumber => 13
  | .underline => 14
  | .strikethrough => 15
  | .blockQuote => 16
  | .bankCardNumber => 17
  | .mediaTimestamp => 18
  | .spoiler => 19
  | .customEmoji => 20
  | .expandableBlockQuote => 21
  | .formattedDate => 22

def MessageEntityType.getTypePriority : MessageEntityType → Nat
  | .mention => 50
  | .hashtag => 50
  | .botCommand => 50
  | .url => 50
  | .emailAddress => 50
  | .bold => 90
  | .italic => 91
  | .code => 20
  | .pre => 11
  | .preCode => 10
  | .textUrl => 49
  | .mentionName => 49
  | .cashtag => 50
  | .phoneNumber => 50
  | .underline => 92
  | .strikethrough => 93
  | .blockQuote => 0
  | .bankCardNumber => 50
  | .mediaTimestamp => 50
  | .spoiler => 94
  | .customEmoji => 99
  | .expandableBlockQuote => 0
  | .formattedDate => 30

structure FormattedDate where
  date : Int := 0
  dateFlags : Int := 0
  deriving DecidableEq, Repr

structure MessageEntity where
  type : MessageEntityType
  offset : Int
  length : Int
  argument : Bytes := []
  mediaTimestamp : Int := -1
  date : FormattedDate := {}
  userId : Int := 0
  customEmojiId : Int := 0
  deriving DecidableEq, Repr

namespace MessageEntity

/-- The constructor that leaves everything else as it is by default. -/
def plain (type : MessageEntityType) (offset length : Int) : MessageEntity := { type, offset, length }

/-- `offset + length`. -/
def endOffset (entity : MessageEntity) : Int := entity.offset + entity.length

/-- `operator<`. -/
def less (a b : MessageEntity) : Bool :=
  if a.offset ≠ b.offset then a.offset < b.offset
  else if a.length ≠ b.length then a.length > b.length
  else a.type.getTypePriority < b.type.getTypePriority

/-- `b` may follow `a` in a sorted list. -/
def NotAfter (a b : MessageEntity) : Prop := less b a = false

instance : DecidableRel NotAfter := fun a b => inferInstanceAs (Decidable (less b a = false))

theorem notAfter_iff {a b : MessageEntity} : NotAfter a b ↔ a.offset < b.offset ∨ a.offset = b.offset ∧
      (b.length < a.length ∨ a.length = b.length ∧ a.type.getTypePriority ≤ b.type.getTypePriority) := by
  unfold NotAfter less
  split_ifs <;> simp only [decide_eq_false_iff_not] <;> omega

theorem NotAfter.trans {a b c : MessageEntity} (hab : NotAfter a b) (hbc : NotAfter b c) : NotAfter a c := by
  rw [notAfter_iff] at *
  omega

theorem NotAfter.offset_le {a b : MessageEntity} (h : NotAfter a b) : a.offset ≤ b.offset := by
  rw [notAfter_iff] at h
  omega

theorem notAfter_total (a b : MessageEntity) : NotAfter a b ∨ NotAfter b a := by
  rw [notAfter_iff, notAfter_iff]
  omega

instance : Trans NotAfter NotAfter NotAfter := ⟨NotAfter.trans⟩

instance : IsTrans MessageEntity NotAfter := ⟨fun _ _ _ => NotAfter.trans⟩

instance : Std.Total NotAfter := ⟨notAfter_total⟩

end MessageEntity

open MessageEntity

/-- `std::is_sorted`. -/
def IsSorted (entities : List MessageEntity) : Prop := entities.IsChain NotAfter

instance : DecidablePred IsSorted := fun entities => inferInstanceAs (Decidable (entities.IsChain NotAfter))

variable {entities : List MessageEntity} {std : StdSort}

theorem isSorted_iff_pairwise : IsSorted entities ↔ entities.Pairwise NotAfter :=
  List.isChain_iff_pairwise

theorem IsSorted.sublist {left : List MessageEntity} (h : IsSorted entities) (hsub : left.Sublist entities) :
    IsSorted left :=
  isSorted_iff_pairwise.mpr ((isSorted_iff_pairwise.mp h).sublist hsub)

theorem IsSorted.filter (h : IsSorted entities) (p : MessageEntity → Bool) :
    IsSorted (entities.filter p) := h.sublist List.filter_sublist

/-- What the standard promises of `std::sort`; entities that compare equal may come in any order. -/
structure StdSort where
  sort : List MessageEntity → List MessageEntity
  perm : ∀ entities, (sort entities).Perm entities
  sorted : ∀ entities, IsSorted (sort entities)

/-- One that keeps entities that compare equal as they are. -/
def StdSort.insertion : StdSort where
  sort := List.insertionSort NotAfter
  perm := List.perm_insertionSort NotAfter
  sorted entities := isSorted_iff_pairwise.mpr (List.pairwise_insertionSort NotAfter entities)

def sortEntities (std : StdSort) (entities : List MessageEntity) : List MessageEntity :=
  if IsSorted entities then entities else std.sort entities

theorem sortEntities_perm (std : StdSort) (entities : List MessageEntity) :
    (sortEntities std entities).Perm entities := by
  unfold sortEntities
  split_ifs
  · exact .refl _
  · exact std.perm entities

theorem isSorted_sortEntities (std : StdSort) (entities : List MessageEntity) :
    IsSorted (sortEntities std entities) := by
  unfold sortEntities
  split_ifs with h
  · exact h
  · exact std.sorted entities

theorem sortEntities_of_isSorted (h : IsSorted entities) : sortEntities std entities = entities := if_pos h

@[simp] theorem mem_sortEntities {entity : MessageEntity} :
    entity ∈ sortEntities std entities ↔ entity ∈ entities := (sortEntities_perm std entities).mem_iff

def checkIsSorted (entities : List MessageEntity) : Outcome Unit := check (IsSorted entities)

def checkNonIntersecting (entities : List MessageEntity) : Outcome Unit :=
  check (entities.IsChain fun a b => a.endOffset ≤ b.offset)

/-! ## Groups of types -/

def getEntityTypeMask (type : MessageEntityType) : BitVec 32 := 1#32 <<< type.toNat

def getSplittableEntitiesMask : BitVec 32 :=
  getEntityTypeMask .bold ||| getEntityTypeMask .italic ||| getEntityTypeMask .underline |||
    getEntityTypeMask .strikethrough ||| getEntityTypeMask .spoiler

def getBlockquoteEntitiesMask : BitVec 32 :=
  getEntityTypeMask .blockQuote ||| getEntityTypeMask .expandableBlockQuote

def getContinuousEntitiesMask : BitVec 32 :=
  getEntityTypeMask .mention ||| getEntityTypeMask .hashtag ||| getEntityTypeMask .botCommand |||
    getEntityTypeMask .url ||| getEntityTypeMask .emailAddress ||| getEntityTypeMask .textUrl |||
    getEntityTypeMask .mentionName ||| getEntityTypeMask .cashtag ||| getEntityTypeMask .phoneNumber |||
    getEntityTypeMask .bankCardNumber ||| getEntityTypeMask .mediaTimestamp ||| getEntityTypeMask .customEmoji

def getPreEntitiesMask : BitVec 32 :=
  getEntityTypeMask .pre ||| getEntityTypeMask .code ||| getEntityTypeMask .preCode |||
    getEntityTypeMask .formattedDate

def isSplittableEntity (type : MessageEntityType) : Bool := getEntityTypeMask type &&& getSplittableEntitiesMask != 0

def isBlockquoteEntity (type : MessageEntityType) : Bool := getEntityTypeMask type &&& getBlockquoteEntitiesMask != 0

def isContinuousEntity (type : MessageEntityType) : Bool := getEntityTypeMask type &&& getContinuousEntitiesMask != 0

def isPreEntity (type : MessageEntityType) : Bool := getEntityTypeMask type &&& getPreEntitiesMask != 0

/-- `SPLITTABLE_ENTITY_TYPE_COUNT` is five. -/
abbrev SplittableIndex := Fin 5

/-- An index into an array of `SPLITTABLE_ENTITY_TYPE_COUNT` values. The code does
not check it; a value outside the array is undefined, here an abort. -/
def splittableIndex (index : Int) : Outcome SplittableIndex :=
  if h : 0 ≤ index ∧ index < 5 then .ok ⟨index.toNat, by omega⟩ else .fatal

def getSplittableEntityTypeIndex (type : MessageEntityType) : Outcome SplittableIndex := do
  if type.toNat ≤ MessageEntityType.bold.toNat + 1 then
    -- Bold or Italic
    splittableIndex ((type.toNat : Int) - MessageEntityType.bold.toNat)
  else if type.toNat ≤ MessageEntityType.underline.toNat + 1 then
    -- Underline or Strikethrough
    splittableIndex ((type.toNat : Int) - MessageEntityType.underline.toNat + 2)
  else
    check (type = .spoiler)
    pure 4

/-! ## `are_entities_valid` -/

structure ValidState where
  endPos : SplittableIndex → Int := fun _ => -1
  /-- The last one pushed comes first. -/
  nestedEntitiesStack : List MessageEntity := []
  nestedEntityTypeMask : BitVec 32 := 0

/-- Takes the entities that end before `offset` from the stack. -/
def popNestedEntities (offset : Int) : List MessageEntity → BitVec 32 → List MessageEntity × BitVec 32
  | [], mask => ([], mask)
  | top :: stack, mask =>
    if offset ≥ top.endOffset then popNestedEntities offset stack (mask - getEntityTypeMask top.type)
    else (top :: stack, mask)

/-- The checks of an entity inside `parent`, the top of the stack. -/
def canBeNested (entity parent : MessageEntity) (mask : BitVec 32) : Bool :=
  if entity.endOffset > parent.endOffset then false
  else if mask &&& getEntityTypeMask entity.type != 0 then false
  else if isPreEntity parent.type then false
  else if isPreEntity entity.type && (mask &&& ~~~getBlockquoteEntitiesMask != 0) then false
  else if (isContinuousEntity entity.type || isBlockquoteEntity entity.type) &&
      (mask &&& getContinuousEntitiesMask != 0) then false
  else if isBlockquoteEntity entity.type && (mask &&& getBlockquoteEntitiesMask != 0) then false
  else if mask &&& getSplittableEntitiesMask != 0 then false
  else true

/-- One turn of the loop; `none` is `return false`. -/
def areEntitiesValidStep (s : ValidState) (entity : MessageEntity) : Outcome (Option ValidState) :=
  let (stack, mask) := popNestedEntities entity.offset s.nestedEntitiesStack s.nestedEntityTypeMask
  let nested := match stack with
    | [] => true
    | parent :: _ => canBeNested entity parent mask
  let pushed (endPos : SplittableIndex → Int) : ValidState :=
    { endPos, nestedEntitiesStack := entity :: stack, nestedEntityTypeMask := mask + getEntityTypeMask entity.type }
  if !nested then pure none
  else if isSplittableEntity entity.type then do
    let index ← getSplittableEntityTypeIndex entity.type
    if s.endPos index ≥ entity.offset then
      -- the entities can be merged
      pure none
    else
      pure (some (pushed (Function.update s.endPos index entity.endOffset)))
  else
    pure (some (pushed s.endPos))

def areEntitiesValidLoop (s : ValidState) : List MessageEntity → Outcome Bool
  | [] => pure true
  | entity :: entities => do
    match ← areEntitiesValidStep s entity with
    | none => pure false
    | some s => areEntitiesValidLoop s entities

def areEntitiesValid (entities : List MessageEntity) : Outcome Bool :=
  if entities.isEmpty then pure true
  else do
    checkIsSorted entities
    areEntitiesValidLoop {} entities

/-! ## Removal of entities that intersect -/

def removeIntersectingLoop (lastEntityEnd : Int) : List MessageEntity → Outcome (List MessageEntity)
  | [] => pure []
  | entity :: entities => do
    check (entity.length > 0)
    if entity.offset ≥ lastEntityEnd then
      let left ← removeIntersectingLoop entity.endOffset entities
      pure (entity :: left)
    else
      removeIntersectingLoop lastEntityEnd entities

/-- Removes all intersecting entities, including nested. -/
def removeIntersectingEntities (entities : List MessageEntity) : Outcome (List MessageEntity) := do
  checkIsSorted entities
  removeIntersectingLoop 0 entities

/-- The blockquotes from the first one that does not end before `offset`. -/
def nextBlockquotes (offset : Int) : List MessageEntity → List MessageEntity
  | [] => []
  | blockquote :: blockquotes =>
    if !isBlockquoteEntity blockquote.type || blockquote.endOffset ≤ offset then nextBlockquotes offset blockquotes
    else blockquote :: blockquotes

def intersectsBlockquote (entity blockquote : MessageEntity) : Bool :=
  blockquote.endOffset < entity.endOffset ||
    (entity.offset < blockquote.offset && blockquote.offset < entity.endOffset)

def removeIntersectingBlockquoteLoop (blockquotes : List MessageEntity) : List MessageEntity → List MessageEntity
  | [] => []
  | entity :: entities =>
    match nextBlockquotes entity.offset blockquotes with
    | [] => entity :: removeIntersectingBlockquoteLoop [] entities
    | blockquote :: left =>
      if intersectsBlockquote entity blockquote then removeIntersectingBlockquoteLoop (blockquote :: left) entities
      else entity :: removeIntersectingBlockquoteLoop (blockquote :: left) entities

def removeEntitiesIntersectingBlockquote (entities blockquoteEntities : List MessageEntity) :
    Outcome (List MessageEntity) := do
  checkNonIntersecting entities
  checkNonIntersecting blockquoteEntities
  if blockquoteEntities.isEmpty then pure entities
  else pure (removeIntersectingBlockquoteLoop blockquoteEntities entities)

/-! ## `split_entities` -/

structure SplitState where
  beginPos : SplittableIndex → Int := fun _ => 0
  endPos : SplittableIndex → Int := fun _ => 0
  /-- The entities from `it` on. -/
  it : List MessageEntity
  result : List MessageEntity := []

def splittableTypes : List MessageEntityType := [.bold, .italic, .underline, .strikethrough, .spoiler]

def flushType (offset : Int) (s : SplitState) (type : MessageEntityType) : Outcome SplitState := do
  let index ← getSplittableEntityTypeIndex type
  if s.endPos index ≠ 0 ∧ s.beginPos index < offset then
    if s.endPos index ≤ offset then
      pure { s with
        result := s.result ++ [plain type (s.beginPos index) (s.endPos index - s.beginPos index)]
        beginPos := Function.update s.beginPos index 0
        endPos := Function.update s.endPos index 0 }
    else
      pure { s with
        result := s.result ++ [plain type (s.beginPos index) (offset - s.beginPos index)]
        beginPos := Function.update s.beginPos index offset }
  else
    pure s

def flushEntities (offset : Int) (s : SplitState) : Outcome SplitState := splittableTypes.foldlM (flushType offset) s

def addEntitiesLoop (endOffset : Int) : List MessageEntity → SplitState → Outcome SplitState
  | [], s => pure { s with it := [] }
  | entity :: it, s =>
    if entity.offset ≥ endOffset then pure { s with it := entity :: it }
    else do
      check (isSplittableEntity entity.type)
      let index ← getSplittableEntityTypeIndex entity.type
      if entity.offset ≤ s.endPos index ∧ s.endPos index ≠ 0 then
        if entity.endOffset > s.endPos index then
          addEntitiesLoop endOffset it { s with endPos := Function.update s.endPos index entity.endOffset }
        else
          addEntitiesLoop endOffset it s
      else
        let s ← flushEntities entity.offset s
        addEntitiesLoop endOffset it { s with
          beginPos := Function.update s.beginPos index entity.offset
          endPos := Function.update s.endPos index entity.endOffset }

def addEntities (endOffset : Int) (s : SplitState) : Outcome SplitState := do
  let s ← addEntitiesLoop endOffset s.it s
  flushEntities endOffset s

/-- Takes the entities that end before `offset` from the stack. What was added inside
a `Pre` is taken back. -/
def popOffset (offset : Int) : List MessageEntity → SplitState → Outcome (List MessageEntity × SplitState)
  | [], s => pure ([], s)
  | top :: stack, s =>
    if offset ≥ top.endOffset then do
      let added ← addEntities top.endOffset s
      popOffset offset stack
        (if isPreEntity top.type then { added with result := added.result.take s.result.length } else added)
    else
      pure (top :: stack, s)

def addOffset (offset : Int) (stack : List MessageEntity) (s : SplitState) :
    Outcome (List MessageEntity × SplitState) := do
  let (stack, s) ← popOffset offset stack s
  let s ← addEntities offset s
  pure (stack, s)

/-- `std::numeric_limits<int32>::max()`. -/
def maxInt32 : Int := 2147483647

def splitLoop (stack : List MessageEntity) (s : SplitState) : List MessageEntity → Outcome SplitState
  | [] => do
    let (_, s) ← addOffset maxInt32 stack s
    pure s
  | otherEntity :: otherEntities => do
    let (stack, s) ← addOffset otherEntity.offset stack s
    splitLoop (otherEntity :: stack) s otherEntities

def splitEntities (std : StdSort) (entities otherEntities : List MessageEntity) : Outcome (List MessageEntity) := do
  checkIsSorted entities
  checkIsSorted otherEntities
  let s ← splitLoop [] { it := entities } otherEntities
  -- entities are sorted only by offset now
  pure (sortEntities std s.result)

def resplitEntities (std : StdSort) (splittableEntities entities : List MessageEntity) :
    Outcome (List MessageEntity) :=
  if splittableEntities.isEmpty then pure entities
  else do
    let splittableEntities ← splitEntities std splittableEntities entities
    if entities.isEmpty then pure splittableEntities
    else pure (sortEntities std (entities ++ splittableEntities))

/-! ## `fix_entities` -/

/-- The entities that are not of a splittable type: the continuous ones and the
blockquotes, with what cannot stay beside them removed. -/
def fixOtherEntities (std : StdSort) (continuousEntities blockquoteEntities : List MessageEntity) :
    Outcome (List MessageEntity) := do
  let continuousEntities ← removeIntersectingEntities continuousEntities
  if blockquoteEntities.isEmpty then pure continuousEntities
  else
    let blockquoteEntities ← removeIntersectingEntities blockquoteEntities
    let continuousEntities ← removeEntitiesIntersectingBlockquote continuousEntities blockquoteEntities
    pure (sortEntities std (continuousEntities ++ blockquoteEntities))

def splittablePart (entities : List MessageEntity) : List MessageEntity :=
  entities.filter fun entity => isSplittableEntity entity.type

def blockquotePart (entities : List MessageEntity) : List MessageEntity :=
  entities.filter fun entity => !isSplittableEntity entity.type && isBlockquoteEntity entity.type

/-- The rest, `Pre` and the like among it. -/
def continuousPart (entities : List MessageEntity) : List MessageEntity :=
  entities.filter fun entity => !isSplittableEntity entity.type && !isBlockquoteEntity entity.type

/-- `fix_entities` after the fast path. -/
def fixSortedEntities (std : StdSort) (entities : List MessageEntity) : Outcome (List MessageEntity) := do
  let otherEntities ← fixOtherEntities std (continuousPart entities) (blockquotePart entities)
  let entities ← resplitEntities std (splittablePart entities) otherEntities
  checkIsSorted entities
  pure entities

def fixEntities (std : StdSort) (entities : List MessageEntity) : Outcome (List MessageEntity) := do
  let entities := sortEntities std entities
  if ← areEntitiesValid entities then
    -- fast path
    pure entities
  else
    fixSortedEntities std entities

end Tdlib.Text
