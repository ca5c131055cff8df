import OpenDera.Compiler.VisitJoinInner

/-!
# What a compiled join computes

`sqlJoin` is the join that SQL defines: all pairs of partners, and for outer joins the rows
without a partner. The operators that `visitJoin` builds compute it for all relations, and
none of their casts fails. All three ways to find the rows without a partner end in the same
filter of the input.
-/

namespace OpenDera.Compiler

open StreamCalculus IndexedZSet Side LogicalJoin

variable {V : Type*} [LinearOrder V]

section

variable {join : LogicalJoin V} {own others : Table V}

namespace Side

variable {side : Side} (unfiltered : side.isUnfiltered join = true)

include unfiltered

/-- Without filters, a row can have a partner exactly if no key column that must not be NULL is
NULL. -/
theorem accepts_eq_not_anyNull (row : Row (Cell V)) :
    side.accepts join row = !anyNull (side.rowType join) (side.nonNullFields join) row := by
  rw [isUnfiltered, Bool.and_eq_true, List.isEmpty_iff] at unfiltered
  rw [Bool.eq_iff_iff, accepts, decide_eq_true_eq, Bool.not_eq_true', side.anyNull_eq_false_iff,
    unfiltered.2]
  simp

/-- Without filters, a row has no partner exactly if it cannot have one or no key agrees. -/
theorem noPartner_iff (othersRelation : IsRelation (side.other.rowType join) others)
    {row : Row (Cell V)} (typed : Typed (side.rowType join) row) :
    others.filter (fun second => side.arePartners join row second.1) = 0 ↔
      (side.accepts join row = true →
        others.filter (fun second => side.other.accepts join second.1 &&
          sameKey (side.index join) (side.other.index join) (row, ()) second) = 0) := by
  rw [isUnfiltered, Bool.and_eq_true, Bool.not_eq_true'] at unfiltered
  simp only [filter_eq_zero_iff]
  constructor
  · intro none accepted otherRow value present
    rw [Bool.eq_false_iff]
    intro agrees
    rw [Bool.and_eq_true, sameKey_eq_true_iff] at agrees
    have partners := (side.arePartners_iff typed (othersRelation.typed _ _ present)).mpr
      ⟨accepted, agrees.1, agrees.2.symm,
        postJoinCondition_of_not_hasFilter unfiltered.1 _⟩
    exact absurd partners (Bool.eq_false_iff.mp (none otherRow value present))
  · intro none otherRow value present
    rw [Bool.eq_false_iff]
    intro partners
    obtain ⟨accepted, otherAccepted, same, -⟩ :=
      (side.arePartners_iff typed (othersRelation.typed _ _ present)).mp partners
    refine absurd ?_ (Bool.eq_false_iff.mp (none accepted otherRow value present))
    rw [Bool.and_eq_true, sameKey_eq_true_iff]
    exact ⟨otherAccepted, same.symm⟩

/-- Where the key columns have the types of the key, every row of the type can have a partner. -/
theorem accepts_of_keyType (same : join.keyType = List.zipWith (· || ·) join.keyType
      ((side.keyFields join).select (side.rowType join))) {row : Row (Cell V)}
    (typed : Typed (side.rowType join) row) : side.accepts join row = true := by
  rw [accepts_eq_not_anyNull unfiltered, Bool.not_eq_true', side.anyNull_eq_false_iff]
  intro test member required
  have mayNot : test.mayBeNull = false := by
    rw [join.wellFormed.nonNull_eq test member, Bool.not_eq_true'] at required
    exact required
  simp only [keyType, KeyFields.select, keyFields, List.map_map, List.zipWith_map,
    List.zipWith_self] at same
  have here := List.map_inj_left.mp same test member
  rw [mayNot, Bool.false_or] at here
  refine typed.column_ne_bot ?_
  have present := side.columnOf_lt member
  have never : (side.rowType join).getD (side.columnOf test) default = false := here.symm
  rw [List.getD_eq_getElem _ _ present] at never ⊢
  exact never

/-- Without filters, the anti-join and the rows with NULL in a key column are the rows without a
partner. -/
theorem antiJoinRows_eq (kept : side.isKept join = true)
    (ownRelation : IsRelation (side.rowType join) own)
    (othersRelation : IsRelation (side.other.rowType join) others) :
    side.antiJoinRows join own
        ((own.filter fun pair => side.accepts join pair.1).map (side.index join))
        ((others.filter fun pair => side.other.accepts join pair.1).map (side.other.index join)) =
      some (side.unmatchedRows join own others) := by
  have expanded : ∀ condition : Row (Cell V) × Unit → Bool,
      ((own.filter condition).map (side.index join)).tryMap (side.expand join) =
        some ((own.filter condition).map fun pair =>
          (side.place pair.1 (side.other.nulls join), ())) := by
    intro condition
    refine tryMap_map _ ownRelation.nonneg.filter fun row value present => ?_
    have typed := ownRelation.typed row value (weight_filter_ne_zero.mp present).1
    have whole : side.unshuffle join (side.index join (row, value)).1
        (side.index join (row, value)).2 = row := side.unshuffle_index typed
    rw [expand, whole, castRow_of_typed (side.typed_place_nulls kept typed)]
    rfl
  have anti : ((own.filter fun pair => side.accepts join pair.1).map (side.index join)).antiJoin
      ((others.filter fun pair => side.other.accepts join pair.1).map (side.other.index join)) =
        (own.filter fun pair => side.accepts join pair.1 && decide (others.filter (fun second =>
          side.other.accepts join second.1 &&
            sameKey (side.index join) (side.other.index join) pair second) = 0)).map
          (side.index join) := by
    rw [antiJoin_map_map _ _ othersRelation.nonneg.filter, unmatched_filter]
  rw [antiJoinRows, anti, expanded, unmatchedRows, unmatched]
  simp only [Option.bind_eq_bind, Option.bind_some]
  split
  case isTrue same =>
    refine congrArg some (congrArg _ (filter_congr fun row value present => ?_))
    have typed := ownRelation.typed row value present
    have accepted := accepts_of_keyType unfiltered same typed
    rw [accepted, Bool.true_and, decide_eq_decide, noPartner_iff unfiltered othersRelation typed]
    simp [accepted]
  case isFalse =>
    have indexed : (filterNonNullFields (side.rowType join) (side.nonNullFields join) own
        true).tryMap (fun pair => side.toRemainderKey join pair.1) =
          some ((own.filter fun pair => anyNull (side.rowType join) (side.nonNullFields join)
            pair.1).map (side.index join)) := by
      rw [filterNonNullFields_eq ownRelation]
      refine tryMap_eq_map _ fun row value present => ?_
      have typed := ownRelation.typed row value (weight_filter_ne_zero.mp present).1
      rw [toRemainderKey, castRow_of_typed (typed.select side.keyFields_lt),
        castRow_of_typed (side.typed_resultType typed).nonKeyFields]
      rfl
    rw [indexed, Option.bind_some, expanded, Option.bind_some]
    refine congrArg some (map_filter_add_map_filter _ fun row value present => ?_)
    have typed := ownRelation.typed row value present
    have noPartner := noPartner_iff unfiltered othersRelation typed
    rw [accepts_eq_not_anyNull unfiltered] at noPartner ⊢
    revert noPartner
    cases anyNull (side.rowType join) (side.nonNullFields join) row with
    | false =>
      intro noPartner
      simpa using noPartner.symm
    | true =>
      intro noPartner
      simpa using noPartner

end Side

end

section

variable {join : LogicalJoin V} {own others : Table V} {row otherRow : Row (Cell V)}
  {nodes : List (RexNode V)} {index : ℕ} {node : RexNode V}

omit [LinearOrder V] in
theorem RexNode.mem_referencesAll (member : node ∈ nodes)
    (reference : index ∈ node.references) : index ∈ RexNode.referencesAll nodes := by
  induction nodes with
  | nil => cases member
  | cons _ _ ih =>
    rw [referencesAll, List.mem_append]
    rcases List.mem_cons.mp member with rfl | member
    · exact .inl reference
    · exact .inr (ih member)

omit [LinearOrder V] in
theorem LogicalJoin.mem_usedFields {offset size : ℕ}
    (member : node ∈ nodes) (reference : offset + index ∈ node.references)
    (present : index < size) : index ∈ usedFields offset size nodes := by
  rw [usedFields, List.mem_filter, List.mem_range, List.contains_iff_mem]
  exact ⟨present, RexNode.mem_referencesAll member reference⟩

namespace Side

variable (side : Side)

/-- The columns of the extended key. -/
theorem mem_extended_iff : index ∈ (side.extended join).keyFields ↔
      index ∈ (side.keyFields join).keyFields ∨
      (join.hasFilter = true ∧ index ∈ usedFields (side.offset join)
        (side.rowType join).length join.decomposition.leftOver.toList) ∨
      index ∈ usedFields 0 join.leftType.length join.decomposition.leftPredicates ∨
      index ∈ usedFields join.leftType.length join.rightType.length
        join.decomposition.rightPredicates := by
  simp only [extended, KeyFields.addAll, List.mem_append]
  split
  case isTrue filter => simp [filter, or_assoc]
  case isFalse noFilter => simp [noFilter, or_assoc]

/-- The columns that the predicates on a side refer to. -/
theorem predicates_reference
    (member : node ∈ side.predicates join) (reference : index ∈ node.references) :
    index - side.offset join ∈ (side.extended join).keyFields := by
  rw [mem_extended_iff]
  cases side with
  | left =>
    have inRange := join.wellFormed.leftPredicates_lt node member index reference
    exact .inr (.inr (.inl (mem_usedFields member (by simpa [offset]) inRange)))
  | right =>
    have isRight := join.wellFormed.rightPredicates_le node member index reference
    have inRange := join.wellFormed.rightPredicates_lt node member index reference
    refine .inr (.inr (.inr (mem_usedFields member ?_ ?_)))
    · rw [offset, Nat.add_sub_cancel' isRight]
      exact reference
    · rw [offset]
      omega

omit [LinearOrder V] in
theorem column_place_own (typed : Typed (side.rowType join) row)
    (otherTyped : Typed (side.other.rowType join) otherRow)
    (present : index < (side.rowType join).length) :
    column (side.place row otherRow) (side.offset join + index) = column row index := by
  have length := typed.length_eq
  have otherLength := otherTyped.length_eq
  cases side with
  | left =>
    rw [place, offset, Nat.zero_add]
    exact column_append_left (by omega)
  | right =>
    change join.leftType.length = otherRow.length at otherLength
    rw [place, offset, column_append_right (by omega), otherLength, Nat.add_sub_cancel_left]

section

variable {first second : Row (Cell V)} (firstTyped : Typed (side.rowType join) first)
  (secondTyped : Typed (side.rowType join) second)
  (otherTyped : Typed (side.other.rowType join) otherRow)
  (same : ∀ index ∈ (side.extended join).keyFields, column first index = column second index)

include firstTyped secondTyped otherTyped same

/-- The filter after the join depends on the columns of the extended key. -/
theorem postJoinCondition_congr : join.postJoinCondition (side.place first otherRow) =
      join.postJoinCondition (side.place second otherRow) := by
  cases filter : join.hasFilter with
  | false =>
    rw [postJoinCondition_of_not_hasFilter filter,
      postJoinCondition_of_not_hasFilter filter]
  | true =>
    unfold postJoinCondition
    split
    case h_1 => rfl
    case h_2 node rest =>
      refine decide_eq_decide.mpr (RexNode.isTrue_congr fun index reference => ?_)
      have inRange := join.wellFormed.leftOver_lt node rest index reference
      have used : ∀ own, index = side.offset join + own → own < (side.rowType join).length →
          column first own = column second own := by
        rintro own rfl present
        refine same own (side.mem_extended_iff.mpr (.inr (.inl ⟨filter, ?_⟩)))
        exact mem_usedFields (by simp [rest]) reference present
      have firstLength := firstTyped.length_eq
      have secondLength := secondTyped.length_eq
      have otherLength := otherTyped.length_eq
      cases side with
      | left =>
        change join.leftType.length = _ at firstLength secondLength
        rw [place, place]
        by_cases isLeft : index < join.leftType.length
        · rw [column_append_left (by omega), column_append_left (by omega)]
          exact used index (by simp [offset]) isLeft
        · rw [column_append_right (by omega), column_append_right (by omega), ← firstLength,
            ← secondLength]
      | right =>
        change join.leftType.length = _ at otherLength
        rw [place, place]
        by_cases isLeft : index < join.leftType.length
        · rw [column_append_left (by omega), column_append_left (by omega)]
        · rw [column_append_right (by omega), column_append_right (by omega)]
          refine used _ (by rw [offset]; omega) ?_
          change _ < join.rightType.length
          omega

/-- Whether two rows are partners depends on the columns of the extended key. -/
theorem arePartners_congr :
    side.arePartners join first otherRow = side.arePartners join second otherRow := by
  have keys : ∀ test ∈ join.decomposition.comparisons,
      column first (side.columnOf test) = column second (side.columnOf test) := by
    intro test member
    exact same _ (side.mem_extended_iff.mpr (.inl (List.mem_map_of_mem member)))
  have accepted : side.accepts join first = side.accepts join second := by
    rw [accepts, accepts, decide_eq_decide]
    refine and_congr (forall₂_congr fun node member => ?_) (forall₂_congr fun test member => ?_)
    · exact RexNode.isTrue_congr fun index reference =>
        same _ (side.predicates_reference member reference)
    · rw [keys test member]
  have selected : (side.keyFields join).select first = (side.keyFields join).select second := by
    rw [KeyFields.select, KeyFields.select, keyFields, List.map_map, List.map_map]
    exact List.map_congr_left keys
  rw [Bool.eq_iff_iff, side.arePartners_iff firstTyped otherTyped,
    side.arePartners_iff secondTyped otherTyped, accepted, selected,
    side.postJoinCondition_congr firstTyped secondTyped otherTyped same]

end

/-- All pairs of partners, seen from one side. -/
def matched (join : LogicalJoin V) (own others : Table V) : Table V := match side with
  | .left => join.matched own others
  | .right => join.matched others own

theorem matched_pos_iff (nonneg : own.Nonneg) (othersNonneg : others.Nonneg) {value : Unit} :
    0 < (side.matched join own others).weight row value ↔
      ∃ ownRow otherRow, own.weight ownRow () ≠ 0 ∧ others.weight otherRow () ≠ 0 ∧
        side.arePartners join ownRow otherRow = true ∧ row = side.place ownRow otherRow := by
  cases side with
  | left => exact matched_pos_iff nonneg othersNonneg
  | right =>
    refine (matched_pos_iff othersNonneg nonneg).trans ?_
    constructor
    · rintro ⟨leftRow, rightRow, leftPresent, rightPresent, partners, same⟩
      exact ⟨rightRow, leftRow, rightPresent, leftPresent, partners, same⟩
    · rintro ⟨ownRow, otherRow, present, otherPresent, partners, same⟩
      exact ⟨otherRow, ownRow, otherPresent, present, partners, same⟩

theorem nonneg_matched (nonneg : own.Nonneg) (othersNonneg : others.Nonneg) :
    (side.matched join own others).Nonneg := by
  cases side with
  | left => exact nonneg.thetaJoin othersNonneg
  | right => exact othersNonneg.thetaJoin nonneg

omit [LinearOrder V] in
theorem length_resultType : (side.resultType join).length = (side.rowType join).length := by
  cases side with
  | left =>
    rw [resultType, leftResultType]
    split <;> simp [rowType]
  | right =>
    rw [resultType, rightResultType]
    split <;> simp [rowType]

/-- The extended key and the other columns of a row. -/
def extendedIndex (join : LogicalJoin V) (pair : Row (Cell V) × Unit) :
    Row (Cell V) × Row (Cell V) :=
  ((side.extended join).select pair.1, (side.extended join).nonKeyFields pair.1)

/-- The extended key of a row of the join. -/
def joinColumns (join : LogicalJoin V) (pair : Row (Cell V) × Unit) : Row (Cell V) × Row (Cell V) :=
  ((side.extended join).keyFields.map fun index => column pair.1 (side.offset join + index), [])

variable (inRange : ∀ index ∈ (side.extended join).keyFields, index < (side.rowType join).length)

include inRange

/-- The extended key of a row of the join is that of its own part. -/
theorem joinColumns_place (typed : Typed (side.rowType join) row)
    (otherTyped : Typed (side.other.rowType join) otherRow) (value : Unit) :
    (side.joinColumns join (side.place row otherRow, value)).1 = (side.extended join).select row :=
  List.map_congr_left fun index member =>
    side.column_place_own typed otherTyped (inRange index member)

variable (ownRelation : IsRelation (side.rowType join) own)
  (othersRelation : IsRelation (side.other.rowType join) others)

include ownRelation othersRelation

/-- No row of the join has the extended key of a row exactly if the row has no partner. -/
theorem noPartner_extended_iff (present : own.weight row () ≠ 0) :
    (side.matched join own others).filter
        (sameKey (side.extendedIndex join) (side.joinColumns join) (row, ())) = 0 ↔
      others.filter (fun second => side.arePartners join row second.1) = 0 := by
  have typed := ownRelation.typed row () present
  simp only [filter_eq_zero_iff, Bool.eq_false_iff, ne_eq, sameKey_eq_true_iff]
  constructor
  · intro none otherRow value otherPresent partners
    have joined : 0 < (side.matched join own others).weight (side.place row otherRow) () :=
      (side.matched_pos_iff ownRelation.nonneg othersRelation.nonneg).mpr
        ⟨row, otherRow, present, otherPresent, partners, rfl⟩
    exact none _ _ joined.ne'
      (side.joinColumns_place inRange typed (othersRelation.typed _ _ otherPresent) ())
  · intro none joinedRow value joinedPresent same
    have positive := (side.nonneg_matched ownRelation.nonneg othersRelation.nonneg joinedRow
      value).lt_of_ne' joinedPresent
    obtain ⟨ownRow, otherRow, ownPresent, otherPresent, partners, rfl⟩ :=
      (side.matched_pos_iff ownRelation.nonneg othersRelation.nonneg).mp positive
    have ownTyped := ownRelation.typed _ _ ownPresent
    have otherTyped := othersRelation.typed _ _ otherPresent
    rw [side.joinColumns_place inRange ownTyped otherTyped] at same
    have unchanged := side.arePartners_congr ownTyped typed otherTyped (List.map_inj_left.mp same)
    exact none otherRow () otherPresent (unchanged ▸ partners)

omit inRange

/-- With filters, the anti-join on the extended key leaves the rows without a partner. -/
theorem extendedAntiJoinRows_eq (inRange : side.extendedInRange join = true)
    (filtered : side.isUnfiltered join = false) :
    side.extendedAntiJoinRows join own (side.matched join own others) =
      some (side.unmatchedRows join own others) := by
  have extendedLt : ∀ index ∈ (side.extended join).keyFields,
      index < (side.rowType join).length := by
    simpa [extendedInRange, filtered] using inRange
  have resultLt : ∀ index ∈ (side.extended join).keyFields,
      index < (side.resultType join).length := by
    rw [side.length_resultType]
    exact extendedLt
  have nonneg : (side.matched join own others).Nonneg :=
    side.nonneg_matched ownRelation.nonneg othersRelation.nonneg
  have projected : (side.matched join own others).tryMap (fun pair =>
      side.toJoinColumns join pair.1) =
        some ((side.matched join own others).map (side.joinColumns join)) := by
    refine tryMap_eq_map _ fun joinedRow value present => ?_
    obtain ⟨ownRow, otherRow, ownPresent, otherPresent, -, rfl⟩ :=
      (side.matched_pos_iff ownRelation.nonneg othersRelation.nonneg).mp
        ((nonneg joinedRow value).lt_of_ne' present)
    have ownTyped := ownRelation.typed _ _ ownPresent
    have typed : Typed (side.subKeyType join)
        (side.joinColumns join (side.place ownRow otherRow, value)).1 := by
      rw [side.joinColumns_place extendedLt ownTyped (othersRelation.typed _ _ otherPresent)]
      exact (side.typed_resultType ownTyped).select resultLt
    have cast : castRow (side.subKeyType join) ((side.extended join).keyFields.map fun index =>
        column (side.place ownRow otherRow) (side.offset join + index)) = some _ :=
      castRow_of_typed typed
    rw [toJoinColumns, cast]
    rfl
  have indexed : own.tryMap (fun pair => side.toExtendedKey join pair.1) =
      some (own.map (side.extendedIndex join)) := by
    refine tryMap_eq_map _ fun ownRow value present => ?_
    have typed := side.typed_resultType (ownRelation.typed _ _ present)
    rw [toExtendedKey, subKeyType, castRow_of_typed (typed.select resultLt),
      castRow_of_typed typed.nonKeyFields]
    rfl
  have unmatched : own.unmatched (sameKey (side.extendedIndex join)
        (side.joinColumns join)) (side.matched join own others) =
      own.unmatched (fun first second => side.arePartners join first.1 second.1) others :=
    filter_congr fun ownRow value present => decide_eq_decide.mpr
      (side.noPartner_extended_iff extendedLt ownRelation othersRelation present)
  rw [extendedAntiJoinRows, projected, indexed]
  simp only [Option.bind_eq_bind, Option.bind_some]
  rw [antiJoin_map_map _ _ nonneg, unmatched, map_map, unmatchedRows]
  refine congrArg some (map_congr fun ownRow value present => ?_)
  have typed := side.typed_resultType
    (ownRelation.typed ownRow value (weight_filter_ne_zero.mp present).1)
  exact congrArg (fun own => (side.place own _, ())) (typed.unshuffle resultLt)

end Side

end

section

variable {join : LogicalJoin V} {left right own others : Table V}

/-- The rows that an outer join adds for an input, found in one way or another. -/
theorem Side.keptRows_eq (side : Side)
    (inRange : side.isKept join = true → side.extendedInRange join = true)
    (ownRelation : IsRelation (side.rowType join) own)
    (othersRelation : IsRelation (side.other.rowType join) others) :
    side.keptRows join own ((own.filter fun pair => side.accepts join pair.1).map (side.index join))
        ((others.filter fun pair => side.other.accepts join pair.1).map (side.other.index join))
        (side.matched join own others) =
      some (if side.isKept join then side.unmatchedRows join own others else 0) := by
  unfold keptRows outerRows
  split
  case isFalse => rfl
  case isTrue kept =>
    split
    case isTrue unfiltered => exact antiJoinRows_eq unfiltered kept ownRelation othersRelation
    case isFalse filtered =>
      exact side.extendedAntiJoinRows_eq ownRelation othersRelation (inRange kept)
        (Bool.eq_false_of_not_eq_true filtered)

/-- The join that SQL defines: all pairs of partners, and for outer joins the rows without a
partner. -/
def LogicalJoin.sqlJoin (join : LogicalJoin V) (left right : Table V) : Table V :=
  join.matched left right +
    (if Side.left.isKept join then Side.left.unmatchedRows join left right else 0) +
    (if Side.right.isKept join then Side.right.unmatchedRows join right left else 0)

section

variable (leftRelation : IsRelation join.leftType left)
  (rightRelation : IsRelation join.rightType right)

include leftRelation rightRelation

/-- Pairs of partners have the type of the result. -/
theorem LogicalJoin.typed_matched {row : Row (Cell V)} {value : Unit}
    (present : (join.matched left right).weight row value ≠ 0) : Typed join.resultType row := by
  have nonneg : (join.matched left right).Nonneg :=
    leftRelation.nonneg.thetaJoin rightRelation.nonneg
  obtain ⟨leftRow, rightRow, leftPresent, rightPresent, -, rfl⟩ :=
    (matched_pos_iff leftRelation.nonneg rightRelation.nonneg).mp
      ((nonneg row value).lt_of_ne' present)
  exact (Side.left.typed_resultType (leftRelation.typed _ _ leftPresent)).append
    (Side.right.typed_resultType (rightRelation.typed _ _ rightPresent))

/-- The sum of the parts is the join. -/
theorem LogicalJoin.sumOfParts_eq
    (leftInRange : Side.left.isKept join = true → Side.left.extendedInRange join = true)
    (rightInRange : Side.right.isKept join = true → Side.right.extendedInRange join = true) :
    join.sumOfParts left right = some (join.sqlJoin left right) := by
  have leftRows := Side.left.keptRows_eq leftInRange leftRelation rightRelation
  have rightRows := Side.right.keptRows_eq rightInRange rightRelation leftRelation
  rw [sumOfParts, Side.left.nonNullIndex_eq leftRelation, Side.right.nonNullIndex_eq rightRelation]
  simp only [Option.bind_eq_bind, Option.bind_some]
  rw [innerJoin_eq leftRelation rightRelation,
    insertCastMap_eq _ fun _ _ present => typed_matched leftRelation rightRelation present]
  simp only [Side.other, Side.matched] at leftRows rightRows
  rw [leftRows, Option.bind_some, rightRows]
  rfl

end

theorem Side.typed_unmatchedRows (side : Side) (kept : side.isKept join = true)
    (ownRelation : IsRelation (side.rowType join) own) {row : Row (Cell V)} {value : Unit}
    (present : (side.unmatchedRows join own others).weight row value ≠ 0) :
    Typed join.resultType row := by
  have nonneg : (own.unmatched (fun first second => side.arePartners join first.1 second.1)
      others).Nonneg := ownRelation.nonneg.filter
  have positive := (nonneg.map row value).lt_of_ne' present
  obtain ⟨pair, inside, same⟩ := (flatMap_pos_iff nonneg).mp positive
  obtain rfl := (Prod.mk.inj (List.mem_singleton.mp same)).1
  exact side.typed_place_nulls kept (ownRelation.typed _ _ (weight_filter_ne_zero.mp inside.ne').1)

namespace LogicalJoin

/-- The key and the other columns of a right row in a left join. -/
def optionalIndex (join : LogicalJoin V) (pair : Row (Cell V) × Unit) :
    Row (Cell V) × WithBot (Row (Cell V)) :=
  ((Side.right.keyFields join).select pair.1,
    WithBot.some ((Side.right.keyFields join).nonKeyFields pair.1))

theorem leftJoinLeft_eq (leftRelation : IsRelation join.leftType left) :
    join.leftJoinLeft left = some (left.map (Side.left.index join)) := by
  refine tryMap_eq_map _ fun row value present => ?_
  rw [castRow_of_typed ((leftRelation.typed row value present).select Side.left.keyFields_lt)]
  rfl

/-- A right row that can have a partner has a key of the types of the left key. -/
theorem leftJoinRight_eq (rightRelation : IsRelation join.rightType right) :
    join.leftJoinRight right =
      some ((right.filter fun pair => Side.right.accepts join pair.1).map join.optionalIndex) := by
  rw [leftJoinRight, Side.right.filtered_eq rightRelation]
  refine tryMap_eq_map _ fun row value present => ?_
  have accepted := (weight_filter_ne_zero.mp present).2
  have typed : Typed ((Side.left.keyFields join).select join.leftType)
      ((Side.right.keyFields join).select row) := by
    rw [Typed, KeyFields.select, KeyFields.select, keyFields, keyFields, List.map_map,
      List.map_map, List.forall₂_map_left_iff, List.forall₂_map_right_iff, List.forall₂_same]
    intro test member notNull
    rw [accepts, decide_eq_true_eq] at accepted
    refine accepted.2 test member ?_
    rw [join.wellFormed.nonNull_eq test member, Bool.not_eq_true', Bool.eq_false_iff]
    intro mayBeNull
    have nullable := join.wellFormed.left_nullable test member mayBeNull
    have inRange := join.wellFormed.leftColumn_lt test member
    have never : join.leftType.getD test.leftColumn default = false := notNull
    rw [List.getD_eq_getElem _ _ inRange] at nullable never
    simp [nullable] at never
  rw [castRow_of_typed typed]
  rfl

/-- Without filters on the left side, a right row that can have a partner is one exactly if the
keys agree. -/
theorem arePartners_of_unfiltered (unfiltered : Side.left.isUnfiltered join = true)
    {leftRow rightRow : Row (Cell V)} (leftTyped : Typed join.leftType leftRow)
    (rightTyped : Typed join.rightType rightRow) :
    (Side.right.accepts join rightRow && sameKey (Side.left.index join)
      join.optionalIndex (leftRow, ()) (rightRow, ())) =
        Side.left.arePartners join leftRow rightRow := by
  rw [Bool.eq_iff_iff, Bool.and_eq_true, sameKey_eq_true_iff,
    arePartners_left_iff leftTyped rightTyped]
  have noFilter := unfiltered
  rw [isUnfiltered, Bool.and_eq_true, Bool.not_eq_true'] at noFilter
  constructor
  · rintro ⟨accepted, same⟩
    refine ⟨?_, accepted, same.symm, postJoinCondition_of_not_hasFilter noFilter.1 _⟩
    rw [accepts_eq_not_anyNull unfiltered, Bool.not_eq_true', Side.left.anyNull_eq_false_iff]
    intro test member required
    rw [accepts, decide_eq_true_eq] at accepted
    have agree := select_eq_iff.mp same.symm test member
    exact fun null => accepted.2 test member required (agree.symm.trans null)
  · rintro ⟨-, accepted, same, -⟩
    exact ⟨accepted, same.symm⟩

variable (isLeft : join.joinType = .left)

include isLeft

omit [LinearOrder V] in
theorem isKept_left : Side.left.isKept join = true := by
  rw [Side.isKept, isLeft]
  rfl

/-- A left join keeps the rows of the left input only. -/
theorem sqlJoin_of_left : join.sqlJoin left right =
      join.matched left right + Side.left.unmatchedRows join left right := by
  have notKept : Side.right.isKept join = false := by
    rw [Side.isKept, isLeft]
    rfl
  rw [sqlJoin, isKept_left isLeft, notKept, if_pos rfl, if_neg Bool.false_ne_true, add_zero]

variable (unfiltered : Side.left.isUnfiltered join = true)

include unfiltered

/-- The left join of the indexed inputs. -/
theorem leftJoin_index_eq (leftRelation : IsRelation join.leftType left)
    (rightRelation : IsRelation join.rightType right) :
    IndexedZSet.leftJoin (fun key leftData rightData =>
        (Side.left.unshuffle join key leftData ++ join.unshuffleNullable key rightData, ())) ⊥
        (left.map (Side.left.index join))
        ((right.filter fun pair => Side.right.accepts join pair.1).map join.optionalIndex) =
      join.sqlJoin left right := by
  have noPartner : left.unmatched (sameKey (Side.left.index join) join.optionalIndex)
        (right.filter fun pair => Side.right.accepts join pair.1) =
      left.unmatched (fun first second => Side.left.arePartners join first.1 second.1) right := by
    refine filter_congr fun leftRow value leftPresent => decide_eq_decide.mpr ?_
    have partners : right.filter (fun pair => Side.right.accepts join pair.1 &&
        sameKey (Side.left.index join) join.optionalIndex (leftRow, value) pair) =
          right.filter fun second => Side.left.arePartners join leftRow second.1 :=
      filter_congr fun rightRow _ rightPresent => arePartners_of_unfiltered unfiltered
        (leftRelation.typed _ _ leftPresent) (rightRelation.typed _ _ rightPresent)
    rw [filter_filter, partners]
  rw [leftJoin_map_map _ _ _ _ rightRelation.nonneg.filter,
    thetaJoin_filter_right, noPartner, sqlJoin_of_left isLeft]
  congr 1
  · apply thetaJoin_congr
    case sameCondition =>
      intro leftRow _ leftPresent rightRow _ rightPresent
      exact arePartners_of_unfiltered unfiltered (leftRelation.typed _ _ leftPresent)
        (rightRelation.typed _ _ rightPresent)
    case sameResult =>
      intro leftRow _ leftPresent rightRow _ rightPresent holds
      rw [Bool.and_eq_true, sameKey_eq_true_iff] at holds
      exact congrArg (fun row => (row, ())) (unshuffle_append_unshuffle
        (leftRelation.typed _ _ leftPresent) (rightRelation.typed _ _ rightPresent) holds.2)
  · refine map_congr fun leftRow value present => ?_
    have typed := leftRelation.typed _ _ (weight_filter_ne_zero.mp present).1
    have leftPart : Side.left.unshuffle join (Side.left.index join (leftRow, value)).1
        (Side.left.index join (leftRow, value)).2 = leftRow := Side.left.unshuffle_index typed
    rw [leftPart]
    change (leftRow ++ List.replicate (_ + _) ⊥, ()) = _
    have size : (Side.right.keyFields join).keyFieldSetSize + Side.right.dataSize join = _ :=
      KeyFields.keyFieldSetSize_add_length join.rightType Side.right.keyFields_lt
    rw [size]
    rfl

/-- The built-in left join computes the join. -/
theorem leftJoin_eq {left right : ℕ → Table V}
    (leftRelation : ∀ time, IsRelation join.leftType (left time))
    (rightRelation : ∀ time, IsRelation join.rightType (right time)) (time : ℕ) :
    join.leftJoin left right time = some (join.sqlJoin (left time) (right time)) := by
  have leftIndexed : ∀ step, join.leftJoinLeft (left step) = some _ :=
    fun step => leftJoinLeft_eq (leftRelation step)
  have rightIndexed : ∀ step, join.leftJoinRight (right step) = some _ :=
    fun step => leftJoinRight_eq (rightRelation step)
  have succeeds : ((List.range (time + 1)).all fun step => (join.leftJoinLeft (left step)).isSome &&
      (join.leftJoinRight (right step)).isSome) = true := by
    simp [leftIndexed, rightIndexed]
  rw [leftJoin, if_pos succeeds]
  simp only [leftIndexed, rightIndexed, Option.getD_some, incremental₂, integrate_differentiate, lift₂]
  rw [leftJoin_index_eq isLeft unfiltered (leftRelation time) (rightRelation time)]
  refine insertCastMap_eq _ fun row value present => ?_
  rw [sqlJoin_of_left isLeft, weight_add] at present
  by_cases joined : (join.matched (left time) (right time)).weight row value = 0
  · rw [joined, zero_add] at present
    exact Side.left.typed_unmatchedRows (isKept_left isLeft) (leftRelation time) present
  · exact typed_matched (leftRelation time) (rightRelation time) joined

end LogicalJoin

/-- A join that is accepted computes what SQL defines, at every step. -/
theorem visitJoin_computes_sqlJoin (join : LogicalJoin V)
    {circuit : (ℕ → Table V) → (ℕ → Table V) → ℕ → Option (Table V)}
    (accepted : visitJoin join = some circuit) (left right : ℕ → Table V)
    (leftRelation : ∀ time, IsRelation join.leftType (left time))
    (rightRelation : ∀ time, IsRelation join.rightType (right time)) (time : ℕ) :
    circuit left right time = some (join.sqlJoin (left time) (right time)) := by
  simp only [visitJoin, Option.ite_none_left_eq_some] at accepted
  obtain ⟨-, -, accepted⟩ := accepted
  split at accepted
  case isTrue isBuiltIn =>
    rw [← Option.some.inj accepted]
    exact join.leftJoin_eq isBuiltIn.1 isBuiltIn.2 leftRelation rightRelation time
  case isFalse =>
    obtain ⟨inRange, computes⟩ := Option.ite_none_left_eq_some.mp accepted
    rw [Bool.or_eq_true, not_or, Bool.and_eq_true, Bool.and_eq_true, Bool.not_eq_true',
      Bool.not_eq_true', not_and, not_and, Bool.not_eq_false, Bool.not_eq_false] at inRange
    rw [← Option.some.inj computes]
    exact join.sumOfParts_eq (leftRelation time) (rightRelation time) inRange.1 inRange.2

end

section

/-- A number in a column. -/
def number (value : ℕ) : Cell ℕ :=
  WithBot.some (toLex (Sum.inr value))

/-- A full join of two tables of two columns, on equal first columns and second columns that
are in order. -/
def orderedFullJoin : LogicalJoin ℕ where
  joinType := .full
  leftType := [true, false]
  rightType := [true, false]
  condition := .call .and [.call .equals [.inputRef 0, .inputRef 2],
    .call (.other fun operands => Cell.ofBool (operands.getD 0 ⊥ ≤ operands.getD 1 ⊥))
      [.inputRef 1, .inputRef 3]]
  references_lt := by decide

/-- Rows with NULL in the compared columns have no partner: both are kept. -/
theorem visitJoin_computes_sqlJoin_orderedFullJoin :
    ∃ circuit, visitJoin orderedFullJoin = some circuit ∧
      circuit (fun _ => .single ([⊥, number 1], ())) (fun _ => .single ([⊥, number 2], ())) 0 =
        some (.single ([⊥, number 1, ⊥, ⊥], ()) + .single ([⊥, ⊥, ⊥, number 2], ())) := by
  have accepted : (visitJoin orderedFullJoin).isSome = true := by
    decide +kernel
  obtain ⟨circuit, isCircuit⟩ := Option.isSome_iff_exists.mp accepted
  have typed : ∀ value, Typed [true, false] [⊥, number value] :=
    fun value => .cons (by simp) (.cons (fun _ => WithBot.coe_ne_bot) .nil)
  refine ⟨circuit, isCircuit, ?_⟩
  rw [visitJoin_computes_sqlJoin orderedFullJoin isCircuit _ _
    (fun _ => isRelation_single (typed 1)) (fun _ => isRelation_single (typed 2))]
  decide +kernel

end

end OpenDera.Compiler
