import OpenDera.Compiler.VisitJoin

/-!
# The inner part of a compiled join

For relations, the filters of the inputs keep the rows that can have a partner, and indexing
and casting them does not fail. Two rows are partners exactly if both can have one, their
keys agree and the filter after the join keeps them, so the join of the indexes is the join
on the condition.
-/

namespace OpenDera.Compiler

open IndexedZSet LogicalJoin JoinConditionAnalyzer

section

variable {V : Type*} {rowType : RowType} {row : Row (Cell V)}

/-- A row has a type. -/
def Typed (rowType : RowType) (row : Row (Cell V)) : Prop :=
  List.Forall₂ (fun mayBeNull cell => mayBeNull = false → cell ≠ ⊥) rowType row

variable (typed : Typed rowType row)

include typed

theorem Typed.column_ne_bot {index : ℕ} (notNull : rowType.getD index true = false) :
    column row index ≠ ⊥ := by
  induction typed generalizing index with
  | nil => simp at notNull
  | cons first _ ih =>
    cases index with
    | zero => exact first notNull
    | succ => exact ih notNull

theorem Typed.length_eq : rowType.length = row.length :=
  List.Forall₂.length_eq typed

theorem Typed.append {otherType : RowType} {other : Row (Cell V)}
    (otherTyped : Typed otherType other) : Typed (rowType ++ otherType) (row ++ other) :=
  List.rel_append typed otherTyped

theorem Typed.nullable : Typed (List.replicate rowType.length true) row := by
  induction typed with
  | nil => exact .nil
  | cons _ _ ih => exact .cons (by simp) ih

omit typed

theorem typed_nulls (size : ℕ) :
    Typed (List.replicate size true) (List.replicate size (⊥ : Cell V)) := by
  induction size with
  | zero => exact .nil
  | succ _ ih => exact .cons (by simp) ih

variable {fields : KeyFields} (typed : Typed rowType row)

include typed

theorem Typed.select (inRange : ∀ index ∈ fields.keyFields, index < rowType.length) :
    Typed (fields.select rowType) (fields.select row) := by
  rw [Typed, KeyFields.select, KeyFields.select, List.forall₂_map_left_iff,
    List.forall₂_map_right_iff, List.forall₂_same]
  intro index member notNull
  have present := inRange index member
  refine typed.column_ne_bot ?_
  rw [List.getD_eq_getElem _ _ present] at notNull ⊢
  exact notNull

theorem Typed.nonKeyFields : Typed (fields.nonKeyFields rowType) (fields.nonKeyFields row) := by
  suffices ∀ index, Typed (fields.nonKeyFieldsFrom index rowType)
      (fields.nonKeyFieldsFrom index row) from this 0
  induction typed with
  | nil => exact fun _ => .nil
  | cons first _ ih =>
    intro index
    rw [KeyFields.nonKeyFieldsFrom, KeyFields.nonKeyFieldsFrom]
    split
    · exact ih (index + 1)
    · exact .cons first (ih (index + 1))

/-- A row of the type is put together again from its key and its other fields. -/
theorem Typed.unshuffle (inRange : ∀ index ∈ fields.keyFields, index < rowType.length) :
    fields.unshuffleKeyAndDataFields (fields.select row) (fields.nonKeyFields row)
      (fields.nonKeyFields rowType).length = row := by
  have size : (fields.nonKeyFields rowType).length = (fields.nonKeyFields row).length :=
    (typed.nonKeyFields).length_eq
  rw [size]
  exact KeyFields.unshuffle_select row fun index member => typed.length_eq ▸ inRange index member

variable [LinearOrder V]

theorem castRow_of_typed : castRow rowType row = some row := by
  induction typed with
  | nil => rfl
  | cons first _ ih =>
    have cell : castCell _ _ = some _ := if_neg fun null => first null.2 null.1
    rw [castRow, cell, ih]
    rfl

/-- A Z-set is a multiset of rows of a type. -/
structure IsRelation (rowType : RowType) (table : Table V) : Prop where
  nonneg : table.Nonneg
  typed : ∀ row value, table.weight row value ≠ 0 → Typed rowType row

/-- A table that holds one row. -/
theorem isRelation_single : IsRelation rowType (single (row, ())) where
  nonneg := by
    intro key value
    rw [weight_single]
    split <;> decide
  typed := by
    intro key value present
    have same := eq_of_weight_single_ne_zero present
    rwa [← (Prod.mk.inj same).1]

end

variable {V : Type*} [LinearOrder V]

section

variable {join : LogicalJoin V} {own others : Row (Cell V)}

theorem LogicalJoin.wellFormed (join : LogicalJoin V) :
    join.decomposition.WellFormed join.leftType join.rightType :=
  wellFormed_analyze join.condition join.references_lt

namespace Side

variable (side : Side)

section

variable (join : LogicalJoin V)

/-- Two rows are partners. -/
def arePartners (own others : Row (Cell V)) : Bool :=
  decide (join.condition.IsTrue (column (side.place own others)))

variable (row : Row (Cell V))

/-- The columns of an input as the condition numbers them. -/
def fieldsOf (index : ℕ) : Cell V :=
  column row (index - side.offset join)

/-- A row can have a partner. -/
def accepts : Bool :=
  decide ((∀ node ∈ side.predicates join, node.IsTrue (side.fieldsOf join row)) ∧
    ∀ test ∈ join.decomposition.comparisons, test.nonNull = true →
      column row (side.columnOf test) ≠ ⊥)

end

theorem columnOf_lt {test : EqualityTest} (member : test ∈ join.decomposition.comparisons) :
    side.columnOf test < (side.rowType join).length := by
  cases side with
  | left => exact join.wellFormed.leftColumn_lt test member
  | right => exact join.wellFormed.rightColumn_lt test member

theorem keyFields_lt :
    ∀ index ∈ (side.keyFields join).keyFields, index < (side.rowType join).length := by
  simp only [keyFields, List.mem_map]
  rintro _ ⟨test, member, rfl⟩
  exact side.columnOf_lt member

variable {left right : Row (Cell V)}

omit [LinearOrder V] in
theorem column_append_left {index : ℕ} (present : index < left.length) :
    column (left ++ right) index = column left index :=
  List.getD_append _ _ _ _ present

omit [LinearOrder V] in
theorem column_append_right {index : ℕ}
    (beyond : left.length ≤ index) : column (left ++ right) index = column right (index - left.length) :=
  List.getD_append_right _ _ _ _ beyond

omit [LinearOrder V] in
/-- The keys of two rows agree exactly if all compared columns do. -/
theorem select_eq_iff :
    (Side.left.keyFields join).select left = (Side.right.keyFields join).select right ↔
      ∀ test ∈ join.decomposition.comparisons,
        column left test.leftColumn = column right test.rightColumn := by
  simp only [KeyFields.select, keyFields, List.map_map]
  exact List.map_inj_left

theorem arePartners_left_iff (leftTyped : Typed join.leftType left)
    (rightTyped : Typed join.rightType right) :
    Side.left.arePartners join left right = true ↔
      Side.left.accepts join left = true ∧ Side.right.accepts join right = true ∧
        (Side.left.keyFields join).select left = (Side.right.keyFields join).select right ∧
        join.postJoinCondition (left ++ right) = true := by
  have leftLength := leftTyped.length_eq
  have typed : ∀ index, columnMayBeNull join.leftType join.rightType index =
      false → column (left ++ right) index ≠ ⊥ :=
    fun index => (leftTyped.append rightTyped).column_ne_bot
  have comparisons : ∀ test ∈ join.decomposition.comparisons,
      (test.Holds join.leftType.length (column (left ++ right)) ↔
        column left test.leftColumn = column right test.rightColumn ∧
          (test.nonNull = true → column left test.leftColumn ≠ ⊥)) := by
    intro test member
    have isLeft := join.wellFormed.leftColumn_lt test member
    rw [EqualityTest.Holds, column_append_left (by omega), column_append_right (by omega), leftLength,
      Nat.add_sub_cancel_left]
  have leftPredicates : ∀ node ∈ join.decomposition.leftPredicates,
      (node.IsTrue (column (left ++ right)) ↔ node.IsTrue (Side.left.fieldsOf join left)) := by
    intro node member
    refine RexNode.isTrue_congr fun index reference => ?_
    have isLeft := join.wellFormed.leftPredicates_lt node member index reference
    exact column_append_left (by omega)
  have rightPredicates : ∀ node ∈ join.decomposition.rightPredicates,
      (node.IsTrue (column (left ++ right)) ↔ node.IsTrue (Side.right.fieldsOf join right)) := by
    intro node member
    refine RexNode.isTrue_congr fun index reference => ?_
    have isRight := join.wellFormed.rightPredicates_le node member index reference
    rw [column_append_right (by omega), ← leftLength]
    rfl
  have rest : (∀ node ∈ join.decomposition.leftOver, node.IsTrue (column (left ++ right))) ↔
      join.postJoinCondition (left ++ right) = true := by
    unfold postJoinCondition
    cases join.decomposition.leftOver <;> simp
  rw [arePartners, decide_eq_true_eq, place,
    ← holds_analyze_iff join.condition typed]
  change join.decomposition.Holds _ _ ↔ _
  rw [ConditionDecomposition.Holds, forall₂_congr comparisons, forall₂_congr leftPredicates,
    forall₂_congr rightPredicates, rest, select_eq_iff, accepts, accepts, decide_eq_true_eq,
    decide_eq_true_eq]
  constructor
  · rintro ⟨tests, leftHold, rightHold, post⟩
    refine ⟨⟨leftHold, fun test member => (tests test member).2⟩, ⟨rightHold, ?_⟩,
      fun test member => (tests test member).1, post⟩
    intro test member required
    exact (tests test member).1 ▸ (tests test member).2 required
  · rintro ⟨⟨leftHold, nonNull⟩, ⟨rightHold, -⟩, agree, post⟩
    exact ⟨fun test member => ⟨agree test member, nonNull test member⟩, leftHold, rightHold, post⟩

/-- Two rows are partners exactly if both can have one, their keys agree and the filter after the
join keeps them. -/
theorem arePartners_iff (ownTyped : Typed (side.rowType join) own)
    (othersTyped : Typed (side.other.rowType join) others) :
    side.arePartners join own others = true ↔
      side.accepts join own = true ∧ side.other.accepts join others = true ∧
        (side.keyFields join).select own = (side.other.keyFields join).select others ∧
        join.postJoinCondition (side.place own others) = true := by
  cases side with
  | left => exact arePartners_left_iff ownTyped othersTyped
  | right =>
    refine (arePartners_left_iff othersTyped ownTyped).trans ?_
    tauto

end Side

end

section

variable {join : LogicalJoin V} {rowType : RowType} {input : Table V}

theorem IsRelation.filter (relation : IsRelation rowType input)
    {condition : Row (Cell V) × Unit → Bool} : IsRelation rowType (input.filter condition) where
  nonneg := relation.nonneg.filter
  typed := fun row value present =>
    relation.typed row value (weight_filter_ne_zero.mp present).1

theorem makeAnd_eq_true_iff (cells : List (Cell V)) :
    makeAnd cells = Cell.ofBool true ↔ ∀ cell ∈ cells, cell = Cell.ofBool true := by
  cases cells with
  | nil => simp [makeAnd]
  | cons first rest =>
    rw [makeAnd, List.forall_mem_cons]
    induction rest generalizing first with
    | nil => simp
    | cons _ _ ih =>
      rw [List.foldl_cons, ih, Cell.and_eq_true_iff, List.forall_mem_cons, and_assoc]

/-- Where a row has its type, no given field that is never NULL is NULL. -/
theorem filterNonNullFields_eq (relation : IsRelation rowType input) (fields : List ℕ)
    (complement : Bool) :
    filterNonNullFields rowType fields input complement =
      input.filter fun pair => if complement then anyNull rowType fields pair.1
        else !anyNull rowType fields pair.1 := by
  unfold filterNonNullFields
  split
  case isTrue => rfl
  case isFalse never =>
    have none : ∀ row value, input.weight row value ≠ 0 → anyNull rowType fields row = false := by
      intro row value present
      rw [anyNull, List.any_eq_false]
      intro index _
      rw [Bool.and_eq_true, decide_eq_true_eq, List.contains_iff_mem]
      rintro ⟨member, null⟩
      refine (relation.typed row value present).column_ne_bot ?_ null
      rw [List.any_eq_true] at never
      push Not at never
      exact Bool.not_eq_true _ ▸ never index member
    cases complement with
    | true =>
      refine (filter_eq_zero_iff.mpr fun row value present => ?_).symm
      simpa using none row value present
    | false =>
      refine (filter_eq_self fun row value present => ?_).symm
      simpa using none row value present

namespace Side

variable (side : Side) {row : Row (Cell V)}

theorem anyNull_eq_false_iff : anyNull (side.rowType join) (side.nonNullFields join) row = false ↔
      ∀ test ∈ join.decomposition.comparisons, test.nonNull = true →
        column row (side.columnOf test) ≠ ⊥ := by
  rw [anyNull, List.any_eq_false]
  simp only [List.mem_range, nonNullFields, Bool.and_eq_true, List.contains_iff_mem, List.mem_map,
    List.mem_filter, decide_eq_true_eq]
  constructor
  · intro none test member required null
    exact none _ (side.columnOf_lt member) ⟨⟨test, ⟨member, required⟩, rfl⟩, null⟩
  · rintro none _ _ ⟨⟨test, ⟨member, required⟩, rfl⟩, null⟩
    exact none test member required null

/-- The filters of an input keep the rows that can have a partner. -/
theorem filtered_eq (relation : IsRelation (side.rowType join) input) :
    side.filtered join input = input.filter fun pair => side.accepts join pair.1 := by
  have pulled : side.pulled join input = input.filter fun pair =>
      decide (∀ node ∈ side.predicates join, node.IsTrue (side.fieldsOf join pair.1)) := by
    unfold Side.pulled
    split
    case isTrue none =>
      refine (filter_eq_self fun row value _ => ?_).symm
      simp [List.isEmpty_iff.mp none]
    case isFalse =>
      congr 1
      funext pair
      refine decide_eq_decide.mpr ?_
      rw [makeAnd_eq_true_iff, List.forall_mem_map]
      rfl
  rw [filtered, pulled, filterNonNullFields_eq relation.filter, filter_filter]
  congr 1
  funext pair
  rw [Bool.eq_iff_iff, accepts, Bool.and_eq_true, decide_eq_true_eq, decide_eq_true_eq,
    ← side.anyNull_eq_false_iff]
  simp

/-- The key and the other columns of a row. -/
def index (side : Side) (join : LogicalJoin V) (pair : Row (Cell V) × Unit) :
    Row (Cell V) × Row (Cell V) :=
  ((side.keyFields join).select pair.1, (side.keyFields join).nonKeyFields pair.1)

/-- A row that can have a partner has a key of the common types. -/
theorem typed_select (accepted : side.accepts join row = true) :
    Typed join.keyType ((side.keyFields join).select row) := by
  rw [Typed, keyType, KeyFields.select, keyFields, List.map_map,
    List.forall₂_map_left_iff, List.forall₂_map_right_iff, List.forall₂_same]
  intro test member notNull
  rw [accepts, decide_eq_true_eq] at accepted
  exact accepted.2 test member (by rw [join.wellFormed.nonNull_eq test member, notNull]; rfl)

/-- Indexing the rows that can have a partner does not fail. -/
theorem nonNullIndex_eq (relation : IsRelation (side.rowType join) input) :
    side.nonNullIndex join input =
      some ((input.filter fun pair => side.accepts join pair.1).map (side.index join)) := by
  rw [nonNullIndex, side.filtered_eq relation]
  refine tryMap_eq_map _ fun row value present => ?_
  have accepted := (weight_filter_ne_zero.mp present).2
  rw [toKey, castRow_of_typed (side.typed_select accepted)]
  rfl

theorem unshuffle_index (typed : Typed (side.rowType join) row) :
    side.unshuffle join ((side.keyFields join).select row) ((side.keyFields join).nonKeyFields row) =
      row :=
  typed.unshuffle side.keyFields_lt

end Side

end

section

variable {join : LogicalJoin V} {left right own others : Table V}

/-- All pairs of partners. -/
def LogicalJoin.matched (join : LogicalJoin V) (left right : Table V) : Table V :=
  left.thetaJoin (fun first second => Side.left.arePartners join first.1 second.1)
    (fun first second => (first.1 ++ second.1, ())) right

/-- The rows of an input without a partner, extended with NULLs. -/
def Side.unmatchedRows (side : Side) (join : LogicalJoin V) (own others : Table V) : Table V :=
  (own.unmatched (fun first second => side.arePartners join first.1 second.1) others).map
    fun pair => (side.place pair.1 (side.other.nulls join), ())

theorem LogicalJoin.postJoinCondition_of_not_hasFilter (noFilter : join.hasFilter = false)
    (row : Row (Cell V)) : join.postJoinCondition row = true := by
  unfold hasFilter at noFilter
  unfold postJoinCondition
  split at noFilter
  case h_1 none => rw [none]
  case h_2 _ literal =>
    rw [literal]
    rw [decide_eq_false_iff_not, not_not] at noFilter
    simp [RexNode.IsTrue, RexNode.eval, noFilter]
  case h_3 => cases noFilter

/-- Without a filter after the join, filtering changes nothing. -/
theorem LogicalJoin.innerJoin_eq_filter (join : LogicalJoin V) (left right : Index V) :
    join.innerJoin left right =
      (left.join (fun key leftData rightData =>
        (Side.left.unshuffle join key leftData ++ Side.right.unshuffle join key rightData, ()))
        right).filter fun pair => join.postJoinCondition pair.1 := by
  unfold innerJoin
  split
  case isTrue => rfl
  case isFalse noFilter =>
    refine (filter_eq_self fun row value _ => ?_).symm
    exact postJoinCondition_of_not_hasFilter (Bool.not_eq_true _ ▸ noFilter) row

/-- Two rows whose keys agree are put together from the key of the left one. -/
theorem unshuffle_append_unshuffle {leftRow rightRow : Row (Cell V)}
    (leftTyped : Typed join.leftType leftRow) (rightTyped : Typed join.rightType rightRow)
    (same : (Side.right.index join (rightRow, ())).1 = (Side.left.index join (leftRow, ())).1) :
    Side.left.unshuffle join (Side.left.index join (leftRow, ())).1
        (Side.left.index join (leftRow, ())).2 ++
      Side.right.unshuffle join (Side.left.index join (leftRow, ())).1
        (Side.right.index join (rightRow, ())).2 = leftRow ++ rightRow := by
  have leftPart : Side.left.unshuffle join (Side.left.index join (leftRow, ())).1
      (Side.left.index join (leftRow, ())).2 = leftRow := Side.left.unshuffle_index leftTyped
  have rightPart : Side.right.unshuffle join (Side.right.index join (rightRow, ())).1
      (Side.right.index join (rightRow, ())).2 = rightRow := Side.right.unshuffle_index rightTyped
  rw [leftPart, ← same, rightPart]

/-- The join of the indexed inputs has all pairs of partners. -/
theorem LogicalJoin.innerJoin_eq (leftRelation : IsRelation join.leftType left)
    (rightRelation : IsRelation join.rightType right) :
    join.innerJoin ((left.filter fun pair => Side.left.accepts join pair.1).map (Side.left.index join))
        ((right.filter fun pair => Side.right.accepts join pair.1).map (Side.right.index join)) =
      join.matched left right := by
  rw [innerJoin_eq_filter, join_map_map, thetaJoin_filter_left,
    thetaJoin_filter_right, filter_thetaJoin, matched]
  apply thetaJoin_congr
  case sameCondition =>
    intro leftRow _ leftPresent rightRow _ rightPresent
    have leftTyped := leftRelation.typed _ _ leftPresent
    have rightTyped := rightRelation.typed _ _ rightPresent
    rw [Bool.eq_iff_iff, Side.arePartners_left_iff leftTyped rightTyped]
    simp only [Bool.and_eq_true, sameKey_eq_true_iff]
    rw [and_congr_right fun agree => by
      rw [unshuffle_append_unshuffle leftTyped rightTyped agree.2.2], eq_comm]
    tauto
  case sameResult =>
    intro leftRow _ leftPresent rightRow _ rightPresent holds
    simp only [Bool.and_eq_true, sameKey_eq_true_iff] at holds
    rw [unshuffle_append_unshuffle (leftRelation.typed _ _ leftPresent)
      (rightRelation.typed _ _ rightPresent) holds.1.2.2]

variable {row : Row (Cell V)}

theorem LogicalJoin.matched_pos_iff (leftNonneg : left.Nonneg) (rightNonneg : right.Nonneg)
    {value : Unit} :
    0 < (join.matched left right).weight row value ↔
      ∃ leftRow rightRow, left.weight leftRow () ≠ 0 ∧ right.weight rightRow () ≠ 0 ∧
        Side.left.arePartners join leftRow rightRow = true ∧ row = leftRow ++ rightRow := by
  rw [matched, thetaJoin_pos_iff leftNonneg rightNonneg]
  constructor
  · rintro ⟨first, second, leftPresent, rightPresent, partners, same⟩
    exact ⟨first.1, second.1, leftPresent.ne', rightPresent.ne', partners, (Prod.mk.inj same).1.symm⟩
  · rintro ⟨leftRow, rightRow, leftPresent, rightPresent, partners, rfl⟩
    exact ⟨(leftRow, ()), (rightRow, ()), leftNonneg.pos_iff.mpr leftPresent,
      rightNonneg.pos_iff.mpr rightPresent, partners, rfl⟩

namespace Side

omit [LinearOrder V] in
theorem typed_resultType (side : Side)
    (typed : Typed (side.rowType join) row) : Typed (side.resultType join) row := by
  cases side with
  | left | right =>
    simp only [resultType, leftResultType, rightResultType]
    split
    · exact typed.nullable
    · exact typed

omit [LinearOrder V] in
theorem typed_place_nulls (side : Side) (kept : side.isKept join = true)
    (typed : Typed (side.rowType join) row) :
    Typed join.resultType (side.place row (side.other.nulls join)) := by
  cases side with
  | left =>
    refine (Side.left.typed_resultType typed).append ?_
    have keepsLeft : join.joinType.keepsLeft = true := kept
    rw [rightResultType, if_pos keepsLeft]
    exact typed_nulls _
  | right =>
    refine Typed.append ?_ (Side.right.typed_resultType typed)
    have keepsRight : join.joinType.keepsRight = true := kept
    rw [leftResultType, if_pos keepsRight]
    exact typed_nulls _

end Side

/-- Rows of the type of the result are not changed by a cast. -/
theorem LogicalJoin.insertCastMap_eq {table : Table V} (rowType : RowType)
    (typed : ∀ row value, table.weight row value ≠ 0 → Typed join.resultType row) :
    join.insertCastMap rowType table = some table := by
  unfold insertCastMap
  split
  · rfl
  · rw [tryMap_eq_map id]
    · rw [map_eq_self fun _ _ _ => rfl]
    · intro row value present
      rw [castRow_of_typed (typed row value present)]
      rfl

end

end OpenDera.Compiler
