import OpenDera.Compiler.JoinConditionAnalyzer
import OpenDera.Std.StreamCalculus
import OpenDera.Std.ThetaJoin

/-!
# Compiling joins

`visitJoin` filters the inputs by the predicates on one side and by the columns that must
not be NULL, indexes them by the columns that have to agree, joins them, and filters by the
rest of the condition. An outer join adds the rows without a partner: a left join without
filters uses the built-in left join operator, an outer join without filters on that side an
anti-join and the rows with NULL in a key column, and any other outer join an anti-join on a
key that also has the columns the filters use. A cast of NULL to a type that may not be NULL
fails at run time.
-/

namespace OpenDera.Compiler

open List Option

/-- The fields of a row that belong to a key, in the order they appear in the key. -/
structure KeyFields where
  keyFields : List ℕ

namespace KeyFields

variable {α : Type*} [Inhabited α] (fields : KeyFields)

/-- A field belongs to the key. -/
def isKeyField (index : ℕ) : Bool :=
  fields.keyFields.contains index

/-- Add fields at the end of the key. -/
def addAll (indexes : List ℕ) : KeyFields where
  keyFields := fields.keyFields ++ indexes

/-- The number of different fields in the key. -/
def keyFieldSetSize : ℕ :=
  fields.keyFields.dedup.length

variable (row : List α)

/-- The fields of the key, in their order. -/
def select : List α :=
  fields.keyFields.map fun index => row.getD index default

/-- The fields from an index on that are not in the key. -/
def nonKeyFieldsFrom (index : ℕ) : List α → List α
  | [] => []
  | field :: row =>
    if fields.isKeyField index then nonKeyFieldsFrom (index + 1) row
    else field :: nonKeyFieldsFrom (index + 1) row

/-- The fields that are not in the key, in the order they appear in the row. -/
def nonKeyFields : List α :=
  fields.nonKeyFieldsFrom 0 row

/-- The next `count` fields of a row, when `skipped` key fields are before `index`. A field that
the key repeats is taken from its first position. -/
def unshuffleFrom (key data : List α) : (count index skipped : ℕ) → List α
  | 0, _, _ => []
  | count + 1, index, skipped =>
    if fields.isKeyField index then
      key.getD (fields.keyFields.idxOf index) default ::
        unshuffleFrom key data count (index + 1) (skipped + 1)
    else
      data.getD (index - skipped) default :: unshuffleFrom key data count (index + 1) skipped

/-- The row with a given key and given other fields, whose number is `dataSize`. -/
def unshuffleKeyAndDataFields (key data : List α) (dataSize : ℕ) : List α :=
  fields.unshuffleFrom key data (fields.keyFieldSetSize + dataSize) 0 0

variable {fields}

omit [Inhabited α] in
theorem length_nonKeyFieldsFrom (fields : KeyFields) (row : List α) (index : ℕ) :
    (fields.nonKeyFieldsFrom index row).length +
      ((range' index row.length).filter fields.isKeyField).length = row.length := by
  induction row generalizing index with
  | nil => rfl
  | cons _ _ ih =>
    have rest := ih (index + 1)
    rw [nonKeyFieldsFrom, length_cons, range'_succ, filter_cons]
    split <;> simp only [length_cons] <;> omega

omit [Inhabited α] in
/-- Key fields and other fields make up the row. -/
theorem keyFieldSetSize_add_length (inRange : ∀ index ∈ fields.keyFields, index < row.length) :
    fields.keyFieldSetSize + (fields.nonKeyFields row).length = row.length := by
  have same : fields.keyFields.dedup.Perm
      ((range' 0 row.length).filter fields.isKeyField) := by
    rw [perm_ext_iff_of_nodup (nodup_dedup _) (List.Nodup.filter _ (nodup_range' 1))]
    intro index
    rw [mem_dedup, mem_filter, isKeyField, contains_iff_mem]
    constructor
    · intro member
      have := inRange index member
      exact ⟨mem_range'_1.mpr (by omega), member⟩
    · exact And.right
  have counted := length_nonKeyFieldsFrom fields row 0
  rw [keyFieldSetSize, same.length_eq, nonKeyFields]
  omega

/-- Putting the rest of a row together, where `before` are the other fields before it. -/
theorem unshuffleFrom_eq {key row : List α} (before : List α) {index skipped : ℕ}
    (keys : ∀ offset field, row[offset]? = some field → fields.isKeyField (index + offset) = true →
      key.getD (fields.keyFields.idxOf (index + offset)) default = field)
    (counted : before.length + skipped = index) :
    fields.unshuffleFrom key (before ++ fields.nonKeyFieldsFrom index row) row.length index skipped =
      row := by
  induction row generalizing before index skipped with
  | nil => rfl
  | cons field row ih =>
    have rest : ∀ offset field, row[offset]? = some field →
        fields.isKeyField (index + 1 + offset) = true →
        key.getD (fields.keyFields.idxOf (index + 1 + offset)) default = field := by
      intro offset other found isKey
      rw [Nat.add_assoc, Nat.add_comm 1] at isKey ⊢
      exact keys (offset + 1) other (by simpa using found) isKey
    rw [length_cons, unshuffleFrom, nonKeyFieldsFrom]
    split
    case isTrue isKey =>
      rw [ih before rest (by omega)]
      exact congrArg (· :: row) (keys 0 field rfl isKey)
    case isFalse =>
      have here : index - skipped = before.length := by omega
      have further : (before ++ [field]).length + skipped = index + 1 := by
        rw [length_append, length_singleton]
        omega
      have next := ih (before ++ [field]) rest further
      rw [append_assoc, singleton_append] at next
      rw [next, here]
      simp

/-- A row is put together again from its key and its other fields. -/
theorem unshuffle_select (inRange : ∀ index ∈ fields.keyFields, index < row.length) :
    fields.unshuffleKeyAndDataFields (fields.select row) (fields.nonKeyFields row)
      (fields.nonKeyFields row).length = row := by
  rw [unshuffleKeyAndDataFields, keyFieldSetSize_add_length row inRange]
  refine unshuffleFrom_eq [] ?_ rfl
  intro offset field found isKey
  rw [Nat.zero_add] at isKey ⊢
  have listed : offset ∈ fields.keyFields := contains_iff_mem.mp isKey
  have position := idxOf_lt_length_of_mem listed
  rw [getD_eq_getElem?_getD, select, getElem?_map, getElem?_eq_getElem position,
    getElem_idxOf position, map_some, getD_some, getD_eq_getElem?_getD, found,
    getD_some]

end KeyFields

/-! ## The compiler -/

open StreamCalculus

variable {V : Type*} [LinearOrder V]

/-- A Z-set of rows. -/
abbrev Table (V : Type*) [LinearOrder V] := IndexedZSet (Row (Cell V)) Unit

/-- Rows indexed by a key. -/
abbrev Index (V : Type*) [LinearOrder V] := IndexedZSet (Row (Cell V)) (Row (Cell V))

/-- The kinds of joins. -/
inductive JoinRelType where
  | inner
  | left
  | right
  | full
  | semi
  | anti
  deriving DecidableEq

namespace JoinRelType

/-- Left rows without a partner are kept. -/
def keepsLeft : JoinRelType → Bool
  | .left | .full => true
  | _ => false

/-- Right rows without a partner are kept. -/
def keepsRight : JoinRelType → Bool
  | .right | .full => true
  | _ => false

end JoinRelType

/-- A join of two inputs. -/
structure LogicalJoin (V : Type*) where
  joinType : JoinRelType
  leftType : RowType
  rightType : RowType
  condition : RexNode V
  references_lt : ∀ index ∈ condition.references, index < leftType.length + rightType.length

namespace LogicalJoin

omit [LinearOrder V]

variable (join : LogicalJoin V)

/-- The type of the left columns in the result. -/
def leftResultType : RowType :=
  if join.joinType.keepsRight then replicate join.leftType.length true else join.leftType

/-- The type of the right columns in the result. -/
def rightResultType : RowType :=
  if join.joinType.keepsLeft then replicate join.rightType.length true else join.rightType

/-- The type of the result. -/
def resultType (join : LogicalJoin V) : RowType :=
  join.leftResultType ++ join.rightResultType

/-- The parts of the condition. -/
def decomposition : ConditionDecomposition V :=
  JoinConditionAnalyzer.analyze join.leftType join.rightType join.condition

end LogicalJoin

/-- Cast a value; NULL has no value in a type that may not be NULL. -/
def castCell (mayBeNull : Bool) (cell : Cell V) : Option (Cell V) :=
  if cell = ⊥ ∧ mayBeNull = false then none else some cell

/-- Cast the fields of a row one by one. -/
def castRow : RowType → Row (Cell V) → Option (Row (Cell V))
  | [], [] => some []
  | mayBeNull :: rowType, cell :: row => do
      let cell ← castCell mayBeNull cell
      let row ← castRow rowType row
      pure (cell :: row)
  | _, _ => none

/-- The value of a column in a row. -/
def column (row : Row (Cell V)) (index : ℕ) : Cell V :=
  row.getD index ⊥

/-- One of the given fields is NULL. -/
def anyNull (rowType : RowType) (fields : List ℕ) (row : Row (Cell V)) : Bool :=
  (range rowType.length).any fun index =>
    fields.contains index && decide (column row index = ⊥)

/-- Keep the rows without NULL in the given fields, or with `complement` the others. -/
def filterNonNullFields (rowType : RowType) (fields : List ℕ) (input : Table V)
    (complement : Bool) : Table V :=
  if fields.any fun index => rowType.getD index true then
    input.filter fun pair => if complement then anyNull rowType fields pair.1
      else !anyNull rowType fields pair.1
  else if complement then 0
  else input

/-- The AND of a list of conditions. -/
def makeAnd : List (Cell V) → Cell V
  | [] => Cell.ofBool true
  | first :: rest => rest.foldl Cell.and first

/-- The two inputs of a join. -/
inductive Side where
  | left
  | right
  deriving DecidableEq

namespace Side

variable (side : Side) (join : LogicalJoin V)

/-- The type of the rows of an input. -/
def rowType : RowType :=
  match side with
  | .left => join.leftType
  | .right => join.rightType

/-- The other input. -/
def other : Side → Side
  | .left => .right
  | .right => .left

/-- The type of the columns of an input in the result. -/
def resultType : RowType :=
  match side with
  | .left => join.leftResultType
  | .right => join.rightResultType

/-- The number of the first column of an input in the join. -/
def offset : ℕ :=
  match side with
  | .left => 0
  | .right => join.leftType.length

/-- The column of an input in an equality. -/
def columnOf (test : EqualityTest) : ℕ :=
  match side with
  | .left => test.leftColumn
  | .right => test.rightColumn

/-- The predicates on an input. -/
def predicates : List (RexNode V) :=
  match side with
  | .left => join.decomposition.leftPredicates
  | .right => join.decomposition.rightPredicates

/-- Columns of this input and of the other one, in the order of the join. -/
def place (own others : Row (Cell V)) : Row (Cell V) :=
  match side with
  | .left => own ++ others
  | .right => others ++ own

/-- The columns that have to agree. -/
def keyFields (side : Side) (join : LogicalJoin V) : KeyFields where
  keyFields := join.decomposition.comparisons.map side.columnOf

/-- The columns that must not be NULL. -/
def nonNullFields : List ℕ :=
  (join.decomposition.comparisons.filter EqualityTest.nonNull).map side.columnOf

/-- Keep the rows that satisfy the predicates on their side. -/
def pulled (input : Table V) : Table V :=
  if (side.predicates join).isEmpty then input
  else input.filter fun pair => makeAnd ((side.predicates join).map
    (RexNode.eval fun index => column pair.1 (index - side.offset join))) = Cell.ofBool true

/-- The rows that can have a partner. -/
def filtered (input : Table V) : Table V :=
  filterNonNullFields (side.rowType join) (side.nonNullFields join) (side.pulled join input) false

end Side

namespace LogicalJoin

variable (join : LogicalJoin V)

/-- The type of the key. -/
def keyType : RowType :=
  join.decomposition.comparisons.map EqualityTest.mayBeNull

/-- A filter is required after the join. -/
def hasFilter : Bool :=
  match join.decomposition.leftOver with
  | none => false
  | some (.literal value) => decide (value ≠ Cell.ofBool true)
  | some _ => true

/-- The filter after the join. -/
def postJoinCondition (row : Row (Cell V)) : Bool :=
  match join.decomposition.leftOver with
  | none => true
  | some node => decide (node.IsTrue (column row))

/-- The columns of the given number in which an expression uses a column. -/
def usedFields (offset size : ℕ) (nodes : List (RexNode V)) : List ℕ :=
  (range size).filter fun index => (RexNode.referencesAll nodes).contains (offset + index)

end LogicalJoin

namespace Side

variable (side : Side) (join : LogicalJoin V) (row : Row (Cell V))

/-- Index an input by the columns that have to agree, cast to their common types. -/
def toKey : Option (Row (Cell V) × Row (Cell V)) := do
  let key ← castRow join.keyType ((side.keyFields join).select row)
  pure (key, (side.keyFields join).nonKeyFields row)

variable (input : Table V)

/-- The rows that can have a partner, indexed. -/
def nonNullIndex : Option (Index V) :=
  (side.filtered join input).tryMap fun pair => side.toKey join pair.1

/-- The number of columns of an input that are not in the key. -/
def dataSize : ℕ :=
  ((side.keyFields join).nonKeyFields (side.rowType join)).length

/-- The row of an input with a given key. -/
def unshuffle (key data : Row (Cell V)) : Row (Cell V) :=
  (side.keyFields join).unshuffleKeyAndDataFields key data (side.dataSize join)

/-- The NULLs that stand for the columns of an input. -/
def nulls : Row (Cell V) :=
  replicate (side.rowType join).length ⊥

/-- No filter before or after the join rules out rows of this side. -/
def isUnfiltered : Bool :=
  !join.hasFilter && (side.predicates join).isEmpty

/-- The key columns followed by the columns that the filters use. The columns that the filters
before the join use are added by their numbers in their own input, on both sides. -/
def extended : KeyFields :=
  let condition := if join.hasFilter then
      LogicalJoin.usedFields (side.offset join) (side.rowType join).length
        join.decomposition.leftOver.toList
    else []
  (((side.keyFields join).addAll condition).addAll
    (LogicalJoin.usedFields 0 join.leftType.length join.decomposition.leftPredicates)).addAll
      (LogicalJoin.usedFields join.leftType.length join.rightType.length
        join.decomposition.rightPredicates)

/-- The row of the result for a row without a partner. -/
def expand (pair : Row (Cell V) × Row (Cell V)) : Option (Row (Cell V) × Unit) := do
  let row ← castRow join.resultType
    (side.place (side.unshuffle join pair.1 pair.2) (side.other.nulls join))
  pure (row, ())

/-- Index a row with the types of its own columns in the key. -/
def toRemainderKey : Option (Row (Cell V) × Row (Cell V)) := do
  let key ← castRow ((side.keyFields join).select (side.rowType join))
    ((side.keyFields join).select row)
  let data ← castRow ((side.keyFields join).nonKeyFields (side.resultType join))
    ((side.keyFields join).nonKeyFields row)
  pure (key, data)

variable (own others : Index V)

/-- The rows without a partner when there is no filter: an anti-join, and the rows with NULL
in a key column. -/
def antiJoinRows : Option (Table V) := do
  let expanded : Table V ← (own.antiJoin others).tryMap (side.expand join)
  let ownKeyType := (side.keyFields join).select (side.rowType join)
  let antiJoinKeyType := zipWith (· || ·) join.keyType ownKeyType
  if join.keyType = antiJoinKeyType then pure expanded
  else do
    let remainder := filterNonNullFields (side.rowType join) (side.nonNullFields join) input true
    let indexed : Index V ← remainder.tryMap fun pair => side.toRemainderKey join pair.1
    let remaining : Table V ← indexed.tryMap (side.expand join)
    pure (expanded + remaining)

/-- The type of the extended key. -/
def subKeyType : RowType :=
  (side.extended join).select (side.resultType join)

/-- Project a row of the join on the extended key. -/
def toJoinColumns : Option (Row (Cell V) × Row (Cell V)) := do
  let key ← castRow (side.subKeyType join)
    ((side.extended join).keyFields.map fun index => column row (side.offset join + index))
  pure (key, [])

/-- Index a row by the extended key. -/
def toExtendedKey : Option (Row (Cell V) × Row (Cell V)) := do
  let key ← castRow (side.subKeyType join) ((side.extended join).select row)
  let data ← castRow ((side.extended join).nonKeyFields (side.resultType join))
    ((side.extended join).nonKeyFields row)
  pure (key, data)

/-- The rows without a partner when there is a filter: an anti-join with the rows of the join on
the extended key. -/
def extendedAntiJoinRows (input inner : Table V) : Option (Table V) := do
  let joinColumns : Index V ← inner.tryMap fun pair => side.toJoinColumns join pair.1
  let indexed : Index V ← input.tryMap fun pair => side.toExtendedKey join pair.1
  let dataSize := ((side.extended join).nonKeyFields (side.resultType join)).length
  pure ((indexed.antiJoin joinColumns).map fun pair =>
    (side.place ((side.extended join).unshuffleKeyAndDataFields pair.1 pair.2 dataSize)
      (side.other.nulls join), ()))

/-- The rows of an input without a partner. -/
def outerRows (inner : Table V) : Option (Table V) :=
  if side.isUnfiltered join then side.antiJoinRows join input own others
  else side.extendedAntiJoinRows join input inner

/-- The rows of an input without a partner are kept. -/
def isKept : Bool :=
  match side with
  | .left => join.joinType.keepsLeft
  | .right => join.joinType.keepsRight

/-- The rows that an outer join adds for an input. -/
def keptRows (inner : Table V) : Option (Table V) :=
  if side.isKept join then side.outerRows join input own others inner else some 0

/-- The extended key refers to columns of the input. -/
def extendedInRange : Bool :=
  side.isUnfiltered join ||
    (side.extended join).keyFields.all fun index => index < (side.rowType join).length

end Side

namespace LogicalJoin

variable (join : LogicalJoin V)

/-- The type of the rows of the inner join, in which key columns have the types of the key. -/
def innerType : RowType :=
  (Side.left.keyFields join).unshuffleKeyAndDataFields join.keyType
      ((Side.left.keyFields join).nonKeyFields join.leftType) (Side.left.dataSize join) ++
    (Side.right.keyFields join).unshuffleKeyAndDataFields join.keyType
      ((Side.right.keyFields join).nonKeyFields join.rightType) (Side.right.dataSize join)

/-- Cast rows to the type of the result if they do not have it. -/
def insertCastMap (rowType : RowType) (input : Table V) : Option (Table V) :=
  if join.resultType = rowType then some input
  else input.tryMap fun pair => (castRow join.resultType pair.1).map fun row => (row, ())

/-- The join of the indexed inputs, filtered. -/
def innerJoin (left right : Index V) : Table V :=
  let joined := left.join (fun key leftData rightData =>
    (Side.left.unshuffle join key leftData ++ Side.right.unshuffle join key rightData, ())) right
  if join.hasFilter then joined.filter fun pair => join.postJoinCondition pair.1 else joined

/-- What the operators for a join compute in one step, apart from those for a left join without
filters. -/
def sumOfParts (left right : Table V) : Option (Table V) := do
  let leftIndex ← Side.left.nonNullIndex join left
  let rightIndex ← Side.right.nonNullIndex join right
  let inner := join.innerJoin leftIndex rightIndex
  let joinResult ← join.insertCastMap join.innerType inner
  let leftRows ← Side.left.keptRows join left leftIndex rightIndex inner
  let rightRows ← Side.right.keptRows join right rightIndex leftIndex inner
  pure (joinResult + leftRows + rightRows)

/-- The row of the right input in a left join, NULLs if there is none. -/
def unshuffleNullable (key : Row (Cell V)) (data : WithBot (Row (Cell V))) : Row (Cell V) :=
  match data with
  | ⊥ => replicate ((Side.right.keyFields join).keyFieldSetSize + Side.right.dataSize join) ⊥
  | WithBot.some data => Side.right.unshuffle join key data

/-- The type of the rows of a left join. -/
def leftJoinType : RowType :=
  join.leftType ++ replicate
    ((Side.right.keyFields join).keyFieldSetSize + Side.right.dataSize join) true

/-- The left input of a left join, indexed with its own types. -/
def leftJoinLeft (left : Table V) : Option (Index V) :=
  left.tryMap fun pair => do
    let key ← castRow ((Side.left.keyFields join).select join.leftType)
      ((Side.left.keyFields join).select pair.1)
    pure (key, (Side.left.keyFields join).nonKeyFields pair.1)

/-- The right input of a left join, indexed with the types of the left key. -/
def leftJoinRight (right : Table V) :
    Option (IndexedZSet (Row (Cell V)) (WithBot (Row (Cell V)))) :=
  (Side.right.filtered join right).tryMap fun pair => do
    let key ← castRow ((Side.left.keyFields join).select join.leftType)
      ((Side.right.keyFields join).select pair.1)
    pure (key, WithBot.some ((Side.right.keyFields join).nonKeyFields pair.1))

/-- A left join without filters, as the built-in operator between differentiators and an
integrator. It computes if all steps so far do. -/
def leftJoin (left right : ℕ → Table V) (time : ℕ) : Option (Table V) :=
  if (range (time + 1)).all fun step =>
      (join.leftJoinLeft (left step)).isSome && (join.leftJoinRight (right step)).isSome then
    join.insertCastMap join.leftJoinType (integrate (incremental₂
        (lift₂ (IndexedZSet.leftJoin (fun key leftData rightData =>
          (Side.left.unshuffle join key leftData ++ join.unshuffleNullable key rightData, ())) ⊥))
        (differentiate fun step => (join.leftJoinLeft (left step)).getD 0)
        (differentiate fun step => (join.leftJoinRight (right step)).getD 0)) time)
  else none

end LogicalJoin

/-- Compile a join: from the streams of the inputs to the stream of the result, in which a step
is missing if it fails. Some joins are not supported. -/
def visitJoin (join : LogicalJoin V) :
    Option ((ℕ → Table V) → (ℕ → Table V) → ℕ → Option (Table V)) :=
  let decomposition := join.decomposition
  if join.joinType = .semi ∨ join.joinType = .anti then none
  else if decomposition.comparisons.isEmpty && decomposition.leftPredicates.isEmpty &&
      decomposition.rightPredicates.isEmpty && decomposition.leftOver.isNone then none
  else if join.joinType = .left ∧ Side.left.isUnfiltered join = true then some join.leftJoin
  else if (Side.left.isKept join && !Side.left.extendedInRange join) ||
      (Side.right.isKept join && !Side.right.extendedInRange join) then none
  else some fun left right time => join.sumOfParts (left time) (right time)

end OpenDera.Compiler
