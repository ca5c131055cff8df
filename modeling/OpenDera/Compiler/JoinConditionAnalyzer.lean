import Mathlib.Algebra.Order.Ring.Nat
import Mathlib.Data.List.Induction
import Mathlib.Data.Sum.Order
import OpenDera.Compiler.ClosureExpression

/-!
# Analysing join conditions

`JoinConditionAnalyzer` splits the condition of a join into equalities of one column of each
side, predicates on one side only, and the rest. Conditions are evaluated in three-valued
logic; operators that the analysis does not look into are functions of their operands.
-/

namespace OpenDera.Compiler

open List Option

/-- A value of a column: NULL, a boolean or any other value. -/
abbrev Cell (V : Type*) := WithBot (Lex (Bool ⊕ V))

/-- For every column whether it may be NULL. -/
abbrev RowType := List Bool

namespace Cell

variable {V : Type*}

/-- A boolean value. -/
def ofBool (value : Bool) : Cell V :=
  WithBot.some (toLex (Sum.inl value))

theorem ofBool_injective : Function.Injective (ofBool : Bool → Cell V) := by
  intro first second same
  exact Sum.inl_injective (toLex.injective (WithBot.coe_injective same))

@[simp] theorem ofBool_inj {first second : Bool} :
    (ofBool first : Cell V) = ofBool second ↔ first = second :=
  ofBool_injective.eq_iff

@[simp] theorem bot_ne_ofBool (value : Bool) : (⊥ : Cell V) ≠ ofBool value :=
  WithBot.bot_ne_coe

variable [LinearOrder V]

/-- Conjunction in three-valued logic. -/
def and (first second : Cell V) : Cell V :=
  if first = ofBool false ∨ second = ofBool false then ofBool false
  else if first = ofBool true ∧ second = ofBool true then ofBool true
  else ⊥

/-- A conjunction is TRUE exactly if both parts are. -/
theorem and_eq_true_iff {first second : Cell V} :
    and first second = ofBool true ↔ first = ofBool true ∧ second = ofBool true := by
  unfold and
  split
  case isTrue false =>
    rcases false with rfl | rfl <;> simp
  case isFalse =>
    split
    case isTrue true => simp [true]
    case isFalse notTrue => simp [notTrue]

end Cell

/-- The operators that the analysis tells apart. -/
inductive SqlKind (V : Type*) where
  | and
  | equals
  | isNotDistinctFrom
  | other (function : List (Cell V) → Cell V)

/-- The expressions of a query. -/
inductive RexNode (V : Type*) where
  | inputRef (index : ℕ)
  | literal (value : Cell V)
  | call (kind : SqlKind V) (operands : List (RexNode V))

section

variable {V : Type*} [LinearOrder V]

/-- The value of a call. Equalities have two operands. -/
def SqlKind.eval (kind : SqlKind V) (operands : List (Cell V)) : Cell V := match kind, operands with
  | .and, operands => operands.foldr Cell.and (Cell.ofBool true)
  | .equals, [left, right] =>
    if left = ⊥ ∨ right = ⊥ then ⊥ else Cell.ofBool (left = right)
  | .isNotDistinctFrom, [left, right] => Cell.ofBool (left = right)
  | .other function, operands => function operands
  | _, _ => ⊥

namespace RexNode

mutual

/-- The value of an expression, given those of the columns. -/
def eval (fields : ℕ → Cell V) : RexNode V → Cell V
  | .inputRef index => fields index
  | .literal value => value
  | .call kind operands => kind.eval (evalAll fields operands)

/-- The values of some expressions. -/
def evalAll (fields : ℕ → Cell V) : List (RexNode V) → List (Cell V)
  | [] => []
  | node :: nodes => node.eval fields :: evalAll fields nodes

end

mutual

/-- The columns that an expression refers to. -/
def references : RexNode V → List ℕ
  | .inputRef index => [index]
  | .literal _ => []
  | .call _ operands => referencesAll operands

/-- The columns that some expressions refer to. -/
def referencesAll : List (RexNode V) → List ℕ
  | [] => []
  | node :: nodes => node.references ++ referencesAll nodes

end

omit [LinearOrder V] in
theorem forall_references_call {property : ℕ → Prop} {kind : SqlKind V}
    {operands : List (RexNode V)} :
    (∀ index ∈ (call kind operands).references, property index) ↔
      ∀ node ∈ operands, ∀ index ∈ node.references, property index := by
  rw [references]
  induction operands with
  | nil => simp [referencesAll]
  | cons _ _ ih =>
    rw [referencesAll, forall_mem_append, forall_mem_cons, ih]

mutual

variable {first second : ℕ → Cell V}

/-- The value depends on the columns referred to only. -/
theorem eval_congr (node : RexNode V)
    (same : ∀ index ∈ node.references, first index = second index) :
    node.eval first = node.eval second := by
  cases node with
  | inputRef index => exact same index (mem_singleton_self index)
  | literal => rfl
  | call _ operands => rw [eval, eval, evalAll_congr operands same]

theorem evalAll_congr (nodes : List (RexNode V))
    (same : ∀ index ∈ referencesAll nodes, first index = second index) :
    evalAll first nodes = evalAll second nodes := by
  cases nodes with
  | nil => rfl
  | cons node nodes =>
    rw [referencesAll, forall_mem_append] at same
    rw [evalAll, evalAll, eval_congr node same.1, evalAll_congr nodes same.2]

end

/-- The expression is TRUE. -/
def IsTrue (fields : ℕ → Cell V) (node : RexNode V) : Prop := node.eval fields = Cell.ofBool true

instance (fields : ℕ → Cell V) (node : RexNode V) : Decidable (IsTrue fields node) :=
  inferInstanceAs (Decidable (_ = _))

theorem isTrue_congr {first second : ℕ → Cell V} {node : RexNode V}
    (same : ∀ index ∈ node.references, first index = second index) :
    node.IsTrue first ↔ node.IsTrue second := by
  rw [IsTrue, IsTrue, eval_congr node same]

variable {fields : ℕ → Cell V}

/-- A conjunction is TRUE exactly if all its parts are. -/
theorem isTrue_and_iff {nodes : List (RexNode V)} :
    (call .and nodes).IsTrue fields ↔ ∀ node ∈ nodes, node.IsTrue fields := by
  rw [IsTrue, eval, SqlKind.eval]
  induction nodes with
  | nil => simp [evalAll]
  | cons _ _ ih =>
    rw [evalAll, foldr_cons, Cell.and_eq_true_iff, ih, forall_mem_cons]
    rfl

variable {left right : ℕ}

theorem isTrue_equals_iff : (call .equals [inputRef left, inputRef right]).IsTrue fields ↔
      fields left = fields right ∧ fields left ≠ ⊥ := by
  simp only [IsTrue, eval, evalAll, SqlKind.eval]
  split
  case isTrue null =>
    constructor
    · intro impossible
      exact absurd impossible (Cell.bot_ne_ofBool true)
    · rintro ⟨same, present⟩
      rcases null with absent | absent
      · exact absurd absent present
      · exact absurd (same.trans absent) present
  case isFalse present =>
    push Not at present
    simp [present.1]

theorem isTrue_isNotDistinctFrom_iff :
    (call .isNotDistinctFrom [inputRef left, inputRef right]).IsTrue fields ↔
      fields left = fields right := by
  simp [IsTrue, eval, evalAll, SqlKind.eval]

end RexNode

end

/-- An equality between a column of the left side and one of the right side, whether their
common type may be NULL, and whether they have to be non-NULL to match. -/
structure EqualityTest where
  leftColumn : ℕ
  rightColumn : ℕ
  mayBeNull : Bool
  nonNull : Bool
  deriving DecidableEq

/-- The parts of a join condition. -/
structure ConditionDecomposition (V : Type*) where
  comparisons : List EqualityTest := []
  leftPredicates : List (RexNode V) := []
  rightPredicates : List (RexNode V) := []
  leftOver : Option (RexNode V) := none

namespace JoinConditionAnalyzer

variable {V : Type*} (leftType rightType : RowType)

/-- A column of the join may be NULL. -/
def columnMayBeNull (index : ℕ) : Bool :=
  (leftType ++ rightType).getD index true

/-- Add an equality of a left and a right column, the latter numbered as in the join. -/
def addEquality (decomposition : ConditionDecomposition V) (left right : ℕ) (mayBeNull : Bool) :
    ConditionDecomposition V :=
  { decomposition with
    comparisons := decomposition.comparisons ++
      [{ leftColumn := left
         rightColumn := right - leftType.length
         mayBeNull
         nonNull := !mayBeNull }] }

/-- Add an equality that is suitable for an equijoin. -/
def analyzeEquals (nullSafe : Bool) (operands : List (RexNode V))
    (decomposition : ConditionDecomposition V) : Option (ConditionDecomposition V) :=
  match operands with
  | [.inputRef left, .inputRef right] =>
    let leftIsLeft := decide (left < leftType.length)
    let rightIsLeft := decide (right < leftType.length)
    let mayBeNull := nullSafe && columnMayBeNull leftType rightType left &&
      columnMayBeNull leftType rightType right
    if leftIsLeft = rightIsLeft then none
    else if leftIsLeft then some (addEquality leftType decomposition left right mayBeNull)
    else some (addEquality leftType decomposition right left mayBeNull)
  | _ => none

/-- Add a predicate that refers to one side only. -/
def checkOneSided (call : RexNode V) (decomposition : ConditionDecomposition V) :
    Option (ConditionDecomposition V) :=
  let leftRef := call.references.any fun index => index < leftType.length
  let rightRef := call.references.any fun index => leftType.length ≤ index
  if leftRef = rightRef then none
  else if leftRef then
    some { decomposition with leftPredicates := decomposition.leftPredicates ++ [call] }
  else some { decomposition with rightPredicates := decomposition.rightPredicates ++ [call] }

/-- Add a conjunct that is a call, as an equality or as a predicate on one side. -/
def analyzeCall (kind : SqlKind V) (operands : List (RexNode V))
    (decomposition : ConditionDecomposition V) : Option (ConditionDecomposition V) :=
  match kind with
  | .equals => (analyzeEquals leftType rightType false operands decomposition).or
      (checkOneSided leftType (.call kind operands) decomposition)
  | .isNotDistinctFrom => (analyzeEquals leftType rightType true operands decomposition).or
      (checkOneSided leftType (.call kind operands) decomposition)
  | _ => checkOneSided leftType (.call kind operands) decomposition

/-- One round of the loop over the conjuncts; what no part takes is collected. -/
def analyzeOperand (state : ConditionDecomposition V × List (RexNode V))
    (operand : RexNode V) : ConditionDecomposition V × List (RexNode V) :=
  match operand with
  | .call kind operands =>
    match analyzeCall leftType rightType kind operands state.1 with
    | some decomposition => (decomposition, state.2)
    | none => (state.1, state.2 ++ [operand])
  | _ => (state.1, state.2 ++ [operand])

/-- Split a conjunction. -/
def analyzeAnd (operands : List (RexNode V)) : ConditionDecomposition V :=
  let state := operands.foldl (analyzeOperand leftType rightType) ({}, [])
  match state.2 with
  | [] => state.1
  | [operand] => { state.1 with leftOver := some operand }
  | unprocessed => { state.1 with leftOver := some (.call .and unprocessed) }

/-- Split a join condition. -/
def analyze (expression : RexNode V) : ConditionDecomposition V :=
  match expression with
  | .call .and operands => analyzeAnd leftType rightType operands
  | .call kind operands =>
    (analyzeCall leftType rightType kind operands {}).getD { leftOver := some expression }
  | _ => { leftOver := some expression }

end JoinConditionAnalyzer

/-! ## The decomposition is equivalent -/

open RexNode

section

variable {V : Type*} [LinearOrder V] {leftType rightType : RowType}
  {fields : ℕ → Cell V} {decomposition : ConditionDecomposition V}

/-- The two columns match. -/
def EqualityTest.Holds (leftColumns : ℕ) (fields : ℕ → Cell V) (test : EqualityTest) : Prop :=
  fields test.leftColumn = fields (leftColumns + test.rightColumn) ∧
    (test.nonNull = true → fields test.leftColumn ≠ ⊥)

namespace ConditionDecomposition

/-- All parts are TRUE. -/
def Holds (leftColumns : ℕ) (fields : ℕ → Cell V)
    (decomposition : ConditionDecomposition V) : Prop :=
  (∀ test ∈ decomposition.comparisons, test.Holds leftColumns fields) ∧
    (∀ node ∈ decomposition.leftPredicates, node.IsTrue fields) ∧
    (∀ node ∈ decomposition.rightPredicates, node.IsTrue fields) ∧
    ∀ node ∈ decomposition.leftOver, node.IsTrue fields

/-- The parts refer to the columns they should. -/
structure WellFormed (leftType rightType : RowType) (decomposition : ConditionDecomposition V) :
    Prop where
  leftColumn_lt : ∀ test ∈ decomposition.comparisons, test.leftColumn < leftType.length
  rightColumn_lt : ∀ test ∈ decomposition.comparisons, test.rightColumn < rightType.length
  nonNull_eq : ∀ test ∈ decomposition.comparisons, test.nonNull = !test.mayBeNull
  left_nullable : ∀ test ∈ decomposition.comparisons, test.mayBeNull = true →
    leftType.getD test.leftColumn true = true
  leftPredicates_lt : ∀ node ∈ decomposition.leftPredicates, ∀ index ∈ node.references,
    index < leftType.length
  rightPredicates_le : ∀ node ∈ decomposition.rightPredicates, ∀ index ∈ node.references,
    leftType.length ≤ index
  rightPredicates_lt : ∀ node ∈ decomposition.rightPredicates, ∀ index ∈ node.references,
    index < leftType.length + rightType.length
  leftOver_lt : ∀ node ∈ decomposition.leftOver, ∀ index ∈ node.references,
    index < leftType.length + rightType.length

end ConditionDecomposition

namespace JoinConditionAnalyzer

/-- What a part of the analysis makes of a conjunct: the parts hold exactly if they held before
and the conjunct is TRUE. -/
structure Adds (leftType rightType : RowType) (conjunct : RexNode V)
    (before after : ConditionDecomposition V) : Prop where
  leftOver : after.leftOver = before.leftOver
  holds : ∀ fields : ℕ → Cell V,
    (∀ index, columnMayBeNull leftType rightType index = false → fields index ≠ ⊥) →
    (after.Holds leftType.length fields ↔
      before.Holds leftType.length fields ∧ conjunct.IsTrue fields)
  wellFormed : (∀ index ∈ conjunct.references, index < leftType.length + rightType.length) →
    before.WellFormed leftType rightType → after.WellFormed leftType rightType

theorem adds_addEquality {left right : ℕ} {conjunct : RexNode V} {mayBeNull : Bool}
    (isLeft : left < leftType.length) (isRight : leftType.length ≤ right)
    (references : left ∈ conjunct.references ∧ right ∈ conjunct.references)
    (nullable : mayBeNull = true → columnMayBeNull leftType rightType left = true)
    (meaning : ∀ fields : ℕ → Cell V,
      (∀ index, columnMayBeNull leftType rightType index = false → fields index ≠ ⊥) →
      (conjunct.IsTrue fields ↔
        fields left = fields right ∧ ((!mayBeNull) = true → fields left ≠ ⊥)))
    (before : ConditionDecomposition V) :
    Adds leftType rightType conjunct before (addEquality leftType before left right mayBeNull) where
  leftOver := rfl
  holds := by
    intro fields typed
    rw [meaning fields typed]
    simp only [ConditionDecomposition.Holds, addEquality, forall_mem_append,
      forall_mem_singleton, EqualityTest.Holds, Nat.add_sub_cancel' isRight]
    tauto
  wellFormed := by
    intro inRange wellFormed
    have rightColumn : right - leftType.length < rightType.length := by
      have := inRange right references.2
      omega
    have leftNullable : mayBeNull = true → leftType.getD left true = true := by
      intro isNullable
      have mayBe := nullable isNullable
      rwa [columnMayBeNull, getD_append _ _ _ _ isLeft] at mayBe
    refine { wellFormed with
      leftColumn_lt := ?_, rightColumn_lt := ?_, nonNull_eq := ?_, left_nullable := ?_ }
    all_goals rw [addEquality, forall_mem_append, forall_mem_singleton]
    · exact ⟨wellFormed.leftColumn_lt, isLeft⟩
    · exact ⟨wellFormed.rightColumn_lt, rightColumn⟩
    · exact ⟨wellFormed.nonNull_eq, rfl⟩
    · exact ⟨wellFormed.left_nullable, leftNullable⟩

variable {before after : ConditionDecomposition V}

theorem adds_checkOneSided {conjunct : RexNode V}
    (added : checkOneSided leftType conjunct before = some after) :
    Adds leftType rightType conjunct before after := by
  simp only [checkOneSided] at added
  split_ifs at added with both isLeft
  · obtain rfl := some.inj added
    have onlyLeft : ∀ index ∈ conjunct.references, index < leftType.length := by
      intro index member
      by_contra isRight
      exact both (isLeft.trans (any_eq_true.mpr ⟨index, member, by simpa using isRight⟩).symm)
    constructor
    case leftOver => rfl
    case holds =>
      simp only [ConditionDecomposition.Holds, forall_mem_append, forall_mem_singleton]
      tauto
    case wellFormed =>
      intro _ wellFormed
      refine { wellFormed with leftPredicates_lt := ?_ }
      rw [forall_mem_append, forall_mem_singleton]
      exact ⟨wellFormed.leftPredicates_lt, onlyLeft⟩
  · obtain rfl := some.inj added
    have onlyRight : ∀ index ∈ conjunct.references, leftType.length ≤ index := by
      intro index member
      by_contra left
      exact isLeft (any_eq_true.mpr ⟨index, member, by simpa using left⟩)
    constructor
    case leftOver => rfl
    case holds =>
      simp only [ConditionDecomposition.Holds, forall_mem_append, forall_mem_singleton]
      tauto
    case wellFormed =>
      intro inRange wellFormed
      refine { wellFormed with rightPredicates_le := ?_, rightPredicates_lt := ?_ }
      · rw [forall_mem_append, forall_mem_singleton]
        exact ⟨wellFormed.rightPredicates_le, onlyRight⟩
      · rw [forall_mem_append, forall_mem_singleton]
        exact ⟨wellFormed.rightPredicates_lt, inRange⟩

variable {operands : List (RexNode V)}

/-- An equality of two columns of different sides, in either order. -/
theorem adds_analyzeEquals {nullSafe : Bool}
    (added : analyzeEquals leftType rightType nullSafe operands before = some after) :
    Adds leftType rightType (.call (if nullSafe then .isNotDistinctFrom else .equals) operands) before
      after := by
  unfold analyzeEquals at added
  split at added
  case h_2 => cases added
  case h_1 left right =>
    -- the columns match exactly if the call is TRUE, whichever of them is on the left side
    have meaning : ∀ fields : ℕ → Cell V,
        (∀ index, columnMayBeNull leftType rightType index = false → fields index ≠ ⊥) →
        ((call (if nullSafe then .isNotDistinctFrom else .equals)
            [.inputRef left, .inputRef right]).IsTrue fields ↔
          fields left = fields right ∧ ((!(nullSafe && columnMayBeNull leftType rightType left &&
            columnMayBeNull leftType rightType right)) = true → fields left ≠ ⊥)) := by
      intro fields typed
      cases nullSafe with
      | false => simpa using isTrue_equals_iff
      | true =>
        simp only [if_true]
        rw [isTrue_isNotDistinctFrom_iff]
        refine ⟨fun same => ⟨same, fun notBoth => ?_⟩, fun both => both.1⟩
        simp only [Bool.true_and, Bool.not_eq_true', Bool.and_eq_false_iff] at notBoth
        rcases notBoth with never | never
        · exact typed left never
        · rw [same]
          exact typed right never
    have references : left ∈ (call (if nullSafe then .isNotDistinctFrom else .equals)
          [.inputRef left, .inputRef right] : RexNode V).references ∧
        right ∈ (call (if nullSafe then .isNotDistinctFrom else .equals)
          [.inputRef left, .inputRef right] : RexNode V).references := by
      simp [references, referencesAll]
    simp only at added
    split_ifs at added with sameSide leftIsLeft
    · obtain rfl := some.inj added
      have isLeft : left < leftType.length := of_decide_eq_true leftIsLeft
      refine adds_addEquality isLeft ?_ references ?_ meaning before
      · by_contra rightIsLeft
        exact sameSide (by simp [isLeft, not_le.mp rightIsLeft])
      · simp only [Bool.and_eq_true]
        exact fun all => all.1.2
    · obtain rfl := some.inj added
      have isRight : leftType.length ≤ left := by simpa using leftIsLeft
      refine adds_addEquality ?_ isRight references.symm ?_ ?_ before
      · by_contra rightIsRight
        exact sameSide (by simp [not_lt.mpr isRight, rightIsRight])
      · simp only [Bool.and_eq_true]
        exact fun all => all.2
      · intro fields typed
        rw [meaning fields typed, eq_comm]
        exact and_congr_right fun same => by rw [same]

theorem adds_analyzeCall {kind : SqlKind V}
    (added : analyzeCall leftType rightType kind operands before = some after) :
    Adds leftType rightType (.call kind operands) before after := by
  cases kind with
  | and | other => exact adds_checkOneSided added
  | equals | isNotDistinctFrom =>
    rcases or_eq_some_iff.mp added with equality | ⟨-, oneSided⟩
    · exact adds_analyzeEquals equality
    · exact adds_checkOneSided oneSided

/-- One round of the loop adds the conjunct to the parts or collects it. -/
theorem analyzeOperand_cases (leftType rightType : RowType)
    (state : ConditionDecomposition V × List (RexNode V)) (operand : RexNode V) :
    (∃ after, Adds leftType rightType operand state.1 after ∧
      analyzeOperand leftType rightType state operand = (after, state.2)) ∨
      analyzeOperand leftType rightType state operand = (state.1, state.2 ++ [operand]) := by
  unfold analyzeOperand
  split
  case h_1 =>
    split
    case h_1 after added => exact .inl ⟨after, adds_analyzeCall added, rfl⟩
    case h_2 => exact .inr rfl
  case h_2 => exact .inr rfl

/-- The loop over the conjuncts, after some of them: what was added and what was collected is
TRUE exactly if all of them are. -/
structure Split (leftType rightType : RowType) (conjuncts : List (RexNode V))
    (state : ConditionDecomposition V × List (RexNode V)) : Prop where
  leftOver : state.1.leftOver = none
  holds : ∀ fields : ℕ → Cell V,
    (∀ index, columnMayBeNull leftType rightType index = false → fields index ≠ ⊥) →
    ((state.1.Holds leftType.length fields ∧ ∀ node ∈ state.2, node.IsTrue fields) ↔
      ∀ node ∈ conjuncts, node.IsTrue fields)
  wellFormed : (∀ node ∈ conjuncts, ∀ index ∈ node.references,
      index < leftType.length + rightType.length) → state.1.WellFormed leftType rightType
  collected : ∀ node ∈ state.2, node ∈ conjuncts

omit [LinearOrder V] in
theorem wellFormed_empty (leftType rightType : RowType) :
    ({} : ConditionDecomposition V).WellFormed leftType rightType := by
  constructor <;> simp

theorem split_foldl (leftType rightType : RowType) (operands : List (RexNode V)) :
    Split leftType rightType operands
      (operands.foldl (analyzeOperand leftType rightType) ({}, [])) := by
  induction operands using List.reverseRecOn with
  | nil =>
    constructor
    case leftOver => rfl
    case holds => simp [ConditionDecomposition.Holds]
    case wellFormed => exact fun _ => wellFormed_empty leftType rightType
    case collected => simp
  | append_singleton operands operand split =>
    rw [foldl_append, foldl_cons, foldl_nil]
    generalize operands.foldl (analyzeOperand leftType rightType) ({}, []) = state at split ⊢
    rcases analyzeOperand_cases leftType rightType state operand with
      ⟨after, adds, result⟩ | result
    · rw [result]
      constructor
      case leftOver => exact adds.leftOver.trans split.leftOver
      case holds =>
        intro fields typed
        rw [adds.holds fields typed, forall_mem_append, forall_mem_singleton,
          ← split.holds fields typed]
        tauto
      case wellFormed =>
        intro inRange
        rw [forall_mem_append, forall_mem_singleton] at inRange
        exact adds.wellFormed inRange.2 (split.wellFormed inRange.1)
      case collected =>
        exact fun node member => mem_append_left _ (split.collected node member)
    · rw [result]
      constructor
      case leftOver => exact split.leftOver
      case holds =>
        intro fields typed
        rw [forall_mem_append, forall_mem_append, forall_mem_singleton, ← split.holds fields typed]
        tauto
      case wellFormed =>
        intro inRange
        exact split.wellFormed fun node member => inRange node (mem_append_left _ member)
      case collected =>
        intro node member
        exact mem_append.mpr ((mem_append.mp member).imp_left (split.collected node))

/-- Setting the rest of a decomposition that has none. -/
theorem holds_setLeftOver (none : decomposition.leftOver = none) (node : RexNode V) :
    ({ decomposition with leftOver := some node } : ConditionDecomposition V).Holds
        leftType.length fields ↔
      decomposition.Holds leftType.length fields ∧ node.IsTrue fields := by
  simp only [ConditionDecomposition.Holds, none, mem_def, reduceCtorEq, some.injEq,
    forall_eq', false_implies, implies_true, and_true]
  tauto

variable (expression : RexNode V)

/-- The parts of an analysed condition are TRUE exactly if the condition is. -/
theorem holds_analyze_iff
    (typed : ∀ index, columnMayBeNull leftType rightType index = false → fields index ≠ ⊥) :
    (analyze leftType rightType expression).Holds leftType.length fields ↔
      expression.IsTrue fields := by
  have rest : ({ leftOver := some expression } : ConditionDecomposition V).Holds
      leftType.length fields ↔ expression.IsTrue fields := by
    simp [ConditionDecomposition.Holds]
  unfold analyze
  split
  case h_1 operands =>
    have split := split_foldl leftType rightType operands
    rw [isTrue_and_iff, ← split.holds fields typed, analyzeAnd]
    split
    case h_1 all => simp [all]
    case h_2 _ one =>
      rw [holds_setLeftOver split.leftOver, one, forall_mem_singleton]
    case h_3 => rw [holds_setLeftOver split.leftOver, isTrue_and_iff]
  case h_2 kind operands _ =>
    cases analyzed : analyzeCall leftType rightType kind operands {} with
    | none => exact rest
    | some =>
      rw [getD_some, (adds_analyzeCall analyzed).holds fields typed]
      simp [ConditionDecomposition.Holds]
  case h_3 => exact rest

theorem wellFormed_analyze
    (inRange : ∀ index ∈ expression.references, index < leftType.length + rightType.length) :
    (analyze leftType rightType expression).WellFormed leftType rightType := by
  have rest : ({ leftOver := some expression } : ConditionDecomposition V).WellFormed
      leftType rightType := by
    refine { wellFormed_empty leftType rightType with leftOver_lt := ?_ }
    simpa using inRange
  unfold analyze
  split
  case h_1 operands =>
    have split := split_foldl leftType rightType operands
    have each := forall_references_call.mp inRange
    have wellFormed := split.wellFormed each
    rw [analyzeAnd]
    split
    case h_1 => exact wellFormed
    case h_2 operand one =>
      refine { wellFormed with leftOver_lt := ?_ }
      rintro _ ⟨⟩
      exact each operand (split.collected operand (by simp [one]))
    case h_3 =>
      refine { wellFormed with leftOver_lt := ?_ }
      rintro _ ⟨⟩
      exact forall_references_call.mpr fun node member =>
        each node (split.collected node member)
  case h_2 kind operands _ =>
    cases analyzed : analyzeCall leftType rightType kind operands {} with
    | none => exact rest
    | some =>
      exact (adds_analyzeCall analyzed).wellFormed inRange (wellFormed_empty leftType rightType)
  case h_3 => exact rest

end JoinConditionAnalyzer

end

end OpenDera.Compiler
