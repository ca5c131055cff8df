import Mathlib.Data.List.Lex
import Mathlib.Data.List.GetD

/-!
# Expressions in the bodies of closures

The closures of maps and joins compute tuples field by field from the fields of their
parameters. `NoExpression` stands for data that must not be looked at: substituting it
for a parameter tells whether an expression depends on that parameter.
-/

namespace OpenDera.Compiler

open List

/-- A tuple of fields. -/
abbrev Row (V : Type*) := List V

/-- An expression over the fields of the parameters of a closure. -/
inductive Expression (V : Type*) where
  | field (parameter index : ℕ)
  | literal (value : V)
  | apply (arity : ℕ) (function : (Fin arity → V) → V) (arguments : Fin arity → Expression V)
  | noExpression

namespace Expression

variable {V : Type*}

/-- Replace the fields of the parameters by expressions. -/
def substitute (arguments : ℕ → ℕ → Expression V) : Expression V → Expression V
  | .field parameter index => arguments parameter index
  | .literal value => .literal value
  | .apply arity function operands =>
    .apply arity function fun operand => (operands operand).substitute arguments
  | .noExpression => .noExpression

/-- The expression is one field of a parameter. -/
def isField (parameter index : ℕ) : Expression V → Bool
  | .field other position => other = parameter && position = index
  | _ => false

theorem eq_field {parameter index : ℕ} {expression : Expression V}
    (isField : expression.isField parameter index = true) :
    expression = .field parameter index := by
  cases expression with
  | field =>
    simp only [Expression.isField, Bool.and_eq_true, decide_eq_true_eq] at isField
    rw [isField.1, isField.2]
  | literal | apply | noExpression => simp [Expression.isField] at isField

variable [Inhabited V]

/-- The value of an expression, given the fields of the parameters. -/
def eval (fields : ℕ → ℕ → V) : Expression V → V
  | .field parameter index => fields parameter index
  | .literal value => value
  | .apply _ function operands => function fun operand => (operands operand).eval fields
  | .noExpression => default

theorem eval_substitute (arguments : ℕ → ℕ → Expression V) (fields : ℕ → ℕ → V)
    (expression : Expression V) :
    (expression.substitute arguments).eval fields =
      expression.eval fun parameter index => (arguments parameter index).eval fields := by
  induction expression with
  | field => rfl
  | literal => rfl
  | apply _ _ _ ih =>
    simp only [substitute, eval, ih]
  | noExpression => rfl

end Expression

variable {V : Type*} [Inhabited V]

/-- The fields of the parameters of a closure. -/
def fieldsOf (parameters : List (Row V)) (parameter index : ℕ) : V :=
  (parameters.getD parameter []).getD index default

/-- The tuple that a closure computes. -/
def evalRow (expressions : List (Expression V)) (parameters : List (Row V)) : Row V :=
  expressions.map fun expression => expression.eval (fieldsOf parameters)

variable (row : List (Expression V)) (expression : Expression V)

/-- Use the tuple that `row` computes as the first parameter. -/
def applyAfter : Expression V :=
  expression.substitute fun parameter index =>
    if parameter = 0 then row.getD index .noExpression else .noExpression

theorem eval_applyAfter (parameters : List (Row V)) :
    (applyAfter row expression).eval (fieldsOf parameters) =
      expression.eval (fieldsOf [evalRow row parameters, []]) := by
  rw [applyAfter, Expression.eval_substitute]
  congr 1
  funext parameter index
  match parameter with
  | 0 =>
    change _ = (evalRow row parameters).getD index default
    rw [evalRow, getD_eq_getElem?_getD, getD_eq_getElem?_getD, List.getElem?_map]
    cases row[index]? <;> rfl
  | 1 => rfl
  | parameter + 2 => rfl

theorem evalRow_applyAfter (row expressions : List (Expression V)) (parameters : List (Row V)) :
    evalRow (expressions.map (applyAfter row)) parameters =
      evalRow expressions [evalRow row parameters, []] := by
  simp only [evalRow, map_map, Function.comp_def, eval_applyAfter]

/-- Replace all parameters but the first by `NoExpression`. -/
def withoutData : Expression V :=
  expression.substitute fun parameter index =>
    if parameter = 0 then .field 0 index else .noExpression

/-- The expressions are the fields of the first parameter, in order. -/
def isIdentityFunction (width : ℕ) (expressions : List (Expression V)) : Bool :=
  expressions.length = width &&
    expressions.zipIdx.all fun entry => entry.1.isField 0 entry.2

omit [Inhabited V] in
/-- An expression that is a field of the first parameter when it may not look at the others is
that field. -/
theorem eq_field_of_withoutData {expression : Expression V} {index : ℕ}
    (identity : withoutData expression = .field 0 index) : expression = .field 0 index := by
  cases expression with
  | field =>
    simp only [withoutData, Expression.substitute] at identity
    split at identity
    case isTrue first =>
      rw [first]
      exact identity
    case isFalse => cases identity
  | literal => cases identity
  | apply => cases identity
  | noExpression => cases identity

/-- A key computed by expressions that pass the check is the first parameter. -/
theorem evalRow_of_isIdentityFunction {width : ℕ} {expressions : List (Expression V)}
    (identity : isIdentityFunction width (expressions.map withoutData) = true) {key : Row V}
    (typed : key.length = width) (data : List (Row V)) :
    evalRow expressions (key :: data) = key := by
  simp only [isIdentityFunction, length_map, Bool.and_eq_true, decide_eq_true_eq,
    all_eq_true] at identity
  obtain ⟨length, fields⟩ := identity
  refine ext_getElem (by simp [evalRow, length, typed]) fun index bound inKey => ?_
  have inside : index < expressions.length := by simpa [evalRow] using bound
  have isField := fields (withoutData expressions[index], index) (by
    rw [mem_zipIdx_iff_getElem?]
    simp [inside])
  have same := eq_field_of_withoutData (Expression.eq_field isField)
  simp only [evalRow, getElem_map, same, Expression.eval, fieldsOf, getD_cons_zero]
  rw [getD_eq_getElem _ _ inKey]

end OpenDera.Compiler
