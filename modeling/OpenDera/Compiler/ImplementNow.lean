import Mathlib.Data.Prod.Lex
import OpenDera.Std.StreamCalculus
import OpenDera.Std.ThetaJoin
import OpenDera.Std.ThreeValued

/-!
# Compiling NOW()

`implementNow` compiles filters that involve the clock. `breakFilters` is repeated until no
condition with NOW() is an AND or an OR any more, `mergeFilters` joins neighbouring filters
that fit in one window, and `rewriteNow` makes a window of the bounds of a filter, or joins
the rows with the clock and filters them by the condition.
-/

namespace OpenDera.Compiler.Temporal

section

/-- The comparisons. -/
inductive DBSPOpcode where
  | lt
  | lte
  | gt
  | gte
  | eq
  deriving DecidableEq

namespace DBSPOpcode

/-- The comparison includes equality. -/
def isInclusive : DBSPOpcode → Bool
  | .gte | .lte => true
  | _ => false

/-- The comparison is greater than, or equal. -/
def isGreater : DBSPOpcode → Bool
  | .gte | .gt => true
  | _ => false

/-- The comparison to use when the operands are exchanged. -/
def inverse : DBSPOpcode → DBSPOpcode
  | .lt => .gte
  | .gte => .lt
  | .lte => .gt
  | .gt => .lte
  | .eq => .eq

/-- Compare two values. -/
def holds {V : Type} [LinearOrder V] (opcode : DBSPOpcode) (left right : V) : Bool :=
  match opcode with
  | .lt => left < right
  | .lte => left ≤ right
  | .gt => right < left
  | .gte => right ≤ left
  | .eq => left = right

end DBSPOpcode

/-- The expressions that do not involve NOW(): their value in a row, and whether it may be
NULL. -/
class ScalarExpressions (S : Type) (Row TS : outParam Type) where
  mayBeNull : S → Bool
  value : S → Row → Option TS
  value_ne_none : ∀ scalar row, mayBeNull scalar = false → value scalar row ≠ none

variable {S Row TS : Type} [LinearOrder TS]

/-- The operands of comparisons: an expression without NOW(), an expression that is found to be
a monotone function of NOW() and not NULL, or any other expression with NOW(). -/
inductive Operand (S Row TS : Type) [LinearOrder TS] where
  | noNow (scalar : S)
  | monotone (function : TS →o TS)
  | other (value : Row → TS → Option TS)

namespace Operand

/-- The operand involves NOW(). -/
def containsNow : Operand S Row TS → Bool
  | .noNow _ => false
  | _ => true

variable [ScalarExpressions S Row TS]

/-- The operand may be NULL. -/
def mayBeNull : Operand S Row TS → Bool
  | .noNow scalar => ScalarExpressions.mayBeNull scalar
  | .monotone _ => false
  | .other _ => true

/-- The value of the operand. -/
def value (operand : Operand S Row TS) (row : Row) (now : TS) : Option TS := match operand with
  | .noNow scalar => ScalarExpressions.value scalar row
  | .monotone function => some (function now)
  | .other value => value row now

end Operand

/-- The conditions of filters. Predicates that are not looked into are given by their values and
by whether they are binary expressions; `wrapBool` turns NULL into FALSE. -/
inductive FilterExpression (S Row TS : Type)
    [LinearOrder TS] where
  | noNow (isBinary mayBeNull : Bool) (value : Row → Option Bool)
  | other (isBinary mayBeNull : Bool) (value : Row → TS → Option Bool)
  | compare (opcode : DBSPOpcode) (left right : Operand S Row TS)
  | and (left right : FilterExpression S Row TS)
  | or (left right : FilterExpression S Row TS)
  | wrapBool (source : FilterExpression S Row TS)

/-- A comparison that may become the bound of a window. -/
structure TemporalFilter (S TS : Type) [LinearOrder TS] where
  noNow : S
  withNow : TS →o TS
  opcode : DBSPOpcode

namespace FilterExpression

/-- The expression involves NOW(). -/
def containsNow : FilterExpression S Row TS → Bool
  | .noNow _ _ _ => false
  | .other _ _ _ => true
  | .compare _ left right => left.containsNow || right.containsNow
  | .and left right => left.containsNow || right.containsNow
  | .or left right => left.containsNow || right.containsNow
  | .wrapBool source => source.containsNow

/-- The expression is a binary one. -/
def isBinary : FilterExpression S Row TS → Bool
  | .noNow isBinary _ _ => isBinary
  | .other isBinary _ _ => isBinary
  | .wrapBool _ => false
  | _ => true

/-- The comparison of an expression without NOW() with a monotone function of NOW(), the former
on the left. -/
def temporalFilter? : FilterExpression S Row TS → Option (TemporalFilter S TS)
  | .compare opcode (.noNow scalar) (.monotone function) =>
    some { noNow := scalar, withNow := function, opcode := opcode }
  | .compare opcode (.monotone function) (.noNow scalar) =>
    some { noNow := scalar, withNow := function, opcode := opcode.inverse }
  | _ => none

/-- Drop an outer `wrapBool`. -/
def unwrapBool : FilterExpression S Row TS → FilterExpression S Row TS
  | .wrapBool source => source
  | expression => expression

variable [ScalarExpressions S Row TS]

/-- The expression may be NULL. -/
def mayBeNull : FilterExpression S Row TS → Bool
  | .noNow _ mayBeNull _ => mayBeNull
  | .other _ mayBeNull _ => mayBeNull
  | .compare _ left right => left.mayBeNull || right.mayBeNull
  | .and left right => left.mayBeNull || right.mayBeNull
  | .or left right => left.mayBeNull || right.mayBeNull
  | .wrapBool _ => false

variable (expression : FilterExpression S Row TS)

/-- Make the expression not NULL. -/
def wrapBoolIfNeeded : FilterExpression S Row TS :=
  if expression.mayBeNull then .wrapBool expression else expression

/-- The value of the expression. -/
def value (row : Row) (now : TS) : FilterExpression S Row TS → Option Bool
  | .noNow _ _ value => value row
  | .other _ _ value => value row now
  | .compare opcode left right =>
    match left.value row now, right.value row now with
    | some left, some right => some (opcode.holds left right)
    | _, _ => none
  | .and left right => ThreeValued.and (left.value row now) (right.value row now)
  | .or left right => ThreeValued.or (left.value row now) (right.value row now)
  | .wrapBool source => some ((source.value row now).getD false)

/-- The expression is TRUE. -/
def isTrue (row : Row) (now : TS) : Bool :=
  expression.value row now = some true

variable (condition : FilterExpression S Row TS) (row : Row) (now : TS)

/-- Wrapping a condition does not change where it is TRUE. -/
@[simp] theorem isTrue_wrapBool : condition.wrapBool.isTrue row now = condition.isTrue row now := by
  rw [isTrue, isTrue, value]
  rcases condition.value row now with - | - | - <;> rfl

@[simp] theorem isTrue_wrapBoolIfNeeded :
    condition.wrapBoolIfNeeded.isTrue row now = condition.isTrue row now := by
  rw [wrapBoolIfNeeded]
  split
  · exact isTrue_wrapBool condition row now
  · rfl

@[simp] theorem isTrue_unwrapBool :
    condition.unwrapBool.isTrue row now = condition.isTrue row now := by
  cases condition with
  | wrapBool source => exact (isTrue_wrapBool source row now).symm
  | _ => rfl

end FilterExpression

namespace TemporalFilter

variable [DecidableEq S]

/-- Two comparisons can be bounds of one window: they compare the same expression, and on
different sides or with the same inclusivity. -/
def compatible (first second : TemporalFilter S TS) : Bool :=
  if first.opcode.isGreater = second.opcode.isGreater ∧
      first.opcode.isInclusive ≠ second.opcode.isInclusive then false
  else first.noNow = second.noNow

end TemporalFilter

/-- The conjuncts of a condition. -/
inductive BooleanExpression (S Row TS : Type)
    [LinearOrder TS] where
  | noNow (expression : FilterExpression S Row TS)
  | nonTemporalFilter (expression : FilterExpression S Row TS)
  | temporalFilter (comparison : TemporalFilter S TS)
  | temporalFilterList (comparisons : List (TemporalFilter S TS))

namespace BooleanExpression

/-- The conjunct involves NOW() and is not a temporal filter. -/
def isNonTemporalFilter : BooleanExpression S Row TS → Bool
  | .nonTemporalFilter _ => true
  | _ => false

/-- The conjunct does not involve NOW(). -/
def isNoNow : BooleanExpression S Row TS → Bool
  | .noNow _ => true
  | _ => false

/-- The final form of a conjunct. -/
def sealed : BooleanExpression S Row TS → BooleanExpression S Row TS
  | .temporalFilter comparison => .temporalFilterList [comparison]
  | expression => expression

/-- Two conjuncts can be evaluated together. -/
def compatible [DecidableEq S] (first second : BooleanExpression S Row TS) : Bool :=
  match first, second with
  | .noNow _, second => second.isNoNow
  | .nonTemporalFilter _, _ => true
  | .temporalFilter first, .temporalFilter second => first.compatible second
  | .temporalFilter _, _ => false
  | .temporalFilterList comparisons, .temporalFilter second =>
    comparisons.all fun first => first.compatible second
  | .temporalFilterList comparisons, _ => comparisons.isEmpty

variable [ScalarExpressions S Row TS]

/-- Combine two compatible conjuncts; others make the compiler fail. -/
def combine (first second : BooleanExpression S Row TS) : Option (BooleanExpression S Row TS) :=
  match first, second with
  | .noNow first, .noNow second => some (.noNow (first.and second).wrapBoolIfNeeded)
  | .nonTemporalFilter first, .noNow second =>
    some (.nonTemporalFilter (first.and second).wrapBoolIfNeeded)
  | .nonTemporalFilter first, .nonTemporalFilter second =>
    some (.nonTemporalFilter (first.and second).wrapBoolIfNeeded)
  | .temporalFilter first, .temporalFilter second => some (.temporalFilterList [first, second])
  | .temporalFilterList comparisons, .temporalFilter second =>
    some (.temporalFilterList (comparisons ++ [second]))
  | _, _ => none

end BooleanExpression

namespace FindComparisons

/-- A conjunct that is not a temporal filter. -/
def nonTemporal (expression : FilterExpression S Row TS) : BooleanExpression S Row TS :=
  if expression.containsNow then .nonTemporalFilter expression else .noNow expression

/-- A binary expression that can be used before the left over conjuncts. -/
def findComparison (binary : FilterExpression S Row TS) : Option (BooleanExpression S Row TS) :=
  if binary.containsNow then binary.temporalFilter?.map .temporalFilter else some (.noNow binary)

variable [ScalarExpressions S Row TS]

/-- Add the conjuncts of an expression to those found so far. The result is false if the last of
them takes in all that follows. -/
def analyzeConjunction (comparisons : List (BooleanExpression S Row TS)) :
    FilterExpression S Row TS → Option (Bool × List (BooleanExpression S Row TS))
  | .and left right => do
      let (foundLeft, comparisons) ← analyzeConjunction comparisons left
      if foundLeft then analyzeConjunction comparisons right
      else
        let last ← comparisons.getLast?
        let right := nonTemporal right
        if last.isNonTemporalFilter || (last.isNoNow && right.isNoNow) then
          (last.combine right).map fun combined => (false, comparisons.dropLast ++ [combined])
        else some (false, comparisons ++ [right])
  | expression =>
    if expression.isBinary then
      (findComparison expression).elim (some (false, comparisons ++ [nonTemporal expression]))
        fun found => some (true, comparisons ++ [found])
    else some (false, comparisons ++ [nonTemporal expression])

/-- The conjuncts of the condition of a filter. -/
def decomposeIntoTemporalFilters (function : FilterExpression S Row TS) :
    Option (List (BooleanExpression S Row TS)) :=
  (analyzeConjunction [] function.unwrapBool).map Prod.snd

end FindComparisons

section

variable [DecidableEq S] [ScalarExpressions S Row TS]

/-- Combine consecutive compatible conjuncts, from the current one on. -/
def combineFrom (current : BooleanExpression S Row TS) :
    List (BooleanExpression S Row TS) → Option (List (BooleanExpression S Row TS))
  | [] => some [current.sealed]
  | expression :: rest =>
    if current.compatible expression then do
      let combined ← current.combine expression
      combineFrom combined rest
    else (combineFrom expression rest).map fun combined => current.sealed :: combined

/-- Combine consecutive compatible conjuncts. -/
def combineExpressions (decomposition : List (BooleanExpression S Row TS)) :
    Option (List (BooleanExpression S Row TS)) :=
  match decomposition with
  | [] => some []
  | expression :: rest => combineFrom expression rest

end

/-- A bound of a window, as a function of the clock. -/
structure WindowBound (TS : Type) where
  inclusive : Bool
  expression : TS → TS

/-- Combine two bounds on one side. -/
def WindowBound.combine (first second : WindowBound TS) (lower : Bool) : Option (WindowBound TS) :=
  if first.inclusive = second.inclusive then
    some { first with
      expression := fun now => if lower then min (first.expression now) (second.expression now)
        else max (first.expression now) (second.expression now) }
  else none

/-- The bounds of a window on an expression. -/
structure WindowBounds (S TS : Type) where
  lower : Option (WindowBound TS)
  upper : Option (WindowBound TS)
  common : S

namespace TemporalFilterList

/-- Combine two bounds on one side, if there are two. -/
def combine (first : Option (WindowBound TS)) (second : WindowBound TS) (lower : Bool) :
    Option (WindowBound TS) :=
  match first with
  | none => some second
  | some first => first.combine second lower

/-- Add the bound that a comparison gives. -/
def addBound (bounds : WindowBounds S TS) (comparison : TemporalFilter S TS) :
    Option (WindowBounds S TS) :=
  let result : WindowBound TS :=
    { inclusive := comparison.opcode.isInclusive, expression := comparison.withNow }
  if comparison.opcode.isGreater then
    (combine bounds.lower result true).map fun lower => { bounds with lower := some lower }
  else (combine bounds.upper result false).map fun upper => { bounds with upper := some upper }

/-- The bounds of the window for a list of comparisons. -/
def getWindowBounds (comparisons : List (TemporalFilter S TS)) : Option (WindowBounds S TS) := do
  let first ← comparisons.head?
  comparisons.foldlM addBound { lower := none, upper := none, common := first.noNow }

end TemporalFilterList

namespace WindowBounds

variable [BoundedOrder TS] (bounds : WindowBounds S TS)

/-- The interval for a value of the clock. -/
def makeWindow (now : TS) : TS × TS :=
  (bounds.lower.elim ⊥ fun lower => lower.expression now,
    bounds.upper.elim ⊤ fun upper => upper.expression now)

/-- The lower end belongs to the window. -/
def lowerInclusive : Bool :=
  bounds.lower.elim true WindowBound.inclusive

/-- The upper end belongs to the window. -/
def upperInclusive : Bool :=
  bounds.upper.elim true WindowBound.inclusive

end WindowBounds

end

/-! ## Compiling NOW() -/

open StreamCalculus FindComparisons

variable {S Row TS : Type} [LinearOrder Row] [LinearOrder TS]

/-- A Z-set of rows. -/
abbrev Table (Row : Type) [LinearOrder Row] := IndexedZSet Row Unit

/-- The operators between a source and a view. -/
inductive Circuit (S Row TS : Type) [LinearOrder TS] where
  | source
  | filter (function : FilterExpression S Row TS) (input : Circuit S Row TS)
  | sum (left right : Circuit S Row TS)
  | subtract (left right : Circuit S Row TS)

namespace Circuit

omit [LinearOrder Row]

/-- A condition involves NOW(). -/
def containsNow : Circuit S Row TS → Bool
  | .source => false
  | .filter function input => function.containsNow || input.containsNow
  | .sum left right => left.containsNow || right.containsNow
  | .subtract left right => left.containsNow || right.containsNow

/-- The number of operators. -/
def size : Circuit S Row TS → ℕ
  | .source => 1
  | .filter _ input => input.size + 1
  | .sum left right => left.size + right.size + 1
  | .subtract left right => left.size + right.size + 1

end Circuit

section

variable [ScalarExpressions S Row TS]

namespace BreakFilters

omit [LinearOrder Row]

variable (function : FilterExpression S Row TS)

/-- The condition is an AND that involves NOW(), or an OR. -/
def isBreakable : Bool :=
  function.containsNow &&
    match function.unwrapBool with
    | .and _ _ | .or _ _ => true
    | _ => false

/-- Break a filter into simpler ones: an AND into two filters, an OR into the sum of two
filters without the rows that pass both. -/
def visitFilter (input : Circuit S Row TS) : Circuit S Row TS :=
  if function.containsNow then
    match function.unwrapBool with
    | .and left right =>
      .filter right.wrapBoolIfNeeded (.filter left.wrapBoolIfNeeded input)
    | .or left right =>
      .subtract (.sum (.filter left.wrapBoolIfNeeded input) (.filter right.wrapBoolIfNeeded input))
        (.filter (left.and right).wrapBoolIfNeeded input)
    | _ => .filter function input
  else .filter function input

end BreakFilters

/-- Break every filter once. -/
def breakFilters : Circuit S Row TS → Circuit S Row TS
  | .source => .source
  | .filter function input => BreakFilters.visitFilter function (breakFilters input)
  | .sum left right => .sum (breakFilters left) (breakFilters right)
  | .subtract left right => .subtract (breakFilters left) (breakFilters right)

/-- Breaking filters changes the circuit. -/
def Circuit.isBreakable : Circuit S Row TS → Bool
  | .source => false
  | .filter function input => BreakFilters.isBreakable function || input.isBreakable
  | .sum left right => left.isBreakable || right.isBreakable
  | .subtract left right => left.isBreakable || right.isBreakable

end

section

variable [DecidableEq S] [ScalarExpressions S Row TS]

namespace MergeFilters

/-- Two filters can be combined into one window. -/
def canBeMerged (source filter : FilterExpression S Row TS) : Option Bool := do
  let sourceComparisons ← decomposeIntoTemporalFilters source
  let filterComparisons ← decomposeIntoTemporalFilters filter
  match sourceComparisons, filterComparisons with
  | [.temporalFilter first], [.temporalFilter second] => pure (first.compatible second)
  | _, _ => pure false

/-- Merge a filter into the one before it. -/
def visitFilter (function : FilterExpression S Row TS) :
    Circuit S Row TS → Option (Circuit S Row TS)
  | .filter sourceFunction input =>
    if function.containsNow && sourceFunction.containsNow then do
      if ← canBeMerged sourceFunction function then pure (.filter (sourceFunction.and function) input)
      else pure (.filter function (.filter sourceFunction input))
    else some (.filter function (.filter sourceFunction input))
  | input => some (.filter function input)

end MergeFilters

end

/-- The greatest timestamp in the changes so far. -/
def waterline (init : TS) (changes : ℕ → IndexedZSet TS Unit) : ℕ → TS
  | 0 => (changes 0).tuples.foldl (fun bound tuple => max bound tuple.1.1) init
  | time + 1 => (changes (time + 1)).tuples.foldl (fun bound tuple => max bound tuple.1.1)
      (waterline init changes time)

/-- The built-in table that holds the clock. -/
def now (clock : ℕ → TS) (time : ℕ) : IndexedZSet TS Unit :=
  .single (clock time, ())

/-- The value of the clock. -/
def scalarNow [BoundedOrder TS] (clock : ℕ → TS) : ℕ → TS := waterline ⊥ (differentiate (now clock))

variable (lowerInclusive upperInclusive : Bool)

/-- A key lies between the bounds. -/
def inWindow (bounds : TS × TS) (key : TS) : Bool :=
  (if lowerInclusive then bounds.1 ≤ key else bounds.1 < key) &&
    if upperInclusive then key ≤ bounds.2 else key < bounds.2

/-- The changes of the rows whose key lies between the bounds. -/
def window (changes : ℕ → IndexedZSet TS Row) (bounds : ℕ → TS × TS) : ℕ → IndexedZSet TS Row :=
  differentiate fun time => (integrate changes time).filter fun pair =>
    inWindow lowerInclusive upperInclusive (bounds time) pair.1

/-- What a part of a circuit computes from the clock and from the stream of its input. -/
abbrev Transformer (Row TS : Type) [LinearOrder Row] := (ℕ → TS) → (ℕ → Table Row) → ℕ → Table Row

namespace RewriteNow

variable [ScalarExpressions S Row TS] (condition : FilterExpression S Row TS)

/-- Keep the rows for which a condition without NOW() is TRUE. -/
def filterRows : Transformer Row TS :=
  fun clock input time => (input time).filter fun pair => condition.isTrue pair.1 (clock time)

/-- Index a row by its timestamp. The cast to a type that may not be NULL has a value because
rows where it is NULL do not get here. -/
def indexFunction (common : S) (pair : Row × Unit) : Option (TS × Row) :=
  (ScalarExpressions.value common pair.1).map fun timestamp => (timestamp, pair.1)

/-- Implement a temporal filter as a window over the rows whose timestamp is not NULL. -/
def implementTemporalFilter [BoundedOrder TS]
    (comparisons : List (TemporalFilter S TS)) : Option (Transformer Row TS) := do
  let bounds ← TemporalFilterList.getWindowBounds comparisons
  pure fun clock input =>
    let windowBounds := fun time => bounds.makeWindow (scalarNow clock time)
    let nonNull : ℕ → Table Row := fun time =>
      if ScalarExpressions.mayBeNull bounds.common then (input time).filter fun pair =>
        (ScalarExpressions.value bounds.common pair.1).isSome
      else input time
    let index : ℕ → IndexedZSet TS Row := fun time =>
      (nonNull time).flatMap fun pair => (indexFunction bounds.common pair).toList
    let selected := integrate
      (window bounds.lowerInclusive bounds.upperInclusive (differentiate index) windowBounds)
    fun time => (selected time).map fun pair => (pair.2, ())

/-- Join every row with the clock. -/
def createJoin (clock : ℕ → TS) (input : ℕ → Table Row) (time : ℕ) : IndexedZSet (Row ×ₗ TS) Unit :=
  let index : IndexedZSet Unit Row := (input time).map fun pair => ((), pair.1)
  let nowIndexed : IndexedZSet Unit TS := (now clock time).map fun pair => ((), pair.1)
  index.join (fun _ row timestamp => (toLex (row, timestamp), ())) nowIndexed

/-- Implement a condition that is no temporal filter: NOW() is the last field after a join with
the clock, which is dropped again. -/
def implementLeftOver : Transformer Row TS :=
  fun clock input time =>
    ((createJoin clock input time).filter fun pair =>
        condition.wrapBoolIfNeeded.isTrue (ofLex pair.1).1 (ofLex pair.1).2).map
      fun pair => ((ofLex pair.1).1, ())

/-- Implement a list of conjuncts one after the other, up to one that is left over. -/
def implementConjuncts [BoundedOrder TS] :
    List (BooleanExpression S Row TS) → Option (Transformer Row TS)
  | [] => some fun _ input => input
  | .nonTemporalFilter _ :: _ => some fun _ input => input
  | .temporalFilterList comparisons :: rest => do
      let first ← implementTemporalFilter comparisons
      let others ← implementConjuncts rest
      pure fun clock input => others clock (first clock input)
  | .noNow expression :: rest => do
      let others ← implementConjuncts rest
      pure fun clock input => others clock (filterRows expression.wrapBoolIfNeeded clock input)
  | .temporalFilter _ :: _ => none

/-- Implement a list of filters, of which only the last one may be left over. -/
def implementTemporalFilters [BoundedOrder TS]
    (filters : List (BooleanExpression S Row TS)) : Option (Transformer Row TS) :=
  if filters.dropLast.any BooleanExpression.isNonTemporalFilter then none
  else implementConjuncts filters

/-- Implement a filter. -/
def visitFilter [DecidableEq S] [BoundedOrder TS]
    (function : FilterExpression S Row TS) : Option (Transformer Row TS) :=
  if function.containsNow then do
    let filters ← decomposeIntoTemporalFilters function
    let filters ← combineExpressions filters
    let leftOver ← filters.getLast?
    let result ← implementTemporalFilters filters
    match leftOver with
    | .nonTemporalFilter expression =>
      pure fun clock input => implementLeftOver expression clock (result clock input)
    | _ => pure result
  else some (filterRows function)

end RewriteNow

section

variable [DecidableEq S] [ScalarExpressions S Row TS] [BoundedOrder TS]

/-- Rewrite the operators of a circuit. -/
def rewriteNow : Circuit S Row TS → Option (Transformer Row TS)
  | .source => some fun _ input => input
  | .filter function input => do
      let input ← rewriteNow input
      let filter ← RewriteNow.visitFilter function
      pure fun clock rows => filter clock (input clock rows)
  | .sum left right => do
      let left ← rewriteNow left
      let right ← rewriteNow right
      pure fun clock rows time => left clock rows time + right clock rows time
  | .subtract left right => do
      let left ← rewriteNow left
      let right ← rewriteNow right
      pure fun clock rows time => left clock rows time - right clock rows time

end

end OpenDera.Compiler.Temporal
