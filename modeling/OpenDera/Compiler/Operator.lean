import OpenDera.Std.DataflowSteps
import OpenDera.Std.Relational
import OpenDera.Std.StreamCalculus

/-!
# Operators of a circuit and the streams they compute

The compiler turns a query into a circuit of operators on streams of Z-sets. Every
port carries an indexed Z-set at each step; a plain Z-set is indexed by its rows, with
a value that carries nothing. Before incrementalization a table's stream holds the
whole table at every step and operators such as `streamJoin` act on each step alone.
Their incremental counterparts take changes to changes: they are `D ∘ X ∘ I`.
-/

namespace OpenDera.Compiler

section

open StreamCalculus

/-- What a port carries in one step. -/
abbrev Collection (D : Type*) [LinearOrder D] := IndexedZSet D D

/-- What a port carries step by step. -/
abbrev PortStream (D : Type*) [LinearOrder D] := ℕ → Collection D

/-- The operators of a circuit, with the functions the query gives them. -/
inductive Operator (D : Type*) [LinearOrder D] where
  | sourceMultiset (table : String)
  | sourceMap (table : String)
  | constant (value : Collection D)
  | map (function : D × D → D)
  | mapIndex (function : D × D → D × D)
  | deindex
  | flatMap (function : D × D → List D)
  | filter (condition : D × D → Bool)
  | negate
  | noop
  | view
  | sum
  | atomicSum
  | subtract
  | streamJoin (function : D → D → D → D)
  | streamJoinIndex (function : D → D → D → D × D)
  | streamAntiJoin
  | streamDistinct
  | streamAggregate (aggregator : ZSet D → Option D)
  | join (function : D → D → D → D)
  | joinIndex (function : D → D → D → D × D)
  | antiJoin
  | distinct
  | aggregate (aggregator : ZSet D → Option D)
  | starJoin (function : D → List D → D)
  | starJoinIndex (function : D → List D → D × D)
  | leftJoin (function : D → D → D → D) (absent : D)
  | leftJoinIndex (function : D → D → D → D × D) (absent : D)
  | integrate
  | differentiate (noInc : Bool)

section

variable {D : Type*} [LinearOrder D]

instance : Inhabited (PortStream D) := ⟨0⟩

variable (inputs : List (PortStream D))

/-- The stream of the only input, or of the left one. -/
def left : PortStream D :=
  inputs.headD 0

/-- The stream of the right input. -/
def right : PortStream D :=
  inputs.getD 1 0

@[simp] theorem left_singleton (input : PortStream D) : left [input] = input := rfl

@[simp] theorem left_map_integrate : left (inputs.map integrate) = integrate (left inputs) := by
  cases inputs with
  | nil => exact integrate_zero.symm
  | cons => rfl

@[simp] theorem right_map_integrate : right (inputs.map integrate) = integrate (right inputs) := by
  unfold right
  rw [List.getD_eq_getElem?_getD, List.getD_eq_getElem?_getD, List.getElem?_map]
  cases inputs[1]? with
  | none => exact integrate_zero.symm
  | some => rfl

end

variable {D : Type*} [LinearOrder D] [Inhabited D]

/-- A row of a plain Z-set as a pair. -/
def asRow (row : D) : D × D :=
  (row, default)

variable (function : D → D → D → D)

/-- Join two collections on their keys into rows. -/
def joinRows : Collection D → Collection D → Collection D :=
  IndexedZSet.join fun key first second => asRow (function key first second)

theorem joinRows_zero_right (collection : Collection D) : joinRows function collection 0 = 0 :=
  IndexedZSet.join_zero_right _ collection

/-- The incremental version of an operator on the collections of several streams. -/
def incrementalAll (operator : List (Collection D) → Collection D)
    (inputs : List (PortStream D)) : PortStream D :=
  StreamCalculus.differentiate fun time =>
    operator (inputs.map fun input => StreamCalculus.integrate input time)

/-- The stream an operator computes from those of its inputs, given the streams of the
tables. -/
def Operator.denote (tables : String → PortStream D) :
    Operator D → List (PortStream D) → PortStream D
  | .sourceMultiset table, _ => tables table
  | .sourceMap table, _ => tables table
  | .constant value, _ => fun _ => value
  | .map function, inputs => lift (IndexedZSet.map fun pair => asRow (function pair)) (left inputs)
  | .mapIndex function, inputs => lift (IndexedZSet.map function) (left inputs)
  | .deindex, inputs => lift (IndexedZSet.map fun pair => asRow pair.2) (left inputs)
  | .flatMap function, inputs =>
    lift (IndexedZSet.flatMap fun pair => (function pair).map asRow) (left inputs)
  | .filter condition, inputs => lift (IndexedZSet.filter condition) (left inputs)
  | .negate, inputs => -left inputs
  | .noop, inputs => left inputs
  | .view, inputs => left inputs
  | .sum, inputs => inputs.sum
  | .atomicSum, inputs => inputs.sum
  | .subtract, inputs => left inputs - right inputs
  | .streamJoin function, inputs => lift₂ (joinRows function) (left inputs) (right inputs)
  | .streamJoinIndex function, inputs =>
    lift₂ (IndexedZSet.join function) (left inputs) (right inputs)
  | .streamAntiJoin, inputs => lift₂ IndexedZSet.antiJoin (left inputs) (right inputs)
  | .streamDistinct, inputs => lift IndexedZSet.distinct (left inputs)
  | .streamAggregate aggregator, inputs => lift (IndexedZSet.aggregate aggregator) (left inputs)
  | .join function, inputs => incremental₂ (lift₂ (joinRows function)) (left inputs) (right inputs)
  | .joinIndex function, inputs =>
    incremental₂ (lift₂ (IndexedZSet.join function)) (left inputs) (right inputs)
  | .antiJoin, inputs => incremental₂ (lift₂ IndexedZSet.antiJoin) (left inputs) (right inputs)
  | .distinct, inputs => incremental (lift IndexedZSet.distinct) (left inputs)
  | .aggregate aggregator, inputs =>
    incremental (lift (IndexedZSet.aggregate aggregator)) (left inputs)
  | .starJoin function, inputs =>
    incrementalAll (IndexedZSet.joinAll fun key values => asRow (function key values)) inputs
  | .starJoinIndex function, inputs => incrementalAll (IndexedZSet.joinAll function) inputs
  | .leftJoin function absent, inputs =>
    incremental₂ (lift₂ (IndexedZSet.leftJoin
      (fun key first second => asRow (function key first second)) absent))
      (left inputs) (right inputs)
  | .leftJoinIndex function absent, inputs =>
    incremental₂ (lift₂ (IndexedZSet.leftJoin function absent)) (left inputs) (right inputs)
  | .integrate, inputs => StreamCalculus.integrate (left inputs)
  | .differentiate _, inputs => StreamCalculus.differentiate (left inputs)

/-- A circuit: operators in topological order, and the sinks of its views. -/
structure Circuit (D : Type*) [LinearOrder D] where
  graph : Dataflow.Graph (Operator D)
  wellFormed : graph.WellFormed

/-- The streams at the sinks of a circuit. -/
def Circuit.sinks (circuit : Circuit D) (tables : String → PortStream D) :
    List (String × PortStream D) :=
  circuit.graph.outputs (Operator.denote tables)

end

/-! ## Cloning a circuit -/

open Dataflow

/-- An operator with its multiset flag. `origin` identifies an operator object that was taken
over from the circuit that is cloned. -/
structure Annotated (D : Type*) [LinearOrder D] where
  operator : Operator D
  isMultiset : Bool
  origin : Option Nat := none

variable {D : Type*} [LinearOrder D]

/-- The stream an annotated operator computes; the annotations play no part. -/
def Annotated.denote [Inhabited D] (tables : String → PortStream D)
    (annotated : Annotated D) (inputs : List (PortStream D)) : PortStream D :=
  annotated.operator.denote tables inputs

/-- The flag that the constructor of an operator sets, from the flag it is given and those of
its inputs. -/
def Operator.constructedFlag (operator : Operator D) (given : Bool) (inputs : List Bool) : Bool :=
  match operator with
  | .sourceMultiset _ | .map _ | .deindex | .flatMap _ | .sum | .atomicSum => true
  | .sourceMap _ | .subtract | .streamDistinct | .distinct | .streamAggregate _ | .aggregate _ =>
    false
  | .mapIndex _ | .filter _ | .negate | .noop | .view | .streamAntiJoin | .antiJoin | .integrate
  | .differentiate _ => inputs.headD true
  | _ => given

variable (clone : Clone (Annotated D))

/-- The flag of a port of the new circuit. -/
def isMultisetAt (port : Nat) : Bool :=
  match clone.node? port with
  | some node => node.op.isMultiset
  | none => true

/-- A new operator that computes the same on other inputs. -/
def withInputs (annotated : Annotated D) (inputs : List Nat) : Annotated D where
  operator := annotated.operator
  isMultiset := annotated.operator.constructedFlag annotated.isMultiset
    (inputs.map (isMultisetAt clone))

/-- An input has been replaced by itself. -/
def isUnchanged (input : Nat) : Bool :=
  match clone.node? (clone.mapped input) with
  | some node => node.op.origin = some input
  | none => false

variable (node : Node (Annotated D))

/-- Replace an operator by one with the replaced inputs, or by itself if they are its own. -/
def replaceOperator : Clone (Annotated D) :=
  let sources := node.inputs.map clone.mapped
  if node.inputs.all (isUnchanged clone) then
    clone.addAndMap { node.op with origin := some clone.remap.length } sources
  else
    clone.addAndMap (withInputs clone node.op sources) sources

theorem extends_replaceOperator : Clone.Extends clone (replaceOperator clone node) := by
  unfold replaceOperator
  split <;> exact .addAndMap ..

/-- Replacing an operator keeps its value. -/
theorem tracks_replaceOperator [Inhabited D] {tables : String → PortStream D}
    {clone : Clone (Annotated D)} {expected : List (PortStream D)}
    {observed : List (String × PortStream D)} {node : Node (Annotated D)}
    (tracks : Clone.Tracks (Annotated.denote tables) clone expected observed)
    (earlier : ∀ input ∈ node.inputs, input < expected.length) :
    Clone.TracksNode (Annotated.denote tables) (replaceOperator clone node)
      expected observed node := by
  unfold replaceOperator
  split <;> exact tracks.addAndMap (tracks.map_mapped_lt earlier)
    (by rw [tracks.map_mapped earlier]; rfl)

end OpenDera.Compiler
