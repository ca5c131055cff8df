import Mathlib.Data.List.SplitLengths
import OpenDera.Compiler.ClosureExpression
import OpenDera.Compiler.Operator
import OpenDera.Std.MultiJoin

/-!
# Removing star joins

`RemoveStarJoins` replaces a star join by a balanced tree of joins that concatenate the
fields of all inputs, followed by a map that groups the fields again and applies the
closure of the star join. Each port of the tree carries the join of a segment of the
inputs; a round of pairing keeps the segments in order, so the last port carries the join
of all inputs.
-/

namespace OpenDera.Compiler

open IndexedZSet List

universe u

open Dataflow StreamCalculus

/-- The operators that the pass looks at, and all others. A star join is given the number of
fields of the values of each input, as in the types of the parameters of its closure. -/
inductive StarOperator (V : Type u) [LinearOrder V] where
  | starJoin (widths : List ℕ) (function : Row V → List (Row V) → Row V)
  | starJoinIndex (widths : List ℕ) (function : Row V → List (Row V) → Row V × Row V)
  | operator (operator : Operator (Row V))

variable {V : Type u} [LinearOrder V]

namespace StarOperator

/-- The operator that a star operator stands for. -/
def toOperator : StarOperator V → Operator (Row V)
  | .starJoin _ function => .starJoin function
  | .starJoinIndex _ function => .starJoinIndex function
  | .operator other => other

/-- The stream an operator computes. -/
def denote (tables : String → PortStream (Row V)) (operator : StarOperator V)
    (inputs : List (PortStream (Row V))) : PortStream (Row V) :=
  operator.toOperator.denote tables inputs

/-- The numbers of fields that a star join expects. -/
def widths? : StarOperator V → Option (List ℕ)
  | .starJoin widths _ => some widths
  | .starJoinIndex widths _ => some widths
  | .operator _ => none

end StarOperator

namespace StarJoinImplementation

/-- The closure of the joins in the tree. -/
def appendFields (key left right : Row V) : Row V × Row V :=
  (key, left ++ right)

/-- The join of two ports, of collections in a delta expansion and of changes otherwise. -/
def appendOperator (delta : Bool) : StarOperator V :=
  match delta with
  | true => .operator (.streamJoinIndex appendFields)
  | false => .operator (.joinIndex appendFields)

/-- Join two ports on the common keys and concatenate the fields. -/
def combineTwoInputs (delta : Bool) (clone : Clone (StarOperator V)) (left right : Nat) :
    Clone (StarOperator V) × Nat :=
  (clone.addOperator (appendOperator delta) [left, right], clone.nextPort)

/-- One round: join neighbours; a last port without a neighbour is kept. -/
def joinPairs (delta : Bool) (clone : Clone (StarOperator V)) :
    List Nat → Clone (StarOperator V) × List Nat
  | left :: right :: rest =>
    ((joinPairs delta (combineTwoInputs delta clone left right).1 rest).1,
      (combineTwoInputs delta clone left right).2 ::
        (joinPairs delta (combineTwoInputs delta clone left right).1 rest).2)
  | ports => (clone, ports)

theorem length_joinPairs_le (delta : Bool) (clone : Clone (StarOperator V))
    (ports : List Nat) : (joinPairs delta clone ports).2.length ≤ ports.length := by
  fun_induction joinPairs delta clone ports with
  | case1 =>
    simp only [length_cons]
    omega
  | case2 => exact le_refl _

/-- Join all ports in rounds until one is left. Without a port the rounds would not end. -/
def concatenateFields (delta : Bool) (clone : Clone (StarOperator V)) :
    List Nat → Option (Clone (StarOperator V) × Nat)
  | [] => none
  | [port] => some (clone, port)
  | left :: right :: rest =>
    concatenateFields delta (joinPairs delta clone (left :: right :: rest)).1
      (joinPairs delta clone (left :: right :: rest)).2
termination_by ports => ports.length
decreasing_by
  have := length_joinPairs_le delta (combineTwoInputs delta clone left right).1 rest
  simp only [joinPairs, List.length_cons]
  omega

/-- Apply the closure of a star join to the concatenated fields. -/
def rewriteStarClosure {Out : Type u} (widths : List ℕ)
    (closure : Row V → List (Row V) → Out) (pair : Row V × Row V) : Out :=
  closure pair.1 (widths.splitLengths pair.2)

end StarJoinImplementation

namespace RemoveStarJoins

open StarJoinImplementation

variable (clone : Clone (StarOperator V)) (node : Node (StarOperator V))

/-- Expand a star join; `result` is the map that comes after the joins. A star join with fewer
than two inputs is not constructed. -/
def expand (result : Operator (Row V)) : Clone (StarOperator V) :=
  match concatenateFields false clone (node.inputs.map clone.mapped) with
  | some (joins, concat) => joins.addAndMap (.operator result) [concat]
  | none => clone.replace node

/-- Visit one node. -/
def visit : Clone (StarOperator V) :=
  match node.op with
  | .starJoin widths function => expand clone node (.map (rewriteStarClosure widths function))
  | .starJoinIndex widths function =>
    expand clone node (.mapIndex (rewriteStarClosure widths function))
  | .operator _ => clone.replace node

end RemoveStarJoins

/-- `RemoveStarJoins` on a circuit. -/
def removeStarJoins (graph : Graph (StarOperator V)) : Graph (StarOperator V) :=
  Clone.run RemoveStarJoins.visit Clone.replaceSink graph

/-- The values of a stream have the given number of fields. -/
def HasWidth (width : ℕ) (stream : PortStream (Row V)) : Prop :=
  ∀ time key value, (stream time).weight key value ≠ 0 → value.length = width

theorem HasWidth.integrate {width : ℕ} {stream : PortStream (Row V)}
    (typed : HasWidth width stream) : HasWidth width (integrate stream) := by
  intro time key value present
  induction time with
  | zero => exact typed 0 key value present
  | succ time ih =>
    by_cases before : (StreamCalculus.integrate stream time).weight key value = 0
    · refine typed (time + 1) key value fun absent => present ?_
      rw [StreamCalculus.integrate, weight_add, before, absent, add_zero]
    · exact ih before

variable {widths : List ℕ}

omit [LinearOrder V] in
/-- Grouping the concatenated fields by their numbers gives the rows back. -/
theorem splitLengths_flatten {rows : List (Row V)}
    (typed : List.Forall₂ (fun width row => row.length = width) widths rows) :
    widths.splitLengths rows.flatten = rows := by
  induction typed with
  | nil => rfl
  | cons length _ ih =>
    rw [splitLengths_cons, flatten_cons, take_left' length, drop_left' length, ih]

namespace StarJoinImplementation

section

variable {tables : String → PortStream (Row V)} {delta : Bool}
  {clone later : Clone (StarOperator V)}

/-- The collections that a port stands for: those it carries in a delta expansion, otherwise
those that its changes add up to. -/
def collected (delta : Bool) (stream : PortStream (Row V)) : PortStream (Row V) := match delta with
  | true => stream
  | false => integrate stream

theorem collected_appendOperator (left right : PortStream (Row V)) (time : ℕ) :
    collected delta ((appendOperator delta).denote tables [left, right]) time =
      join appendFields (collected delta left time) (collected delta right time) := by
  cases delta with
  | true => rfl
  | false =>
    change integrate (differentiate _) time = _
    rw [integrate_differentiate]
    rfl

/-- A key with the concatenated fields of some values. -/
def gather (key : Row V) (values : List (Row V)) : Row V × Row V := (key, values.flatten)

/-- A port carries the join of a segment of the inputs. -/
structure Carries (tables : String → PortStream (Row V)) (delta : Bool)
    (clone : Clone (StarOperator V)) (port : Nat) (segment : List (PortStream (Row V))) :
    Prop where
  present : port < clone.nextPort
  nonempty : segment ≠ []
  joined : ∀ time, collected delta (value (StarOperator.denote tables) clone.graph.nodes port) time =
    joinAll gather (segment.map fun stream => collected delta stream time)

theorem carries_single {port : Nat} (present : port < clone.nextPort) :
    Carries tables delta clone port [value (StarOperator.denote tables) clone.graph.nodes port] where
  present := present
  nonempty := cons_ne_nil _ _
  joined := fun _ => (joinAll_singleton _ _ fun key value => by simp [gather]).symm

theorem Carries.extend {port : Nat} {segment : List (PortStream (Row V))}
    (carries : Carries tables delta clone port segment) (extension : Clone.Extends clone later) :
    Carries tables delta later port segment where
  present := carries.present.trans_le extension.nodes.length_le
  nonempty := carries.nonempty
  joined := by
    rw [extension.value carries.present]
    exact carries.joined

/-- The join of two ports carries the join of both segments. -/
theorem carries_combineTwoInputs {left right : Nat}
    {leftSegment rightSegment : List (PortStream (Row V))}
    (leftCarries : Carries tables delta clone left leftSegment)
    (rightCarries : Carries tables delta clone right rightSegment) :
    Carries tables delta (combineTwoInputs delta clone left right).1
      (combineTwoInputs delta clone left right).2 (leftSegment ++ rightSegment) where
  present := by simp [combineTwoInputs]
  nonempty := by simp [leftCarries.nonempty]
  joined := by
    intro time
    obtain ⟨leftFirst, leftRest, rfl⟩ := exists_cons_of_ne_nil leftCarries.nonempty
    obtain ⟨rightFirst, rightRest, rfl⟩ := exists_cons_of_ne_nil rightCarries.nonempty
    rw [combineTwoInputs, Clone.value_addOperator_nextPort, map_cons, map_singleton,
      collected_appendOperator, leftCarries.joined, rightCarries.joined, map_cons,
      map_cons, @join_joinAll _ _ _ _ _ _ _ _ _ _ (fun _ => True) _ _ _ _ _ _ _
        (fun _ _ _ => trivial) (fun _ _ _ => trivial) (fun _ _ _ => rfl) (fun _ _ _ => rfl)]
    simp only [gather, appendFields, ← flatten_append, take_append_drop]
    rw [map_append, map_cons, map_cons]
    rfl

theorem extends_joinPairs (delta : Bool) (clone : Clone (StarOperator V)) (ports : List Nat) :
    Clone.Extends clone (joinPairs delta clone ports).1 := by
  fun_induction joinPairs delta clone ports with
  | case1 _ _ _ _ ih =>
    exact (Clone.Extends.addOperator ..).trans ih
  | case2 => exact .refl _

variable {ports : List Nat}

theorem extends_concatenateFields {joins : Clone (StarOperator V)} {concat : Nat}
    (found : concatenateFields delta clone ports = some (joins, concat)) :
    Clone.Extends clone joins := by
  fun_induction concatenateFields delta clone ports with
  | case1 => cases found
  | case2 =>
    cases found
    exact .refl _
  | case3 _ _ _ _ ih =>
    exact (extends_joinPairs _ _ _).trans (ih found)

variable {segments : List (List (PortStream (Row V)))} {expected : List (PortStream (Row V))}
  (tracks : Clone.Tracks (StarOperator.denote tables) clone expected [])

include tracks

variable (carries : List.Forall₂ (Carries tables delta clone) ports segments)

include carries

/-- A round of joins keeps the segments in order. -/
theorem joinPairs_spec :
    Clone.Tracks (StarOperator.denote tables) (joinPairs delta clone ports).1 expected [] ∧
      ∃ joined, List.Forall₂ (Carries tables delta (joinPairs delta clone ports).1)
        (joinPairs delta clone ports).2 joined ∧ joined.flatten = segments.flatten := by
  fun_induction joinPairs delta clone ports generalizing segments with
  | case1 clone left right _ ih =>
    obtain _ | ⟨leftCarries, _ | ⟨rightCarries, restCarries⟩⟩ := carries
    have present : ∀ input ∈ [left, right], input < clone.nextPort := by
      simp [leftCarries.present, rightCarries.present]
    have extension : Clone.Extends clone (combineTwoInputs delta clone left right).1 :=
      Clone.Extends.addOperator _ _ _
    obtain ⟨after, segments, carried, same⟩ :=
      ih (tracks.addOperator present) (restCarries.imp fun _ _ carries => carries.extend extension)
    refine ⟨after, _ :: segments, .cons ((carries_combineTwoInputs leftCarries
      rightCarries).extend (extends_joinPairs _ _ _)) carried, ?_⟩
    simp [same]
  | case2 => exact ⟨tracks, segments, carries, rfl⟩

/-- The last port carries the join of all segments. -/
theorem concatenateFields_spec (nonempty : ports ≠ []) :
    ∃ joins concat, concatenateFields delta clone ports = some (joins, concat) ∧
      Clone.Tracks (StarOperator.denote tables) joins expected [] ∧
      Carries tables delta joins concat segments.flatten := by
  fun_induction concatenateFields delta clone ports generalizing segments with
  | case1 => exact absurd rfl nonempty
  | case2 clone port =>
    obtain _ | ⟨carries, _ | _⟩ := carries
    exact ⟨clone, port, rfl, tracks, by simpa using carries⟩
  | case3 _ _ _ _ ih =>
    obtain ⟨after, joined, carried, same⟩ := joinPairs_spec tracks carries
    obtain ⟨joins, concat, found, last, all⟩ :=
      ih after carried (by simp [joinPairs])
    exact ⟨joins, concat, found, last, same ▸ all⟩

end

end StarJoinImplementation

namespace RemoveStarJoins

open StarJoinImplementation

variable {tables : String → PortStream (Row V)}
  {clone : Clone (StarOperator V)} {expected : List (PortStream (Row V))}
  {node : Node (StarOperator V)}

/-- A star join has at least two inputs, and the types of the parameters of its closure are
those of their values. -/
def Admissible (_ : Clone (StarOperator V)) (expected : List (PortStream (Row V)))
    (node : Node (StarOperator V)) : Prop :=
  ∀ widths, node.op.widths? = some widths →
    2 ≤ node.inputs.length ∧ List.Forall₂ HasWidth widths (node.inputs.map (read expected))

/-- The map after the joins groups the fields as the closure of the star join wants them. -/
theorem map_rewriteStarClosure {streams : List (PortStream (Row V))}
    (typed : List.Forall₂ HasWidth widths streams)
    (closure : Row V → List (Row V) → Row V × Row V) (time : ℕ) :
    IndexedZSet.map (rewriteStarClosure widths closure)
        (joinAll gather (streams.map fun stream => integrate stream time)) =
      joinAll closure (streams.map fun stream => integrate stream time) := by
  rw [map_joinAll]
  apply joinAll_congr
  intro key values chosen
  have lengths : List.Forall₂ (fun width row => row.length = width) widths values := by
    induction typed generalizing values with
    | nil =>
      cases chosen
      exact .nil
    | cons first _ ih =>
      obtain _ | ⟨present, rest⟩ := chosen
      exact .cons (first.integrate time key _ present) (ih _ rest)
  rw [rewriteStarClosure, gather, splitLengths_flatten lengths]

/-- The joins and the map compute the star join. -/
theorem tracks_expand (tracks : Clone.Tracks (StarOperator.denote tables) clone expected [])
    (earlier : ∀ input ∈ node.inputs, input < expected.length) (arity : 2 ≤ node.inputs.length)
    (typed : List.Forall₂ HasWidth widths (node.inputs.map (read expected)))
    {closure : Row V → List (Row V) → Row V × Row V} {result : Operator (Row V)}
    (mapped : ∀ stream, result.denote tables [stream] =
      lift (IndexedZSet.map (rewriteStarClosure widths closure)) stream) :
    Clone.Tracks (StarOperator.denote tables) (expand clone node result)
      (expected ++ [incrementalAll (joinAll closure) (node.inputs.map (read expected))]) [] := by
  have carries : List.Forall₂ (Carries tables false clone) (node.inputs.map clone.mapped)
      (node.inputs.map fun input => [read expected input]) := by
    rw [forall₂_map_left_iff, forall₂_map_right_iff, forall₂_same]
    intro input member
    rw [← tracks.mapped_value input (earlier input member)]
    exact carries_single (tracks.mapped_lt input (earlier input member))
  have nonempty : node.inputs.map clone.mapped ≠ [] := by
    intro empty
    rw [map_eq_nil_iff] at empty
    simp [empty] at arity
  obtain ⟨joins, concat, found, after, all⟩ := concatenateFields_spec tracks carries nonempty
  have flattened : (node.inputs.map fun input => [read expected input]).flatten =
      node.inputs.map (read expected) := by
    rw [← flatMap_def, map_eq_flatMap]
  rw [flattened] at all
  rw [expand, found]
  refine after.addAndMap (by simpa using all.present) ?_
  change result.denote tables _ = _
  have additive : ∀ stream : PortStream (Row V),
      integrate (lift (IndexedZSet.map (rewriteStarClosure widths closure)) stream) =
        lift (IndexedZSet.map (rewriteStarClosure widths closure)) (integrate stream) :=
    fun stream => (lift_integrate (flatMap_add _) stream).symm
  rw [map_singleton, mapped, ← differentiate_integrate (lift _ _), additive]
  refine congrArg differentiate (funext fun time => ?_)
  rw [lift, ← map_rewriteStarClosure typed]
  exact congrArg _ (all.joined time)

theorem extends_visit (clone : Clone (StarOperator V)) (node : Node (StarOperator V)) :
    Clone.Extends clone (visit clone node) := by
  have expanded : ∀ result, Clone.Extends clone (expand clone node result) := by
    intro result
    unfold expand
    split
    case h_1 _ _ found =>
      exact (extends_concatenateFields found).trans (.addAndMap ..)
    case h_2 => exact .addAndMap ..
  unfold visit
  split
  case h_1 | h_2 => exact expanded _
  case h_3 => exact .addAndMap ..

theorem judges (tables : String → PortStream (Row V)) :
    Clone.Judges (StarOperator.denote tables) visit Admissible (fun _ _ _ => True)
      (fun _ => True) where
  extends_visit := extends_visit
  initial := trivial
  step := by
    intro clone expected node tracks _ earlier admitted
    refine ⟨_, ?_, trivial, iff_of_true trivial rfl⟩
    obtain ⟨operator, inputs⟩ := node
    cases operator with
    | starJoin widths | starJoinIndex widths =>
      obtain ⟨arity, typed⟩ := admitted widths rfl
      exact tracks_expand tracks earlier arity typed fun _ => rfl
    | operator => exact tracks.replace earlier

end RemoveStarJoins

end OpenDera.Compiler
