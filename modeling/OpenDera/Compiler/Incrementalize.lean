import OpenDera.Compiler.Operator

/-!
# Incrementalizing a circuit

`IncrementalizeVisitor` integrates the changes of every table and differentiates what
every sink observes. `OptimizeIncrementalVisitor` pushes the integrals forward: an
operator whose inputs are all integrals is replaced by the integral of its incremental
counterpart, and a differential of an integral disappears. `RemoveIAfterD` removes an
integral of a differential. All three clone the circuit in topological order.

Each pass is correct node by node, so by `Clone.run_outputs` for whole circuits with
any sharing, and the passes compose in any order and number.
-/

namespace OpenDera.Compiler

open Dataflow StreamCalculus Operator List Function Clone

variable {D : Type*} [LinearOrder D]

/-- The input of the integrator at a port of the new circuit. -/
def integralInput (clone : Clone (Operator D)) (port : Nat) : Option Nat :=
  match clone.node? port with
  | some ⟨.integrate, inputs⟩ => inputs.head?
  | _ => none

/-- The input of the differentiator at a port of the new circuit. -/
def differentialInput (clone : Clone (Operator D)) (port : Nat) : Option Nat :=
  match clone.node? port with
  | some ⟨.differentiate _, inputs⟩ => inputs.head?
  | _ => none

namespace OptimizeIncrementalVisitor

/-- The operator that replaces `operator` in front of an integrator when all its inputs are
integrals: a linear operator itself, and the incremental counterpart of the others. -/
def counterpart : Operator D → Option (Operator D)
  | .map function => some (.map function)
  | .mapIndex function => some (.mapIndex function)
  | .deindex => some .deindex
  | .flatMap function => some (.flatMap function)
  | .filter condition => some (.filter condition)
  | .negate => some .negate
  | .noop => some .noop
  | .view => some .view
  | .sum => some .sum
  | .atomicSum => some .atomicSum
  | .subtract => some .subtract
  | .differentiate true => some (.differentiate true)
  | .streamJoin function => some (.join function)
  | .streamJoinIndex function => some (.joinIndex function)
  | .streamAntiJoin => some .antiJoin
  | .streamDistinct => some .distinct
  | .streamAggregate aggregator => some (.aggregate aggregator)
  | _ => none

variable (clone : Clone (Operator D)) (node : Node (Operator D))

/-- Replace a node whose inputs are all integrals by the integral of `replacement` on what
they integrate; replace it by itself if some input is not an integral. -/
def pushIntegrals (replacement : Operator D) : Clone (Operator D) :=
  match node.inputs.mapM fun input => integralInput clone (clone.mapped input) with
  | some sources =>
    (clone.addOperator replacement sources).addAndMap .integrate [clone.nextPort]
  | none => clone.replace node

/-- Visit a differentiator that may be removed. -/
def visitDifferentiate : Clone (Operator D) :=
  match node.inputs with
  | [input] =>
    match integralInput clone (clone.mapped input) with
    | some source => clone.map source
    | none => clone.replace node
  | _ => clone.replace node

/-- Visit one node. -/
def visit : Clone (Operator D) :=
  match node.op with
  | .differentiate false => visitDifferentiate clone node
  | operator =>
    match counterpart operator with
    | some replacement => pushIntegrals clone node replacement
    | none => clone.replace node

end OptimizeIncrementalVisitor

namespace RemoveIAfterD

/-- Visit one node: an integral of a differential is what was differentiated. -/
def visit (clone : Clone (Operator D)) (node : Node (Operator D)) : Clone (Operator D) :=
  match node.op, node.inputs with
  | .integrate, [input] =>
    match differentialInput clone (clone.mapped input) with
    | some source => clone.map source
    | none => clone.replace node
  | _, _ => clone.replace node

end RemoveIAfterD

namespace IncrementalizeVisitor

variable (clone : Clone (Operator D))

/-- Visit one node: the changes of a table are integrated, and a constant is differentiated
and integrated again. -/
def visit (node : Node (Operator D)) : Clone (Operator D) :=
  match node.op with
  | .sourceMultiset table =>
    (clone.addOperator (.sourceMultiset table) []).addAndMap .integrate [clone.nextPort]
  | .sourceMap table =>
    (clone.addOperator (.sourceMap table) []).addAndMap .integrate [clone.nextPort]
  | .constant value =>
    let constant := clone.addOperator (.constant value) []
    let differential := constant.addOperator (.differentiate false) [clone.nextPort]
    differential.addAndMap .integrate [constant.nextPort]
  | _ => clone.replace node

/-- Visit one sink: it observes the differential. -/
def visitSink (sink : String × Nat) : Clone (Operator D) :=
  (clone.addOperator (.differentiate false) [clone.mapped sink.2]).addSink sink.1 clone.nextPort

end IncrementalizeVisitor

/-- The passes that make a circuit incremental. -/
inductive IncrementalPass where
  | incrementalizeVisitor
  | optimizeIncrementalVisitor
  | removeIAfterD
  deriving DecidableEq

open IncrementalizeVisitor

/-- Apply one pass to a circuit. -/
def IncrementalPass.apply : IncrementalPass → Graph (Operator D) → Graph (Operator D)
  | .incrementalizeVisitor =>
    run visit visitSink
  | .optimizeIncrementalVisitor => run OptimizeIncrementalVisitor.visit replaceSink
  | .removeIAfterD => run RemoveIAfterD.visit replaceSink

section

variable [Inhabited D] {tables : String → PortStream D} {clone : Clone (Operator D)}
  {expected : List (PortStream D)} {observed : List (String × PortStream D)}
  {node : Node (Operator D)}
  (tracks : Clone.Tracks (denote tables) clone expected observed)

include tracks

variable {port source : Nat}

/-- A port that is the integral of another one. -/
theorem value_of_integralInput (found : integralInput clone port = some source) :
    source < clone.nextPort ∧
      value (denote tables) clone.graph.nodes port =
        integrate (value (denote tables) clone.graph.nodes source) := by
  unfold integralInput at found
  split at found
  case h_1 _ isIntegral =>
    obtain ⟨others, rfl⟩ := head?_eq_some_iff.mp found
    refine ⟨tracks.inputs_lt isIntegral source (by simp), ?_⟩
    rw [tracks.value_of_node? isIntegral]
    rfl
  case h_2 => simp at found

/-- A port that is the differential of another one. -/
theorem value_of_differentialInput (found : differentialInput clone port = some source) :
    source < clone.nextPort ∧
      value (denote tables) clone.graph.nodes port =
        differentiate (value (denote tables) clone.graph.nodes source) := by
  unfold differentialInput at found
  split at found
  case h_1 _ _ isDifferential =>
    obtain ⟨others, rfl⟩ := head?_eq_some_iff.mp found
    refine ⟨tracks.inputs_lt isDifferential source (by simp), ?_⟩
    rw [tracks.value_of_node? isDifferential]
    rfl
  case h_2 => simp at found

variable (earlier : ∀ input ∈ node.inputs, input < expected.length)

namespace OptimizeIncrementalVisitor

omit tracks in
/-- An operator on integrals computes the integral of its counterpart. -/
theorem denote_map_integrate {operator replacement : Operator D}
    (pushed : counterpart operator = some replacement) (inputs : List (PortStream D)) :
    operator.denote tables (inputs.map integrate) =
      integrate (replacement.denote tables inputs) := by
  cases operator <;> simp only [counterpart, Option.some.injEq, reduceCtorEq] at pushed
  case map function | mapIndex function | deindex | flatMap function | filter condition =>
    subst pushed
    simp only [denote, left_map_integrate]
    exact lift_integrate (IndexedZSet.flatMap_add _) _
  case negate =>
    subst pushed
    simp only [denote, left_map_integrate, integrate_neg]
  case noop | view =>
    subst pushed
    simp only [denote, left_map_integrate]
  case sum | atomicSum =>
    subst pushed
    exact (integrate_sum inputs).symm
  case subtract =>
    subst pushed
    simp only [denote, left_map_integrate, right_map_integrate, integrate_sub]
  case streamJoin function | streamJoinIndex function | streamAntiJoin =>
    subst pushed
    simp only [denote, left_map_integrate, right_map_integrate, incremental₂,
      integrate_differentiate]
  case streamDistinct | streamAggregate aggregator =>
    subst pushed
    simp only [denote, left_map_integrate, incremental, integrate_differentiate]
  case differentiate noInc =>
    cases noInc with
    | false => simp at pushed
    | true =>
      obtain rfl := Option.some.inj pushed
      simp only [denote, left_map_integrate, integrate_differentiate, differentiate_integrate]

include earlier

theorem tracks_pushIntegrals {replacement : Operator D}
    (pushed : counterpart node.op = some replacement) :
    Clone.TracksNode (denote tables) (pushIntegrals clone node replacement)
      expected observed node := by
  unfold pushIntegrals
  split
  case h_1 _ found =>
    obtain ⟨present, same⟩ :=
      map_of_mapM (fun _ _ isIntegral => value_of_integralInput tracks isIntegral) found
    refine (tracks.addOperator present).addAndMap (by simp) ?_
    rw [map_singleton, value_addOperator_nextPort, ← tracks.map_mapped earlier,
      map_map, comp_def, same, denote_map_integrate pushed]
    rfl
  case h_2 => exact tracks.replace earlier

theorem tracks_visitDifferentiate {noInc : Bool}
    (isDifferentiate : node.op = .differentiate noInc) :
    Clone.TracksNode (denote tables) (visitDifferentiate clone node) expected observed node := by
  unfold visitDifferentiate
  split
  case h_1 input single =>
    split
    case h_1 _ found =>
      obtain ⟨present, same⟩ := value_of_integralInput tracks found
      have mapped := tracks.mapped_value input (earlier input (by simp [single]))
      refine tracks.map present ?_
      rw [isDifferentiate, single, map_singleton, ← mapped, same]
      exact (differentiate_integrate _).symm
    case h_2 => exact tracks.replace earlier
  case h_2 => exact tracks.replace earlier

theorem tracks_visit :
    Clone.TracksNode (denote tables) (visit clone node) expected observed node := by
  unfold visit
  split
  case h_1 isDifferentiate => exact tracks_visitDifferentiate tracks earlier isDifferentiate
  case h_2 =>
    split
    case h_1 _ pushed => exact tracks_pushIntegrals tracks earlier pushed
    case h_2 => exact tracks.replace earlier

end OptimizeIncrementalVisitor

include earlier

theorem RemoveIAfterD.tracks_visit :
    Clone.TracksNode (denote tables) (RemoveIAfterD.visit clone node) expected observed node := by
  unfold RemoveIAfterD.visit
  split
  case h_1 input isIntegrate single =>
    split
    case h_1 _ found =>
      obtain ⟨present, same⟩ := value_of_differentialInput tracks found
      have mapped := tracks.mapped_value input (earlier input (by simp [single]))
      refine tracks.map present ?_
      rw [isIntegrate, single, map_singleton, ← mapped, same]
      exact (integrate_differentiate _).symm
    case h_2 => exact tracks.replace earlier
  case h_2 => exact tracks.replace earlier

/-- The replacement of a node computes what the node computes on integrated tables. -/
theorem IncrementalizeVisitor.tracks_visit :
    Clone.Tracks (denote tables) (visit clone node)
      (expected ++ [node.op.denote (fun table => integrate (tables table))
        (node.inputs.map (read expected))]) observed := by
  obtain ⟨operator, inputs⟩ := node
  cases operator
  case sourceMultiset table | sourceMap table =>
    refine (tracks.addOperator (by simp)).addAndMap (by simp) ?_
    rw [map_singleton, value_addOperator_nextPort]
    rfl
  case constant =>
    refine ((tracks.addOperator (by simp)).addOperator (by simp)).addAndMap (by simp) ?_
    rw [map_singleton, value_addOperator_nextPort, map_singleton, value_addOperator_nextPort]
    exact integrate_differentiate _
  all_goals exact tracks.replace earlier

omit earlier in
theorem IncrementalizeVisitor.tracks_visitSink {sink : String × Nat}
    (earlier : sink.2 < expected.length) :
    Clone.Tracks (denote tables) (visitSink clone sink) expected
      (observed ++ [(sink.1, differentiate (read expected sink.2))]) := by
  refine (tracks.addOperator (by simpa using tracks.mapped_lt _ earlier)).addSink sink.1
    (by simp) ?_
  rw [value_addOperator_nextPort, map_singleton, tracks.mapped_value _ earlier]
  rfl

end

variable [Inhabited D]

/-- One pass leaves a well-formed circuit and, if it is `IncrementalizeVisitor`, turns the
query into its incremental version. -/
theorem IncrementalPass.apply_outputs (pass : IncrementalPass) {graph : Graph (Operator D)}
    (wellFormed : graph.WellFormed) (tables : String → PortStream D) :
    (pass.apply graph).WellFormed ∧
      (pass.apply graph).outputs (denote tables) =
        (graph.outputs (denote fun table =>
          integrate^[[pass].count .incrementalizeVisitor] (tables table))).map fun sink =>
            (sink.1, differentiate^[[pass].count .incrementalizeVisitor] sink.2) := by
  cases pass with
  | incrementalizeVisitor =>
    exact run_outputs
      (fun _ _ _ _ tracks earlier => tracks_visit tracks earlier)
      (fun _ _ _ _ tracks earlier => tracks_visitSink tracks earlier)
      wellFormed
  | optimizeIncrementalVisitor =>
    exact run_outputs
      (fun _ _ _ _ tracks earlier => OptimizeIncrementalVisitor.tracks_visit tracks earlier)
      (fun _ _ _ _ tracks earlier => tracks.replaceSink earlier) wellFormed
  | removeIAfterD =>
    exact run_outputs (fun _ _ _ _ tracks earlier => RemoveIAfterD.tracks_visit tracks earlier)
      (fun _ _ _ _ tracks earlier => tracks.replaceSink earlier) wellFormed

/-- Apply one pass to a circuit; the result is a circuit again. -/
def IncrementalPass.rewrite (circuit : Circuit D) (pass : IncrementalPass) : Circuit D where
  graph := pass.apply circuit.graph
  wellFormed := (pass.apply_outputs circuit.wellFormed 0).1

/-- Whatever passes are applied, in whatever order and number, every sink of the result
observes the query's incremental version, taken as many times as `IncrementalizeVisitor`
was applied: once, it emits at every step the change of the query on the tables integrated
so far; without it, the sinks observe what they observed. -/
theorem sinks_after_passes (passes : List IncrementalPass) (circuit : Circuit D)
    (tables : String → PortStream D) :
    (passes.foldl IncrementalPass.rewrite circuit).sinks tables =
      (circuit.sinks fun table =>
        integrate^[passes.count .incrementalizeVisitor] (tables table)).map fun sink =>
          (sink.1, differentiate^[passes.count .incrementalizeVisitor] sink.2) := by
  induction passes generalizing circuit with
  | nil => simp
  | cons pass passes ih =>
    have one := fun tables => (pass.apply_outputs circuit.wellFormed tables).2
    have counted : (pass :: passes).count .incrementalizeVisitor =
        [pass].count .incrementalizeVisitor + passes.count .incrementalizeVisitor := by
      rw [← count_append, singleton_append]
    rw [foldl_cons, ih, Circuit.sinks, IncrementalPass.rewrite, one,
      map_map, counted, Circuit.sinks]
    simp only [iterate_add_apply integrate]
    simp only [Nat.add_comm ([pass].count _), iterate_add_apply]
    rfl

end OpenDera.Compiler
