import OpenDera.Compiler.PropagateEmptySources
import OpenDera.Std.Multiplicity

/-!
# Removing and moving distinct

`OptimizeDistinctVisitor` drops a distinct of a distinct and of a port that is not
flagged as a multiset, drops the distincts below a distinct of a map, a join or a sum,
and moves filters and joins below distinct. Moving a join below distinct is only right
if the join merges no rows: the rule knows nothing about the function of the join.
-/

namespace OpenDera.Compiler.OptimizeDistinctVisitor

open IndexedZSet IndexedZSet.SameRows Option

section

open Dataflow

variable {D : Type*} [LinearOrder D] (clone : Clone (Annotated D))

/-- The input of the stream distinct at a port of the new circuit. -/
def streamDistinctInput (port : Nat) : Option Nat :=
  match clone.node? port with
  | some ⟨⟨.streamDistinct, _, _⟩, inputs⟩ => inputs.head?
  | _ => none

/-- The port of the new circuit is a distinct. -/
def isDistinct (port : Nat) : Bool :=
  match clone.node? port with
  | some ⟨⟨.streamDistinct, _, _⟩, _⟩ => true
  | some ⟨⟨.distinct, _, _⟩, _⟩ => true
  | _ => false

/-- A distinct of the port does nothing, as far as the visitor can see. -/
def isRedundant (port : Nat) : Bool :=
  isDistinct clone port || !isMultisetAt clone port

variable (atomic : Bool)

/-- The operators below which a distinct makes other distincts superfluous; atomic sums only
for a stream distinct. -/
def absorbsDistinct : Operator D → Bool
  | .streamJoin _ | .map _ | .sum => true
  | .atomicSum => atomic
  | _ => false

variable (clone : Clone (Annotated D))

/-- The operator at a port whose inputs are all stream distincts, with what those read. -/
def distinctOperands (port : Nat) : Option (Annotated D × List Nat) :=
  match clone.node? port with
  | some below =>
    if absorbsDistinct atomic below.op.operator then
      (below.inputs.mapM (streamDistinctInput clone)).map fun sources => (below.op, sources)
    else none
  | none => none

/-- Visit a distinct. -/
def visitDistinct (node : Node (Annotated D)) : Clone (Annotated D) :=
  match node.inputs with
  | [input] =>
    if isRedundant clone (clone.mapped input) then clone.map (clone.mapped input)
    else
      match distinctOperands atomic clone (clone.mapped input) with
      | some (annotated, sources) =>
        let below := clone.addOperator (withInputs clone annotated sources) sources
        below.addAndMap (withInputs below node.op [clone.nextPort]) [clone.nextPort]
      | none => replaceOperator clone node
  | _ => replaceOperator clone node

variable (node : Node (Annotated D))

/-- Visit a filter: it is moved below a stream distinct. -/
def visitFilter : Clone (Annotated D) :=
  match node.inputs with
  | [input] =>
    match streamDistinctInput clone (clone.mapped input) with
    | some source =>
      (clone.addOperator (withInputs clone node.op [source]) [source]).addAndMap
        { operator := .streamDistinct, isMultiset := false } [clone.nextPort]
    | none => replaceOperator clone node
  | _ => replaceOperator clone node

/-- Visit a join: it is moved below two stream distincts. -/
def visitJoin : Clone (Annotated D) :=
  match node.inputs with
  | [left, right] =>
    match streamDistinctInput clone (clone.mapped left),
      streamDistinctInput clone (clone.mapped right) with
    | some newLeft, some newRight =>
      (clone.addOperator (withInputs clone node.op [newLeft, newRight])
        [newLeft, newRight]).addAndMap { operator := .streamDistinct, isMultiset := false }
        [clone.nextPort]
    | _, _ => replaceOperator clone node
  | _ => replaceOperator clone node

/-- Visit one node. -/
def visit : Clone (Annotated D) :=
  match node.op.operator with
  | .streamDistinct => visitDistinct true clone node
  | .distinct => visitDistinct false clone node
  | .filter _ => visitFilter clone node
  | .streamJoin _ => visitJoin clone node
  | _ => replaceOperator clone node

theorem extends_visitDistinct
    (node : Node (Annotated D)) : Clone.Extends clone (visitDistinct atomic clone node) := by
  unfold visitDistinct
  split
  case h_1 =>
    split
    case isTrue => exact .map ..
    case isFalse =>
      split
      case h_1 => exact (Clone.Extends.addOperator ..).trans (.addAndMap ..)
      case h_2 => exact extends_replaceOperator clone node
  case h_2 => exact extends_replaceOperator clone node

theorem extends_visit : Clone.Extends clone (visit clone node) := by
  unfold visit
  split
  case h_1 | h_2 => exact extends_visitDistinct _ clone node
  case h_3 | h_4 =>
    simp only [visitFilter, visitJoin]
    split
    case h_1 =>
      split
      case h_1 => exact (Clone.Extends.addOperator ..).trans (.addAndMap ..)
      case h_2 => exact extends_replaceOperator clone node
    case h_2 => exact extends_replaceOperator clone node
  case h_5 => exact extends_replaceOperator clone node

end

/-! ## The rewriting is correct -/

open Dataflow StreamCalculus

variable {D : Type*} [LinearOrder D]

/-- What a step puts below a distinct, with the inputs of the distincts it reads through: the
operator that a distinct reads, or a join. -/
def readsThrough (clone : Clone (Annotated D)) (node : Node (Annotated D)) :
    Option (Annotated D × List Nat) :=
  match node.op.operator, node.inputs with
  | .streamDistinct, [input] =>
    if isRedundant clone (clone.mapped input) then none
    else distinctOperands true clone (clone.mapped input)
  | .streamJoin _, [left, right] =>
    match streamDistinctInput clone (clone.mapped left),
      streamDistinctInput clone (clone.mapped right) with
    | some newLeft, some newRight => some (node.op, [newLeft, newRight])
    | _, _ => none
  | _, _ => none

section

variable [Inhabited D] (tables : String → PortStream D) (clone : Clone (Annotated D))
  (expected : List (PortStream D)) (node : Node (Annotated D))

/-- The value of a port of the new circuit. -/
abbrev carried : Nat → PortStream D :=
  value (Annotated.denote tables) clone.graph.nodes

/-- A step drops no distinct of a port that holds a row several times and moves no join that
emits a row several times. -/
structure KeepsSets : Prop where
  dropped : ∀ input, node.op.operator = .streamDistinct → node.inputs = [input] →
    isRedundant clone (clone.mapped input) = true → ∀ time, (read expected input time).IsSet
  moved : ∀ function, node.op.operator = .streamJoin function →
    (readsThrough clone node).isSome = true →
    ∀ time, (node.op.denote tables (node.inputs.map (read expected)) time).IsSet

/-- Moreover, what a step puts below a distinct has the same positive rows whether or not
its inputs are made distinct. -/
structure Harmless : Prop extends KeepsSets tables clone expected node where
  sameRows : ∀ annotated sources, readsThrough clone node = some (annotated, sources) →
    ∀ time key value,
      0 < (annotated.denote tables (sources.map (carried tables clone)) time).weight key value ↔
        0 < (annotated.denote tables ((sources.map (carried tables clone)).map
          (lift IndexedZSet.distinct)) time).weight key value

/-- No distinct that a step reads through reads a negative weight. -/
def ReadsMultisets (clone : Clone (Annotated D)) (_ : List (PortStream D))
    (node : Node (Annotated D)) : Prop :=
  ∀ annotated sources, readsThrough clone node = some (annotated, sources) →
    ∀ source ∈ sources, ∀ time, (carried tables clone source time).Nonneg

/-- A step leads to `next`, and the value of the new port is as wanted exactly if `harmless`. -/
abbrev StepsTo (next : Clone (Annotated D)) (harmless : Prop) (wanted : PortStream D) : Prop :=
  ∃ result, Clone.Tracks (Annotated.denote tables) next (expected ++ [result]) [] ∧
    (harmless ↔ result = wanted)

end

section

variable (inputs : List (PortStream D))

theorem left_map_distinct (time : ℕ) :
    left (inputs.map (lift IndexedZSet.distinct)) time = (left inputs time).distinct := by
  cases inputs <;> rfl

theorem right_map_distinct (time : ℕ) :
    right (inputs.map (lift IndexedZSet.distinct)) time = (right inputs time).distinct := by
  rcases inputs with _ | ⟨first, _ | ⟨second, others⟩⟩ <;> rfl

variable {inputs} (nonneg : ∀ input ∈ inputs, ∀ time, (input time).Nonneg) (time : ℕ)

include nonneg

theorem nonneg_left : (left inputs time).Nonneg := by
  cases inputs with
  | nil => exact nonneg_zero
  | cons input => exact nonneg input (by simp) time

theorem nonneg_right : (right inputs time).Nonneg := by
  rcases inputs with _ | ⟨first, _ | ⟨second, others⟩⟩
  · exact nonneg_zero
  · exact nonneg_zero
  · exact nonneg second (by simp) time

theorem sameRows_sum :
    IndexedZSet.SameRows ((inputs.map (lift IndexedZSet.distinct)).sum time) (inputs.sum time) := by
  induction inputs with
  | nil => exact zero
  | cons _ _ ih =>
    rw [List.forall_mem_cons] at nonneg
    exact (of_distinct (nonneg.1 time)).add (ih nonneg.2)

/-- Maps, joins and sums produce the same rows whether or not their inputs are made distinct. -/
theorem sameRows_denote [Inhabited D] {tables : String → PortStream D} {atomic : Bool}
    {operator : Operator D} (absorbs : absorbsDistinct atomic operator = true) :
    IndexedZSet.SameRows (operator.denote tables (inputs.map (lift IndexedZSet.distinct)) time)
      (operator.denote tables inputs time) := by
  have leftRows := of_distinct (nonneg_left nonneg time)
  have rightRows := of_distinct (nonneg_right nonneg time)
  cases operator <;> simp only [absorbsDistinct, Bool.false_eq_true] at absorbs
  case map =>
    simp only [Operator.denote, lift, left_map_distinct]
    exact leftRows.flatMap _
  case streamJoin =>
    simp only [Operator.denote, lift₂, left_map_distinct, right_map_distinct]
    exact leftRows.join rightRows _
  case sum | atomicSum => exact sameRows_sum nonneg time

end

section

variable [Inhabited D] {tables : String → PortStream D} {clone : Clone (Annotated D)}
  {expected : List (PortStream D)} {node : Node (Annotated D)} {annotated : Annotated D}

omit [Inhabited D] in
/-- What the operands of a distinct are. -/
theorem distinctOperands_eq_some {atomic : Bool} {port : Nat}
    {sources : List Nat} (found : distinctOperands atomic clone port = some (annotated, sources)) :
    absorbsDistinct atomic annotated.operator = true ∧ ∃ inputs,
      inputs.mapM (streamDistinctInput clone) = some sources ∧
      clone.node? port = some ⟨annotated, inputs⟩ := by
  unfold distinctOperands at found
  split at found
  case h_1 below atPort =>
    split at found
    case isTrue absorbs =>
      obtain ⟨others, operands, same⟩ := map_eq_some_iff.mp found
      obtain ⟨rfl, rfl⟩ := Prod.mk.inj same
      exact ⟨absorbs, below.inputs, operands, atPort⟩
    case isFalse => simp at found
  case h_2 => simp at found

omit [Inhabited D] in
/-- Only maps, joins and sums are put below a distinct. -/
theorem absorbs_of_readsThrough {sources : List Nat}
    (through : readsThrough clone node = some (annotated, sources)) :
    absorbsDistinct true annotated.operator = true := by
  unfold readsThrough at through
  split at through
  case h_1 =>
    split at through
    case isTrue => simp at through
    case isFalse => exact (distinctOperands_eq_some through).1
  case h_2 isJoin _ =>
    split at through
    case h_1 =>
      obtain ⟨rfl, -⟩ := Prod.mk.inj (Option.some.inj through)
      simp [isJoin, absorbsDistinct]
    case h_2 => simp at through
  case h_3 => simp at through

/-- Where the distincts that a step reads through read no negative weight, all that matters is
that sets stay sets. -/
theorem harmless_iff_keepsSets (multisets : ReadsMultisets tables clone expected node) :
    Harmless tables clone expected node ↔ KeepsSets tables clone expected node := by
  refine ⟨fun harmless => harmless.toKeepsSets, fun keeps => ⟨keeps, ?_⟩⟩
  intro annotated sources through time key value
  have nonneg : ∀ input ∈ sources.map (carried tables clone), ∀ time, (input time).Nonneg := by
    simpa using multisets annotated sources through
  exact ((sameRows_denote nonneg time (absorbs_of_readsThrough through)).pos_iff key value).symm

/-- A step that replaces an operator by itself is harmless. -/
theorem harmless_of_readsThrough_eq_none (untouched : readsThrough clone node = none)
    (dropped : ∀ input, node.op.operator = .streamDistinct → node.inputs = [input] →
      isRedundant clone (clone.mapped input) = true → ∀ time, (read expected input time).IsSet) :
    Harmless tables clone expected node where
  dropped := dropped
  moved := by simp [untouched]
  sameRows := by simp [untouched]

omit [Inhabited D] in
/-- Two streams are made the same by `distinct` if they have the same positive rows. -/
theorem lift_distinct_eq_iff {first second : PortStream D} :
    lift IndexedZSet.distinct first = lift IndexedZSet.distinct second ↔
      ∀ time key value, 0 < (first time).weight key value ↔ 0 < (second time).weight key value := by
  simp only [funext_iff, lift, distinct_eq_distinct_iff]

variable (tracks : Clone.Tracks (Annotated.denote tables) clone expected [])

include tracks

/-- The port of a stream distinct computes the distinct of its input. -/
theorem value_of_streamDistinctInput {port source : Nat}
    (found : streamDistinctInput clone port = some source) :
    source < clone.nextPort ∧
      value (Annotated.denote tables) clone.graph.nodes port =
        lift IndexedZSet.distinct (value (Annotated.denote tables) clone.graph.nodes source) := by
  unfold streamDistinctInput at found
  split at found
  case h_1 _ _ _ isDistinct =>
    obtain ⟨others, rfl⟩ := List.head?_eq_some_iff.mp found
    refine ⟨tracks.inputs_lt isDistinct source (by simp), ?_⟩
    rw [tracks.value_of_node? isDistinct]
    rfl
  case h_2 => simp at found

/-- An operator is put below a new stream distinct. -/
theorem step_belowDistinct (below distinct : Annotated D) (sources : List Nat)
    (isDistinct : distinct.operator = .streamDistinct)
    (present : ∀ source ∈ sources, source < clone.nextPort)
    {harmless : Prop} {wanted : PortStream D}
    (judged : harmless ↔ lift IndexedZSet.distinct (below.denote tables
      (sources.map (carried tables clone))) = wanted) :
    StepsTo tables expected
      ((clone.addOperator below sources).addAndMap distinct [clone.nextPort]) harmless wanted := by
  have after : Clone.Tracks (Annotated.denote tables) (clone.addOperator below sources) expected [] :=
    tracks.addOperator present
  have new : carried tables (clone.addOperator below sources) clone.nextPort =
      below.denote tables (sources.map (carried tables clone)) :=
    Clone.value_addOperator_nextPort clone below sources
  refine ⟨_, after.addAndMap (by simp) ?_, judged⟩
  rw [List.map_singleton, Annotated.denote, isDistinct]
  exact congrArg (lift IndexedZSet.distinct) new

variable (earlier : ∀ input ∈ node.inputs, input < expected.length)

include earlier

/-- Replacing an operator keeps its value. -/
theorem step_replaceOperator {harmless : Prop} (holds : harmless) :
    StepsTo tables expected (replaceOperator clone node) harmless
      (node.op.denote tables (node.inputs.map (read expected))) :=
  ⟨_, tracks_replaceOperator tracks earlier, by simpa using holds⟩

/-- Visiting a stream distinct. -/
theorem step_visitDistinct (isDistinct : node.op.operator = .streamDistinct) :
    StepsTo tables expected (visitDistinct true clone node) (Harmless tables clone expected node)
      (node.op.denote tables (node.inputs.map (read expected))) := by
  unfold visitDistinct
  split
  case h_1 input single =>
    have inputLt := earlier input (by simp [single])
    have same := tracks.mapped_value input inputLt
    have distinct : node.op.denote tables (node.inputs.map (read expected)) =
        lift IndexedZSet.distinct (read expected input) := by
      rw [Annotated.denote, isDistinct, single]
      rfl
    have only : ∀ other, node.inputs = [other] → other = input := by
      intro other again
      rw [single] at again
      exact (List.singleton_inj.mp again).symm
    split
    case isTrue redundant =>
      refine ⟨_, tracks.map (tracks.mapped_lt input inputLt) same, ?_⟩
      rw [distinct]
      constructor
      · intro harmless
        funext time
        exact (distinct_eq_self_iff.mpr
          (harmless.dropped input isDistinct single redundant time)).symm
      · intro kept
        refine harmless_of_readsThrough_eq_none
          (by simp [readsThrough, isDistinct, single, redundant]) fun other _ again _ time => ?_
        rw [only other again]
        exact distinct_eq_self_iff.mp (congrFun kept time).symm
    case isFalse needed =>
      have through : readsThrough clone node = distinctOperands true clone (clone.mapped input) := by
        simp [readsThrough, isDistinct, single, needed]
      have dropped : ∀ other, node.op.operator = .streamDistinct → node.inputs = [other] →
          isRedundant clone (clone.mapped other) = true → ∀ time, (read expected other time).IsSet :=
        fun other _ again redundant => absurd (only other again ▸ redundant) needed
      split
      case h_1 annotated sources operands =>
        obtain ⟨-, inputs, found, atPort⟩ := distinctOperands_eq_some operands
        obtain ⟨present, inner⟩ :=
          map_of_mapM (fun _ _ found => value_of_streamDistinctInput tracks found) found
        refine step_belowDistinct tracks (withInputs clone annotated sources)
          (withInputs (clone.addOperator (withInputs clone annotated sources) sources) node.op
            [clone.nextPort]) sources isDistinct present ?_
        rw [distinct, ← same, tracks.value_of_node? atPort, inner, lift_distinct_eq_iff]
        constructor
        · exact fun harmless => harmless.sameRows annotated sources (through.trans operands)
        · refine fun rows => ⟨⟨dropped, fun _ isJoin => by simp [isDistinct] at isJoin⟩, ?_⟩
          intro other others found
          rw [through, operands] at found
          obtain ⟨rfl, rfl⟩ := Prod.mk.inj (Option.some.inj found)
          exact rows
      case h_2 untouched =>
        exact step_replaceOperator tracks earlier (harmless_of_readsThrough_eq_none
          (through.trans untouched) dropped)
  case h_2 several =>
    refine step_replaceOperator tracks earlier (harmless_of_readsThrough_eq_none ?_ ?_)
    · unfold readsThrough
      split
      case h_1 input _ single => exact absurd single (several input)
      case h_2 isJoin _ => simp [isDistinct] at isJoin
      case h_3 => rfl
    · exact fun input _ single => absurd single (several input)

/-- Visiting a filter. -/
theorem step_visitFilter {condition : D × D → Bool}
    (isFilter : node.op.operator = .filter condition) :
    StepsTo tables expected (visitFilter clone node) (Harmless tables clone expected node)
      (node.op.denote tables (node.inputs.map (read expected))) := by
  have harmless : Harmless tables clone expected node := harmless_of_readsThrough_eq_none
    (by simp [readsThrough, isFilter]) (by simp [isFilter])
  unfold visitFilter
  split
  case h_1 input single =>
    split
    case h_1 source found =>
      obtain ⟨present, same⟩ := value_of_streamDistinctInput tracks found
      refine step_belowDistinct tracks (withInputs clone node.op [source]) _ [source] rfl
        (by simpa using present) (iff_of_true harmless ?_)
      change lift IndexedZSet.distinct (node.op.operator.denote tables _) = _
      rw [Annotated.denote, isFilter, single, List.map_singleton, List.map_singleton,
        ← tracks.mapped_value input (earlier input (by simp [single])), same]
      exact funext fun time => distinct_filter condition _
    case h_2 => exact step_replaceOperator tracks earlier harmless
  case h_2 => exact step_replaceOperator tracks earlier harmless

/-- Visiting a join. -/
theorem step_visitJoin {function : D → D → D → D} (isJoin : node.op.operator = .streamJoin function) :
    StepsTo tables expected (visitJoin clone node) (Harmless tables clone expected node)
      (node.op.denote tables (node.inputs.map (read expected))) := by
  have dropped : ∀ input, node.op.operator = .streamDistinct → node.inputs = [input] →
      isRedundant clone (clone.mapped input) = true → ∀ time, (read expected input time).IsSet := by
    simp [isJoin]
  unfold visitJoin
  split
  case h_1 left right both =>
    split
    case h_1 newLeft newRight foundLeft foundRight =>
      have through : readsThrough clone node = some (node.op, [newLeft, newRight]) := by
        simp [readsThrough, isJoin, both, foundLeft, foundRight]
      obtain ⟨presentLeft, sameLeft⟩ := value_of_streamDistinctInput tracks foundLeft
      obtain ⟨presentRight, sameRight⟩ := value_of_streamDistinctInput tracks foundRight
      rw [tracks.mapped_value left (earlier left (by simp [both]))] at sameLeft
      rw [tracks.mapped_value right (earlier right (by simp [both]))] at sameRight
      have inner : node.inputs.map (read expected) = ([newLeft, newRight].map
          (carried tables clone)).map (lift IndexedZSet.distinct) := by
        rw [both]
        simp only [List.map_cons, sameLeft, sameRight]
        rfl
      refine step_belowDistinct tracks (withInputs clone node.op [newLeft, newRight]) _
        [newLeft, newRight] rfl (by simpa using ⟨presentLeft, presentRight⟩) ?_
      constructor
      · intro harmless
        have same := lift_distinct_eq_iff.mpr (harmless.sameRows _ _ through)
        rw [← inner] at same
        refine same.trans (funext fun time => distinct_eq_self_iff.mpr ?_)
        exact harmless.moved function isJoin (by simp [through]) time
      · intro kept
        have isSet : ∀ time, (node.op.denote tables (node.inputs.map (read expected)) time).IsSet :=
          fun time => by rw [← kept]; exact isSet_distinct _
        refine ⟨⟨dropped, fun _ _ _ => isSet⟩, fun annotated sources found => ?_⟩
        rw [through] at found
        obtain ⟨rfl, rfl⟩ := Prod.mk.inj (Option.some.inj found)
        rw [← lift_distinct_eq_iff, ← inner]
        exact kept.trans (funext fun time => (distinct_eq_self_iff.mpr (isSet time)).symm)
    case h_2 missing =>
      refine step_replaceOperator tracks earlier (harmless_of_readsThrough_eq_none ?_ dropped)
      simp only [readsThrough, isJoin, both]
  case h_2 several =>
    refine step_replaceOperator tracks earlier (harmless_of_readsThrough_eq_none ?_ dropped)
    unfold readsThrough
    split
    case h_1 isDistinct _ => simp [isJoin] at isDistinct
    case h_2 both => exact absurd both (several _ _)
    case h_3 => rfl

theorem step_visit (notIncremental : node.op.operator ≠ .distinct) :
    StepsTo tables expected (visit clone node) (Harmless tables clone expected node)
      (node.op.denote tables (node.inputs.map (read expected))) := by
  unfold visit
  split
  case h_1 isDistinct => exact step_visitDistinct tracks earlier isDistinct
  case h_2 isIncremental => exact absurd isIncremental notIncremental
  case h_3 isFilter => exact step_visitFilter tracks earlier isFilter
  case h_4 isJoin => exact step_visitJoin tracks earlier isJoin
  case h_5 notDistinct _ _ notJoin =>
    refine step_replaceOperator tracks earlier (harmless_of_readsThrough_eq_none ?_ ?_)
    · unfold readsThrough
      split
      case h_1 isDistinct _ => exact absurd isDistinct notDistinct
      case h_2 isJoin _ => exact absurd isJoin (notJoin _)
      case h_3 => rfl
    · exact fun _ isDistinct => absurd isDistinct notDistinct

omit earlier tracks

/-- What the steps of the visitor do to a circuit that is not incremental. -/
theorem judges : Clone.Judges (Annotated.denote tables) visit
    (fun _ _ node => node.op.operator ≠ .distinct) (Harmless tables) (fun _ => True) where
  extends_visit := extends_visit
  initial := trivial
  step _ _ _ tracks _ earlier notIncremental :=
    have ⟨result, after, judged⟩ := step_visit tracks earlier notIncremental
    ⟨result, after, trivial, judged⟩

end

end OpenDera.Compiler.OptimizeDistinctVisitor

namespace OpenDera.Compiler

open Dataflow

variable {D : Type*} [LinearOrder D]

/-- Operators that take changes to changes. -/
def Operator.isIncremental : Operator D → Bool
  | .join _ | .joinIndex _ | .antiJoin | .distinct | .aggregate _ | .starJoin _ | .starJoinIndex _
  | .leftJoin _ _ | .leftJoinIndex _ _ => true
  | _ => false

/-- The operators of a circuit before it is made incremental, with their multiset flags. -/
structure AnnotatedCircuit (D : Type*) [LinearOrder D] where
  nodes : List (Node (Annotated D))
  acyclic : Acyclic nodes
  nonIncremental : ∀ node ∈ nodes, node.op.operator.isIncremental = false

open OptimizeDistinctVisitor

/-- `OptimizeDistinctVisitor` on a whole circuit. -/
def optimizeDistinct (graph : Graph (Annotated D)) : Graph (Annotated D) :=
  Clone.run visit Clone.replaceSink graph

variable [Inhabited D]

/-- `PropagateEmptySources` on a whole circuit. -/
def propagateEmptySources (graph : Graph (Annotated D)) : Graph (Annotated D) :=
  Clone.run PropagateEmptySources.visit Clone.replaceSink graph

namespace AnnotatedCircuit

variable (circuit : AnnotatedCircuit D) (tables : String → PortStream D)

/-- A port that is not flagged as a multiset carries weights zero and one only. -/
def Truthful : Prop :=
  ∀ port node, circuit.nodes[port]? = some node → node.op.isMultiset = false →
    ∀ time, (value (Annotated.denote tables) circuit.nodes port time).IsSet

/-- The visitor keeps the output of every sink that can be put on the circuit. -/
def KeptByOptimizeDistinct : Prop :=
  ∀ sinks : List (String × Nat), (∀ sink ∈ sinks, sink.2 < circuit.nodes.length) →
    (optimizeDistinct ⟨circuit.nodes, sinks⟩).outputs (Annotated.denote tables) =
      (Dataflow.Graph.mk circuit.nodes sinks).outputs (Annotated.denote tables)

/-- `OptimizeDistinctVisitor` keeps what every possible sink observes exactly if all its steps
are harmless. -/
theorem keptByOptimizeDistinct_iff : circuit.KeptByOptimizeDistinct tables ↔
    Clone.Along (Annotated.denote tables) visit
      (OptimizeDistinctVisitor.Harmless tables) circuit.nodes := by
  refine judges.forall_sinks_iff circuit.acyclic ?_
  intro earlier node later split isDistinct
  have nonIncremental := circuit.nonIncremental node (by simp [split])
  simp [isDistinct, Operator.isIncremental] at nonIncremental

end AnnotatedCircuit

/-- `PropagateEmptySources` keeps what every sink observes, weight by weight. So does
`OptimizeDistinctVisitor` exactly if all its steps are harmless; where the distincts that its
steps read through read no negative weight, exactly if it drops no distinct of a port that
holds a row several times and moves no join below distinct that emits a row several times. -/
theorem keeps_multiplicities_iff (circuit : AnnotatedCircuit D) (tables : String → PortStream D) :
    (∀ sinks : List (String × Nat), (∀ sink ∈ sinks, sink.2 < circuit.nodes.length) →
      (propagateEmptySources ⟨circuit.nodes, sinks⟩).outputs (Annotated.denote tables) =
        (Dataflow.Graph.mk circuit.nodes sinks).outputs (Annotated.denote tables)) ∧
      (circuit.KeptByOptimizeDistinct tables ↔
        Clone.Along (Annotated.denote tables) OptimizeDistinctVisitor.visit
          (OptimizeDistinctVisitor.Harmless tables) circuit.nodes) ∧
      (Clone.Along (Annotated.denote tables) OptimizeDistinctVisitor.visit
          (OptimizeDistinctVisitor.ReadsMultisets tables) circuit.nodes →
        (circuit.KeptByOptimizeDistinct tables ↔
          Clone.Along (Annotated.denote tables) OptimizeDistinctVisitor.visit
            (OptimizeDistinctVisitor.KeepsSets tables) circuit.nodes)) := by
  refine ⟨fun sinks connected => ?_, circuit.keptByOptimizeDistinct_iff tables, fun multisets => ?_⟩
  · exact (Clone.run_replaceSink
      (fun _ _ _ _ tracks earlier => PropagateEmptySources.tracks_visit tracks earlier)
      ⟨circuit.acyclic, connected⟩).2
  · rw [circuit.keptByOptimizeDistinct_iff tables]
    have judged := fun earlier node later split =>
      OptimizeDistinctVisitor.harmless_iff_keepsSets (multisets earlier node later split)
    constructor
    · exact fun harmless earlier node later split =>
        (judged earlier node later split).mp (harmless earlier node later split)
    · exact fun keeps earlier node later split =>
        (judged earlier node later split).mpr (keeps earlier node later split)

/-- A table without key, grouped under one key and made distinct, is joined with itself by a
function that forgets both values. -/
def forgetfulJoin : AnnotatedCircuit ℕ where
  nodes :=
    [⟨⟨.sourceMultiset "T", true, none⟩, []⟩,
      ⟨⟨.mapIndex fun pair => (0, pair.1), true, none⟩, [0]⟩,
      ⟨⟨.streamDistinct, false, none⟩, [1]⟩,
      ⟨⟨.streamJoin fun _ _ _ => 0, true, none⟩, [2, 2]⟩]
  acyclic := by
    intro port node found
    match port, found with
    | 0, found | 1, found | 2, found | 3, found =>
      obtain rfl := Option.some.inj found
      simp
    | port + 4, found => simp at found
  nonIncremental := by simp [Operator.isIncremental]

/-- Two rows, at every step. -/
def twoRows : String → PortStream ℕ :=
  fun _ _ => IndexedZSet.ofTuples [((1, 0), 1), ((2, 0), 1)]

theorem nonneg_twoRows (table : String) (time : ℕ) : (twoRows table time).Nonneg :=
  IndexedZSet.nonneg_ofTuples (by simp)

/-- Its join emits the row 0 four times; moved below distinct it emits it once. -/
theorem forgetfulJoin_loses_rows :
    forgetfulJoin.Truthful twoRows ∧ (∀ table time, (twoRows table time).Nonneg) ∧
      (optimizeDistinct ⟨forgetfulJoin.nodes, [("V", 3)]⟩).outputs (Annotated.denote twoRows) ≠
        (Dataflow.Graph.mk forgetfulJoin.nodes [("V", 3)]).outputs (Annotated.denote twoRows) := by
  refine ⟨?_, nonneg_twoRows, ?_⟩
  · intro port node found notMultiset time
    match port, found with
    | 0, found | 1, found | 3, found =>
      obtain rfl := Option.some.inj found
      simp at notMultiset
    | 2, _ => exact IndexedZSet.isSet_distinct _
    | port + 4, found => simp [forgetfulJoin] at found
  · intro same
    have weights := congrArg (fun outputs => outputs.map fun output => (output.2 0).weight 0 0) same
    revert weights
    decide +kernel

end OpenDera.Compiler
