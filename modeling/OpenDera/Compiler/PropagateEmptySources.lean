import OpenDera.Compiler.Operator

/-!
# Removing operators on empty sources

`PropagateEmptySources` replaces operators that read a constant empty collection: by an
empty constant where nothing can come out, by another input where the empty one adds or
removes nothing, and a left join whose right side is empty by a map.
-/

namespace OpenDera.Compiler.PropagateEmptySources

open Dataflow StreamCalculus Annotated List IndexedZSet

variable {D : Type*} [LinearOrder D] (clone : Clone (Annotated D))

/-- The port of the new circuit is an empty constant. -/
def isEmptySource (port : Nat) : Bool := match clone.node? port with
  | some ⟨⟨.constant value, _, _⟩, _⟩ => value = 0
  | _ => false

variable (node : Node (Annotated D))

/-- Replace a node by an empty constant. -/
def replaceByEmpty : Clone (Annotated D) :=
  clone.addAndMap { operator := .constant 0, isMultiset := node.op.isMultiset } []

/-- Visit an operator that produces nothing from nothing. -/
def replaceUnary : Clone (Annotated D) :=
  match node.inputs with
  | [input] =>
    if isEmptySource clone (clone.mapped input) then replaceByEmpty clone node
    else replaceOperator clone node
  | _ => replaceOperator clone node

/-- Visit a sum: empty inputs are dropped, and a single remaining input replaces it. -/
def visitSum : Clone (Annotated D) :=
  match (node.inputs.map clone.mapped).filter fun source => !isEmptySource clone source with
  | [] => replaceByEmpty clone node
  | [source] => clone.map source
  | sources =>
    if sources.length < node.inputs.length then
      clone.addAndMap (withInputs clone node.op sources) sources
    else replaceOperator clone node

/-- Visit an atomic sum: it is kept even for one input. -/
def visitAtomicSum : Clone (Annotated D) :=
  match (node.inputs.map clone.mapped).filter fun source => !isEmptySource clone source with
  | [] => replaceByEmpty clone node
  | sources =>
    if sources.length < node.inputs.length then
      clone.addAndMap (withInputs clone node.op sources) sources
    else replaceOperator clone node

/-- Visit a difference. -/
def visitSubtract : Clone (Annotated D) :=
  match node.inputs with
  | [left, right] =>
    if isEmptySource clone (clone.mapped right) then
      if isEmptySource clone (clone.mapped left) then replaceByEmpty clone node
      else clone.map (clone.mapped left)
    else replaceOperator clone node
  | _ => replaceOperator clone node

/-- Visit a join: nothing comes out if any input is empty. -/
def visitJoin : Clone (Annotated D) :=
  if node.inputs.any fun input => isEmptySource clone (clone.mapped input) then
    replaceByEmpty clone node
  else replaceOperator clone node

/-- Visit a join of two inputs. -/
def visitBinaryJoin : Clone (Annotated D) :=
  match node.inputs with
  | [_, _] => visitJoin clone node
  | _ => replaceOperator clone node

/-- Visit a left join: without a right side it is a map. -/
def visitLeftJoin [Inhabited D] (function : D → D → D → D) (absent : D)
    (clone : Clone (Annotated D)) (node : Node (Annotated D)) : Clone (Annotated D) :=
  match node.inputs with
  | [left, right] =>
    if isEmptySource clone (clone.mapped left) then replaceByEmpty clone node
    else if isEmptySource clone (clone.mapped right) then
      clone.addAndMap
        { operator := .map fun pair => function pair.1 pair.2 absent, isMultiset := true }
        [clone.mapped left]
    else replaceOperator clone node
  | _ => replaceOperator clone node

/-- Visit a left join with an indexed result: only an empty left side is noticed. -/
def visitLeftJoinIndex : Clone (Annotated D) :=
  match node.inputs with
  | [left, _] =>
    if isEmptySource clone (clone.mapped left) then replaceByEmpty clone node
    else replaceOperator clone node
  | _ => replaceOperator clone node

/-- Visit an anti-join: without a right side it is its left input. -/
def visitStreamAntiJoin : Clone (Annotated D) :=
  match node.inputs with
  | [left, right] =>
    if isEmptySource clone (clone.mapped left) then replaceByEmpty clone node
    else if isEmptySource clone (clone.mapped right) then clone.map (clone.mapped left)
    else replaceOperator clone node
  | _ => replaceOperator clone node

/-- Visit one node. -/
def visit [Inhabited D] (clone : Clone (Annotated D)) (node : Node (Annotated D)) :
    Clone (Annotated D) :=
  match node.op.operator with
  | .map _ | .mapIndex _ | .streamAggregate _ | .aggregate _ | .distinct | .filter _ | .negate
  | .integrate | .differentiate _ | .streamDistinct | .noop | .view => replaceUnary clone node
  | .sum => visitSum clone node
  | .atomicSum => visitAtomicSum clone node
  | .subtract => visitSubtract clone node
  | .streamJoin _ | .streamJoinIndex _ | .join _ => visitBinaryJoin clone node
  | .starJoin _ | .starJoinIndex _ => visitJoin clone node
  | .leftJoin function absent => visitLeftJoin function absent clone node
  | .leftJoinIndex _ _ => visitLeftJoinIndex clone node
  | .streamAntiJoin => visitStreamAntiJoin clone node
  | _ => replaceOperator clone node

section

variable [Inhabited D] {tables : String → PortStream D} {clone}
  {expected : List (PortStream D)} {observed : List (String × PortStream D)}
  {node}
  (tracks : Clone.Tracks (denote tables) clone expected observed)

include tracks

/-- Nothing ever comes from an empty source. -/
theorem value_of_isEmptySource {port : Nat} (empty : isEmptySource clone port = true) :
    value (denote tables) clone.graph.nodes port = 0 := by
  unfold isEmptySource at empty
  split at empty
  case h_1 _ _ _ _ found =>
    obtain rfl := of_decide_eq_true empty
    rw [tracks.value_of_node? found]
    rfl
  case h_2 => simp at empty

variable {input : Nat}

theorem read_of_isEmptySource (earlier : input < expected.length)
    (empty : isEmptySource clone (clone.mapped input) = true) : read expected input = 0 := by
  rw [← tracks.mapped_value input earlier, value_of_isEmptySource tracks empty]

/-- The inputs that are not empty add up to the same. -/
theorem sum_filter_nonempty (sources : List Nat) :
    ((sources.filter fun source => !isEmptySource clone source).map
      (value (denote tables) clone.graph.nodes)).sum =
      (sources.map (value (denote tables) clone.graph.nodes)).sum := by
  induction sources with
  | nil => rfl
  | cons source _ ih =>
    rw [filter_cons, map_cons, sum_cons, ← ih]
    by_cases empty : isEmptySource clone source = true
    · simp [empty, value_of_isEmptySource tracks empty]
    · simp [empty]

theorem tracks_replaceByEmpty {result : PortStream D} (nothing : result = 0) :
    Clone.Tracks (denote tables) (replaceByEmpty clone node) (expected ++ [result])
      observed :=
  tracks.addAndMap (by simp) (by rw [nothing]; rfl)

variable (earlier : ∀ input ∈ node.inputs, input < expected.length)

include earlier

variable {others : List Nat}

/-- An operator that produces nothing from an empty first input. -/
theorem tracks_replaceByEmpty_first (inputs : node.inputs = input :: others)
    (empty : isEmptySource clone (clone.mapped input) = true)
    (strict : node.op.operator.denote tables (0 :: others.map (read expected)) = 0) :
    Clone.TracksNode (denote tables) (replaceByEmpty clone node) expected observed node := by
  refine tracks_replaceByEmpty tracks ?_
  rw [inputs, map_cons, read_of_isEmptySource tracks (earlier input (by simp [inputs])) empty]
  exact strict

/-- A node that is replaced by its first input. -/
theorem tracks_map_first (inputs : node.inputs = input :: others)
    (same : node.op.denote tables (node.inputs.map (read expected)) = read expected input) :
    Clone.TracksNode (denote tables) (clone.map (clone.mapped input)) expected observed node := by
  have inputLt := earlier input (by simp [inputs])
  exact tracks.map (tracks.mapped_lt input inputLt) ((tracks.mapped_value input inputLt).trans same.symm)

theorem tracks_replaceUnary (strict : node.op.operator.denote tables [0] = 0) :
    Clone.TracksNode (denote tables) (replaceUnary clone node) expected observed node := by
  unfold replaceUnary
  split
  case h_1 _ single =>
    split
    case isTrue empty => exact tracks_replaceByEmpty_first tracks earlier single empty strict
    case isFalse => exact tracks_replaceOperator tracks earlier
  case h_2 => exact tracks_replaceOperator tracks earlier

/-- A sum on the inputs that are not empty. -/
theorem denote_nonempty (annotated : Annotated D)
    (sums : ∀ inputs, annotated.operator.denote tables inputs = inputs.sum) {sources : List Nat}
    (kept : (node.inputs.map clone.mapped).filter (fun source => !isEmptySource clone source) =
      sources) :
    annotated.denote tables (sources.map (value (denote tables) clone.graph.nodes)) =
      annotated.denote tables (node.inputs.map (read expected)) := by
  rw [denote, denote, sums, sums, ← kept, sum_filter_nonempty tracks, tracks.map_mapped earlier]

theorem sources_lt {sources : List Nat}
    (kept : (node.inputs.map clone.mapped).filter (fun source => !isEmptySource clone source) =
      sources) : ∀ source ∈ sources, source < clone.nextPort := by
  intro source member
  rw [← kept] at member
  exact tracks.map_mapped_lt earlier source (mem_of_mem_filter member)

section

variable (sums : ∀ inputs, node.op.operator.denote tables inputs = inputs.sum)

include sums

theorem tracks_visitAtomicSum :
    Clone.TracksNode (denote tables) (visitAtomicSum clone node) expected observed node := by
  unfold visitAtomicSum
  split
  case h_1 kept =>
    refine tracks_replaceByEmpty tracks ?_
    rw [← denote_nonempty tracks earlier node.op sums kept]
    exact sums []
  case h_2 =>
    split
    case isTrue =>
      exact tracks.addAndMap (sources_lt tracks earlier rfl)
        (denote_nonempty tracks earlier node.op sums rfl)
    case isFalse => exact tracks_replaceOperator tracks earlier

/-- A sum differs from an atomic sum only for one remaining input. -/
theorem tracks_visitSum :
    Clone.TracksNode (denote tables) (visitSum clone node) expected observed node := by
  have atomic := tracks_visitAtomicSum tracks earlier sums
  unfold visitSum
  unfold visitAtomicSum at atomic
  split
  case h_1 kept => simpa only [kept] using atomic
  case h_2 source kept =>
    refine tracks.map (sources_lt tracks earlier kept source (by simp)) ?_
    rw [← denote_nonempty tracks earlier node.op sums kept, denote, sums]
    simp
  case h_3 => simpa using atomic

end

theorem tracks_visitSubtract (isSubtract : node.op.operator = .subtract) :
    Clone.TracksNode (denote tables) (visitSubtract clone node) expected observed node := by
  unfold visitSubtract
  split
  case h_1 _ right both =>
    split
    case isTrue emptyRight =>
      have nothing := read_of_isEmptySource tracks (earlier right (by simp [both])) emptyRight
      split
      case isTrue emptyLeft =>
        refine tracks_replaceByEmpty_first tracks earlier both emptyLeft ?_
        rw [isSubtract, map_singleton, nothing]
        exact sub_zero 0
      case isFalse =>
        refine tracks_map_first tracks earlier both ?_
        rw [denote, isSubtract, both, map_cons, map_singleton, nothing]
        exact sub_zero _
    case isFalse => exact tracks_replaceOperator tracks earlier
  case h_2 => exact tracks_replaceOperator tracks earlier

omit [Inhabited D] tracks earlier in
/-- An operator that produces nothing if some input is empty. -/
theorem incrementalAll_eq_zero {operator : List (Collection D) → Collection D}
    (strict : ∀ collections, 0 ∈ collections → operator collections = 0)
    {inputs : List (PortStream D)} (member : 0 ∈ inputs) : incrementalAll operator inputs = 0 := by
  have nothing : (fun time => operator (inputs.map fun input => integrate input time)) =
      (0 : PortStream D) := by
    funext time
    refine strict _ (mem_map.mpr ⟨0, member, ?_⟩)
    rw [integrate_zero]
    rfl
  rw [incrementalAll, nothing, differentiate_zero]

theorem tracks_visitJoin (strict : 0 ∈ node.inputs.map (read expected) →
      node.op.operator.denote tables (node.inputs.map (read expected)) = 0) :
    Clone.TracksNode (denote tables) (visitJoin clone node) expected observed node := by
  unfold visitJoin
  split
  case isTrue some =>
    obtain ⟨input, member, empty⟩ := any_eq_true.mp some
    refine tracks_replaceByEmpty tracks (strict ?_)
    exact mem_map.mpr ⟨input, member,
      read_of_isEmptySource tracks (earlier input member) empty⟩
  case isFalse => exact tracks_replaceOperator tracks earlier

theorem tracks_visitBinaryJoin (zeroLeft : ∀ stream, node.op.operator.denote tables [0, stream] = 0)
    (zeroRight : ∀ stream, node.op.operator.denote tables [stream, 0] = 0) :
    Clone.TracksNode (denote tables) (visitBinaryJoin clone node) expected observed node := by
  unfold visitBinaryJoin
  split
  case h_1 _ _ both =>
    refine tracks_visitJoin tracks earlier fun member => ?_
    rw [both] at member ⊢
    simp only [map_cons, map_nil, mem_cons, not_mem_nil, or_false] at member ⊢
    rcases member with none | none
    · rw [← none, zeroLeft]
    · rw [← none, zeroRight]
  case h_2 => exact tracks_replaceOperator tracks earlier

theorem tracks_visitLeftJoin {function : D → D → D → D} {absent : D}
    (isLeftJoin : node.op.operator = .leftJoin function absent) :
    Clone.TracksNode (denote tables) (visitLeftJoin function absent clone node)
      expected observed node := by
  unfold visitLeftJoin
  split
  case h_1 left right both =>
    split
    case isTrue emptyLeft =>
      refine tracks_replaceByEmpty_first tracks earlier both emptyLeft ?_
      rw [isLeftJoin]
      exact incremental₂_zero_left (fun _ => rfl) _
    case isFalse =>
      have leftLt := earlier left (by simp [both])
      split
      case isTrue emptyRight =>
        refine tracks.addAndMap (by simpa using tracks.mapped_lt left leftLt) ?_
        rw [map_singleton, tracks.mapped_value left leftLt, denote, denote,
          isLeftJoin, both, map_cons, map_cons,
          read_of_isEmptySource tracks (earlier right (by simp [both])) emptyRight]
        exact (incremental₂_zero_right
          (leftJoin_zero_right (fun key first second => asRow (function key first second))
            absent) (flatMap_add _) _).symm
      case isFalse => exact tracks_replaceOperator tracks earlier
  case h_2 => exact tracks_replaceOperator tracks earlier

theorem tracks_visitLeftJoinIndex {function : D → D → D → D × D} {absent : D}
    (isLeftJoin : node.op.operator = .leftJoinIndex function absent) :
    Clone.TracksNode (denote tables) (visitLeftJoinIndex clone node) expected observed node := by
  unfold visitLeftJoinIndex
  split
  case h_1 _ _ both =>
    split
    case isTrue emptyLeft =>
      refine tracks_replaceByEmpty_first tracks earlier both emptyLeft ?_
      rw [isLeftJoin]
      exact incremental₂_zero_left (fun _ => rfl) _
    case isFalse => exact tracks_replaceOperator tracks earlier
  case h_2 => exact tracks_replaceOperator tracks earlier

theorem tracks_visitStreamAntiJoin (isAntiJoin : node.op.operator = .streamAntiJoin) :
    Clone.TracksNode (denote tables) (visitStreamAntiJoin clone node) expected observed node := by
  unfold visitStreamAntiJoin
  split
  case h_1 _ right both =>
    split
    case isTrue emptyLeft =>
      refine tracks_replaceByEmpty_first tracks earlier both emptyLeft ?_
      rw [isAntiJoin]
      exact funext fun time => antiJoin_zero_left _
    case isFalse =>
      split
      case isTrue emptyRight =>
        refine tracks_map_first tracks earlier both ?_
        rw [denote, isAntiJoin, both, map_cons, map_singleton,
          read_of_isEmptySource tracks (earlier right (by simp [both])) emptyRight]
        exact funext fun time => antiJoin_zero_right _
      case isFalse => exact tracks_replaceOperator tracks earlier
  case h_2 => exact tracks_replaceOperator tracks earlier

theorem tracks_visit :
    Clone.TracksNode (denote tables) (visit clone node) expected observed node := by
  cases defined : node.op.operator <;> simp only [visit, defined]
  case map function | mapIndex function | filter condition =>
    refine tracks_replaceUnary tracks earlier ?_
    rw [defined]
    exact lift_zero (flatMap_zero _)
  case streamDistinct | streamAggregate aggregator =>
    refine tracks_replaceUnary tracks earlier ?_
    rw [defined]
    exact lift_zero rfl
  case distinct | aggregate aggregator =>
    refine tracks_replaceUnary tracks earlier ?_
    rw [defined, Operator.denote, left_singleton, incremental, integrate_zero, lift_zero rfl,
      differentiate_zero]
  case negate | noop | view | integrate | differentiate noInc =>
    refine tracks_replaceUnary tracks earlier ?_
    simp [defined, Operator.denote, left_singleton, integrate_zero, differentiate_zero]
  case sum => exact tracks_visitSum tracks earlier fun inputs => by rw [defined]; rfl
  case atomicSum => exact tracks_visitAtomicSum tracks earlier fun inputs => by rw [defined]; rfl
  case subtract => exact tracks_visitSubtract tracks earlier defined
  case leftJoin => exact tracks_visitLeftJoin tracks earlier defined
  case leftJoinIndex => exact tracks_visitLeftJoinIndex tracks earlier defined
  case streamAntiJoin => exact tracks_visitStreamAntiJoin tracks earlier defined
  case starJoin function | starJoinIndex function =>
    refine tracks_visitJoin tracks earlier fun member => ?_
    rw [defined]
    exact incrementalAll_eq_zero (fun _ => joinAll_eq_zero _) member
  case streamJoin function =>
    refine tracks_visitBinaryJoin tracks earlier (fun stream => ?_) fun stream => ?_ <;> rw [defined]
    · rfl
    · exact lift₂_zero_right (joinRows_zero_right function) stream
  case streamJoinIndex =>
    refine tracks_visitBinaryJoin tracks earlier (fun stream => ?_) fun stream => ?_ <;> rw [defined]
    · rfl
    · exact lift₂_zero_right (join_zero_right _) stream
  case join function =>
    refine tracks_visitBinaryJoin tracks earlier (fun stream => ?_) fun stream => ?_ <;> rw [defined]
    · exact incremental₂_zero_left (fun _ => rfl) stream
    · exact incremental₂_zero_right (joinRows_zero_right function)
        (fun _ _ => (add_zero 0).symm) stream
  all_goals exact tracks_replaceOperator tracks earlier

end

end OpenDera.Compiler.PropagateEmptySources
