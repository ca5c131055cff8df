import Mathlib.Data.List.Dedup
import OpenDera.Std.Dependencies

/-!
# Circuit graphs and what the scheduler is prepared with

Operators are connected by stream edges and by plain dependency edges. A consumer
that strongly prefers to own a stream's value is scheduled after all the other
consumers of the stream; these ownership constraints are further edges, and a graph
that has a cycle with them is refused. What is left for the scheduler is a `Plan`: the
active nodes and the dependencies among them.
-/

namespace OpenDera

open List

/-- An operator of the circuit. -/
abbrev NodeId := Nat

/-- A stream of the circuit. -/
abbrev StreamId := Nat

/-- The path of a node from the root circuit. -/
abbrev GlobalNodeId := List NodeId

/-- How much a consumer gains from owning the value of a stream. -/
structure OwnershipPreference where
  raw : Nat
  deriving DecidableEq, Repr

/-- The preference from which on ownership is treated as a constraint. -/
def OwnershipPreference.stronglyPreferOwned : OwnershipPreference := ⟨100⟩

/-- An edge of the circuit; without a stream it is a dependency edge. -/
structure Edge where
  source : NodeId
  target : NodeId
  origin : GlobalNodeId
  stream : Option StreamId
  ownershipPreference : Option OwnershipPreference
  deriving DecidableEq, Repr

/-- What preparing or running a schedule can fail with. -/
inductive SchedulerError where
  | ownershipConflict (origin : GlobalNodeId) (consumers : List GlobalNodeId)
  | cyclicCircuit (node : GlobalNodeId)
  | commitWithoutTransaction
  | stepWithoutTransaction
  | killed
  | tokioError (error : String)
  | replayInfoConflict (error : String)
  deriving DecidableEq, Repr

/-- A circuit as the scheduler sees it. -/
structure Circuit where
  globalNodeId : GlobalNodeId
  nodeIds : List NodeId
  edges : List Edge
  isAsyncNode : NodeId → Bool

namespace Circuit

variable (circuit : Circuit)

/-- The path of a node of the circuit. -/
def childOf (node : NodeId) : GlobalNodeId :=
  circuit.globalNodeId ++ [node]

variable (origin : GlobalNodeId) (stream : StreamId)

/-- The consumers of a stream, with their preferences. -/
def consumers : List (NodeId × Option OwnershipPreference) :=
  circuit.edges.filterMap fun edge =>
    if edge.origin = origin ∧ edge.stream = some stream then
      some (edge.target, edge.ownershipPreference)
    else
      none

/-- A consumer that insists on owning the value. -/
def isStrong : Option OwnershipPreference → Bool
  | none => false
  | some preference => OwnershipPreference.stronglyPreferOwned.raw ≤ preference.raw

/-- The constraints of one stream: its other consumers come before the strong one. -/
def streamConstraints : Except SchedulerError (List (NodeId × NodeId)) :=
  let successors := (circuit.consumers origin stream).zipIdx
  match successors.filter fun entry => isStrong entry.1.2 with
  | [] => .ok []
  | [strong] => .ok <| successors.filterMap fun successor =>
    if successor.2 ≠ strong.2 ∧ successor.1.2.isSome then
      some (successor.1.1, strong.1.1)
    else
      none
  | conflict => .error <| .ownershipConflict origin <|
      conflict.map fun entry => circuit.childOf entry.1.1

/-- The streams of the circuit, with their origins. -/
def streams : List (GlobalNodeId × StreamId) :=
  (circuit.edges.filterMap fun edge => edge.stream.map fun stream => (edge.origin, stream)).dedup

/-- The edges that enforce ownership preferences. -/
def ownershipConstraints : Except SchedulerError (List (NodeId × NodeId)) :=
  (circuit.streams.mapM fun entry => circuit.streamConstraints entry.1 entry.2).map flatten

/-- The edges of the circuit graph. -/
def graphEdges : List (NodeId × NodeId) :=
  circuit.edges.map fun edge => (edge.source, edge.target)

/-- The nodes of a graph that has the given edges added. -/
def graphNodes (edges : List (NodeId × NodeId)) : List NodeId :=
  (circuit.nodeIds ++ edges.flatMap fun edge => [edge.1, edge.2]).dedup

/-- Walk backwards among nodes that all have a predecessor, until on a cycle. -/
def cycleNode (edges : List (NodeId × NodeId)) (remaining : List NodeId) : Nat → NodeId → NodeId
  | 0, node => node
  | steps + 1, node =>
    match (Dependencies.predecessors edges node).find? fun other => other ∈ remaining with
    | some other => cycleNode edges remaining steps other
    | none => node

end Circuit

/-- What the scheduler works with: the active nodes, the dependencies among them, and
which nodes are asynchronous. -/
structure Plan where
  nodes : List NodeId
  dependencies : List (NodeId × NodeId)
  isAsync : NodeId → Bool
  nodup : nodes.Nodup
  closed : ∀ edge ∈ dependencies, edge.1 ∈ nodes ∧ edge.2 ∈ nodes
  acyclic : Dependencies.Acyclic dependencies nodes

namespace Plan

/-- The nodes to be evaluated before `node`. -/
def predecessors (plan : Plan) (node : NodeId) : List NodeId :=
  Dependencies.predecessors plan.dependencies node

/-- The nodes to be evaluated after `node`. -/
def successors (plan : Plan) (node : NodeId) : List NodeId :=
  Dependencies.successors plan.dependencies node

theorem predecessor_mem {plan : Plan} {node other : NodeId} (before : other ∈ plan.predecessors node) :
    other ∈ plan.nodes :=
  (plan.closed _ (Dependencies.mem_predecessors.mp before)).1

theorem successor_mem {plan : Plan} {node other : NodeId} (after : other ∈ plan.successors node) :
    other ∈ plan.nodes :=
  (plan.closed _ (Dependencies.mem_successors.mp after)).2

end Plan

namespace Circuit

/-- The edges among active nodes. -/
def activeEdges (nodes : List NodeId) (edges : List (NodeId × NodeId)) : List (NodeId × NodeId) :=
  edges.filter fun edge => edge.2 ∈ nodes ∧ edge.1 ∈ nodes

variable (circuit : Circuit)

/-- The graph on all nodes, once it is known to have no cycle, restricted to the active
ones. -/
def planOf (nodes : List NodeId) (edges : List (NodeId × NodeId))
    (peeled : Dependencies.peel edges (circuit.graphNodes edges).length (circuit.graphNodes edges) = []) :
    Plan where
  nodes := nodes.dedup
  dependencies := activeEdges nodes.dedup edges
  isAsync := circuit.isAsyncNode
  nodup := nodup_dedup nodes
  closed := fun _ member => (of_decide_eq_true (mem_filter.mp member).2).symm
  acyclic := by
    refine ((Dependencies.peel_eq_nil_iff _ _).mp peeled).restrict ?_
      (fun _ member => (mem_filter.mp member).1) _
    intro edge member
    simp only [graphNodes, mem_dedup, mem_append, mem_flatMap]
    exact ⟨.inr ⟨edge, member, by simp⟩, .inr ⟨edge, member, by simp⟩⟩

/-- Check the circuit and restrict it to the active nodes. -/
def prepare (activeNodes : Option (List NodeId)) : Except SchedulerError Plan := do
  let extraConstraints ← circuit.ownershipConstraints
  let edges := circuit.graphEdges ++ extraConstraints
  let graphNodes := circuit.graphNodes edges
  let remaining := Dependencies.peel edges graphNodes.length graphNodes
  if peeled : remaining = [] then
    return circuit.planOf (activeNodes.getD circuit.nodeIds) edges peeled
  else
    throw (.cyclicCircuit
      (circuit.childOf (cycleNode edges remaining remaining.length (remaining.headD 0))))

/-- A prepared plan has the active nodes, and every edge and every ownership constraint
among them is a dependency. -/
theorem prepare_spec {circuit : Circuit} {activeNodes : Option (List NodeId)} {plan : Plan}
    (prepared : circuit.prepare activeNodes = .ok plan) :
    (∀ node, node ∈ plan.nodes ↔ node ∈ activeNodes.getD circuit.nodeIds) ∧
      plan.isAsync = circuit.isAsyncNode ∧
      ∃ constraints, circuit.ownershipConstraints = .ok constraints ∧
        ∀ earlier later, earlier ∈ plan.predecessors later ↔
          (earlier, later) ∈ circuit.graphEdges ++ constraints ∧
            earlier ∈ plan.nodes ∧ later ∈ plan.nodes := by
  unfold prepare at prepared
  cases computed : circuit.ownershipConstraints with
  | error =>
    rw [computed] at prepared
    cases prepared
  | ok constraints =>
    rw [computed] at prepared
    simp only [bind, Except.bind] at prepared
    split at prepared
    · cases prepared
      refine ⟨fun node => mem_dedup, rfl, constraints, rfl, fun earlier later => ?_⟩
      simp only [Plan.predecessors, Dependencies.mem_predecessors, planOf, activeEdges,
        mem_filter, decide_eq_true_eq]
      exact and_congr_right fun _ => and_comm
    · cases prepared

end Circuit

end OpenDera
