import Mathlib.Data.List.Induction

/-!
# Dataflow graphs and their rewriting

A dataflow graph lists its nodes in topological order: an operator and the earlier
nodes it reads. Sinks name nodes whose values are observed. Given the meaning of
every operator, the value of every node is computed from left to right.

A rewriting pass clones a graph node by node. It appends nodes to the graph under
construction and records for every visited node which new node replaces it. `Tracks`
says that the replacements carry the expected values; it survives appending nodes, so
a pass is correct as soon as each of its steps is, and `run_outputs` concludes that
about whole graphs.
-/

namespace Dataflow

open List

/-- An operator and the nodes it reads. -/
structure Node (Op : Type*) where
  op : Op
  inputs : List Nat

/-- Nodes in topological order and the named nodes that are observed. -/
structure Graph (Op : Type*) where
  nodes : List (Node Op) := []
  sinks : List (String × Nat) := []

variable {Op V : Type*}

/-- Every node reads only earlier nodes. -/
def Acyclic (nodes : List (Node Op)) : Prop :=
  ∀ (port : Nat) (node : Node Op), nodes[port]? = some node → ∀ input ∈ node.inputs, input < port

/-- Nodes read earlier nodes, and sinks read nodes of the graph. -/
structure Graph.WellFormed (graph : Graph Op) : Prop where
  acyclic : Acyclic graph.nodes
  connected : ∀ sink ∈ graph.sinks, sink.2 < graph.nodes.length

/-- The value of a port among the values computed so far. -/
def read [Inhabited V] (values : List V) (port : Nat) : V :=
  values.getD port default

/-- The values of all nodes, computed in order. -/
def values [Inhabited V] (denote : Op → List V → V) (nodes : List (Node Op)) : List V :=
  nodes.foldl (fun values node => values ++ [denote node.op (node.inputs.map (read values))]) []

/-- The value of one node. -/
def value [Inhabited V] (denote : Op → List V → V) (nodes : List (Node Op)) (port : Nat) : V :=
  read (values denote nodes) port

/-- What the sinks observe. -/
def Graph.outputs [Inhabited V] (denote : Op → List V → V) (graph : Graph Op) : List (String × V) :=
  graph.sinks.map fun sink => (sink.1, value denote graph.nodes sink.2)

section

variable [Inhabited V] {denote : Op → List V → V} {port : Nat}

theorem read_append_of_lt {values more : List V} (present : port < values.length) :
    read (values ++ more) port = read values port := by
  simp [read, getD_eq_getElem?_getD, getElem?_append_left present]

theorem read_concat (values : List V) (last : V) :
    read (values ++ [last]) values.length = last := by
  simp [read]

variable (nodes : List (Node Op))

theorem values_concat (node : Node Op) : values denote (nodes ++ [node]) =
      values denote nodes ++ [denote node.op (node.inputs.map (value denote nodes))] := by
  simp only [values, foldl_append, foldl_cons, foldl_nil]
  rfl

@[simp] theorem length_values : (values denote nodes).length = nodes.length := by
  induction nodes using reverseRecOn with
  | nil => rfl
  | append_singleton _ _ ih =>
    rw [values_concat, length_append, ih, length_append]
    rfl

variable {nodes} {node : Node Op}

/-- Nodes that come later do not change a value. -/
theorem value_concat_of_lt (present : port < nodes.length) :
    value denote (nodes ++ [node]) port = value denote nodes port := by
  rw [value, values_concat, read_append_of_lt (by simpa using present), value]

theorem value_concat_length (nodes : List (Node Op)) (node : Node Op) :
    value denote (nodes ++ [node]) nodes.length =
      denote node.op (node.inputs.map (value denote nodes)) := by
  have length : nodes.length = (values denote nodes).length := by simp
  rw [value, values_concat, length, read_concat]

theorem acyclic_nil : Acyclic ([] : List (Node Op)) := by
  simp [Acyclic]

theorem acyclic_concat_iff : Acyclic (nodes ++ [node]) ↔
      Acyclic nodes ∧ ∀ input ∈ node.inputs, input < nodes.length := by
  constructor
  · intro acyclic
    refine ⟨?_, ?_⟩
    · intro port other found
      have present := (List.getElem?_eq_some_iff.mp found).1
      exact acyclic port other (by rw [getElem?_append_left present, found])
    · exact acyclic nodes.length node (by simp)
  · rintro ⟨acyclic, inputs⟩ port other found
    rcases Nat.lt_or_ge port nodes.length with present | beyond
    · rw [getElem?_append_left present] at found
      exact acyclic port other found
    · rw [getElem?_append_right beyond] at found
      obtain ⟨here, same⟩ := List.getElem?_eq_some_iff.mp found
      have last : port = nodes.length := by simp at here; omega
      subst last
      simp only [Nat.sub_self, getElem_cons_zero] at same
      exact same ▸ inputs

/-- In a graph without cycles a node's value is its operator's result on the values of the
nodes it reads. -/
theorem value_of_getElem? (acyclic : Acyclic nodes) (found : nodes[port]? = some node) :
    value denote nodes port = denote node.op (node.inputs.map (value denote nodes)) := by
  induction nodes using reverseRecOn with
  | nil => simp at found
  | append_singleton nodes _ ih =>
    obtain ⟨earlier, inputs⟩ := acyclic_concat_iff.mp acyclic
    rcases Nat.lt_or_ge port nodes.length with present | beyond
    · rw [getElem?_append_left present] at found
      rw [value_concat_of_lt present, ih earlier found]
      congr 1
      refine map_congr_left fun input member => ?_
      rw [value_concat_of_lt (Nat.lt_trans (earlier port node found input member) present)]
    · rw [getElem?_append_right beyond] at found
      obtain ⟨here, same⟩ := List.getElem?_eq_some_iff.mp found
      have atEnd : port = nodes.length := by simp at here; omega
      subst atEnd
      simp only [Nat.sub_self, getElem_cons_zero] at same
      subst same
      rw [value_concat_length]
      congr 1
      refine map_congr_left fun input member => ?_
      rw [value_concat_of_lt (inputs input member)]

omit [Inhabited V] in
/-- If every input is computed by one function from some port, then all of them are. -/
theorem map_of_mapM {lookup : Nat → Option Nat} {before after : Nat → V}
    {function : V → V} {property : Nat → Prop}
    (spec : ∀ input source, lookup input = some source →
      property source ∧ before input = function (after source))
    {inputs sources : List Nat} (found : inputs.mapM lookup = some sources) :
    (∀ source ∈ sources, property source) ∧
      inputs.map before = (sources.map after).map function := by
  induction inputs generalizing sources with
  | nil =>
    obtain rfl : [] = sources := by simpa using found
    simp
  | cons input _ ih =>
    simp only [mapM_cons, Option.bind_eq_bind, Option.bind_eq_some_iff, Option.pure_def,
      Option.some.injEq] at found
    obtain ⟨source, here, others, rest, rfl⟩ := found
    obtain ⟨present, same⟩ := spec input source here
    obtain ⟨presentRest, sameRest⟩ := ih rest
    refine ⟨by simpa using ⟨present, presentRest⟩, ?_⟩
    rw [map_cons, same, sameRest]
    rfl

end

/-- A graph under construction and the new node that replaces each visited node. -/
structure Clone (Op : Type*) where
  graph : Graph Op := {}
  remap : List Nat := []

namespace Clone

variable (clone : Clone Op) (port : Nat)

/-- The new node that replaces an old one. -/
def mapped : Nat :=
  clone.remap.getD port 0

/-- The node at a port of the new graph. -/
def node? : Option (Node Op) :=
  clone.graph.nodes[port]?

/-- The port of the next node that is added. -/
def nextPort : Nat :=
  clone.graph.nodes.length

/-- Add an operator to the new graph. -/
def addOperator (op : Op) (inputs : List Nat) : Clone Op :=
  { clone with graph := { clone.graph with nodes := clone.graph.nodes ++ [⟨op, inputs⟩] } }

/-- The node visited now is replaced by the one at `port`. -/
def map : Clone Op :=
  { clone with remap := clone.remap ++ [port] }

/-- Add an operator and let it replace the node visited now. -/
def addAndMap (op : Op) (inputs : List Nat) : Clone Op :=
  (clone.addOperator op inputs).map clone.nextPort

/-- Replace the node by the same operator on the replaced inputs. -/
def replace (node : Node Op) : Clone Op :=
  clone.addAndMap node.op (node.inputs.map clone.mapped)

/-- Add a sink that reads the node at `port` of the new graph. -/
def addSink (name : String) (port : Nat) : Clone Op :=
  { clone with graph := { clone.graph with sinks := clone.graph.sinks ++ [(name, port)] } }

/-- Replace a sink by one on the replaced input. -/
def replaceSink (sink : String × Nat) : Clone Op :=
  clone.addSink sink.1 (clone.mapped sink.2)

/-- Clone a graph, visiting the nodes in order and then the sinks. -/
def run (visit : Clone Op → Node Op → Clone Op) (visitSink : Clone Op → String × Nat → Clone Op)
    (graph : Graph Op) : Graph Op :=
  (graph.sinks.foldl visitSink (graph.nodes.foldl visit {})).graph

variable [Inhabited V] (denote : Op → List V → V)

/-- The replacements of the visited nodes carry the expected values, and the sinks added so
far observe `observed`. -/
structure Tracks (clone : Clone Op) (expected : List V) (observed : List (String × V)) : Prop where
  wellFormed : clone.graph.WellFormed
  visited : clone.remap.length = expected.length
  mapped_lt : ∀ port < expected.length, clone.mapped port < clone.nextPort
  mapped_value : ∀ port < expected.length,
    value denote clone.graph.nodes (clone.mapped port) = read expected port
  outputs : clone.graph.outputs denote = observed

/-- The clone tracks a node more, which computes what it computed in the old graph. -/
abbrev TracksNode (clone : Clone Op) (expected : List V)
    (observed : List (String × V)) (node : Node Op) : Prop :=
  Tracks denote clone (expected ++ [denote node.op (node.inputs.map (read expected))]) observed

variable {denote} {clone} {expected : List V} {observed : List (String × V)}

theorem tracks_empty : Tracks denote ({} : Clone Op) [] [] where
  wellFormed := ⟨acyclic_nil, by simp⟩
  visited := rfl
  mapped_lt := by simp
  mapped_value := by simp
  outputs := rfl

variable {inputs : List Nat} (tracks : Tracks denote clone expected observed)

include tracks

section

variable (earlier : ∀ input ∈ inputs, input < expected.length)

include earlier

/-- The values the new graph gives the replaced inputs of a node. -/
theorem Tracks.map_mapped : (inputs.map clone.mapped).map (value denote clone.graph.nodes) =
      inputs.map (read expected) := by
  rw [map_map]
  exact map_congr_left fun input member => tracks.mapped_value input (earlier input member)

theorem Tracks.map_mapped_lt : ∀ input ∈ inputs.map clone.mapped, input < clone.nextPort := by
  intro port member
  obtain ⟨input, inputMember, rfl⟩ := mem_map.mp member
  exact tracks.mapped_lt input (earlier input inputMember)

end

variable {port : Nat} {node : Node Op}

/-- What a node found in the new graph computes. -/
theorem Tracks.value_of_node? (found : clone.node? port = some node) :
    value denote clone.graph.nodes port =
      denote node.op (node.inputs.map (value denote clone.graph.nodes)) :=
  value_of_getElem? tracks.wellFormed.acyclic found

theorem Tracks.inputs_lt (found : clone.node? port = some node) :
    ∀ input ∈ node.inputs, input < clone.nextPort := by
  intro input member
  have present : port < clone.graph.nodes.length := (List.getElem?_eq_some_iff.mp found).1
  exact Nat.lt_trans (tracks.wellFormed.acyclic port node found input member) present

omit tracks

theorem value_addOperator_of_lt {op : Op} (present : port < clone.nextPort) :
    value denote (clone.addOperator op inputs).graph.nodes port =
      value denote clone.graph.nodes port :=
  value_concat_of_lt present

section

variable (clone : Clone Op) (op : Op) (inputs : List Nat)

theorem value_addOperator_nextPort :
    value denote (clone.addOperator op inputs).graph.nodes clone.nextPort =
      denote op (inputs.map (value denote clone.graph.nodes)) :=
  value_concat_length _ _

@[simp] theorem nextPort_addOperator :
    (clone.addOperator op inputs).nextPort = clone.nextPort + 1 := by
  simp [nextPort, addOperator]

@[simp] theorem mapped_addOperator (port : Nat) :
    (clone.addOperator op inputs).mapped port = clone.mapped port := rfl

end

include tracks

theorem Tracks.addOperator {op : Op} (earlier : ∀ input ∈ inputs, input < clone.nextPort) :
    Tracks denote (clone.addOperator op inputs) expected observed where
  wellFormed := by
    refine ⟨acyclic_concat_iff.mpr ⟨tracks.wellFormed.acyclic, earlier⟩, ?_⟩
    intro sink member
    have present := tracks.wellFormed.connected sink member
    simp only [Clone.addOperator, length_append, length_singleton]
    omega
  visited := tracks.visited
  mapped_lt := by
    intro port present
    rw [nextPort_addOperator, mapped_addOperator]
    exact Nat.lt_succ_of_lt (tracks.mapped_lt port present)
  mapped_value := by
    intro port present
    rw [mapped_addOperator, value_addOperator_of_lt (tracks.mapped_lt port present),
      tracks.mapped_value port present]
  outputs := by
    rw [← tracks.outputs]
    refine map_congr_left fun sink member => ?_
    rw [value_addOperator_of_lt (tracks.wellFormed.connected sink member)]

variable {result : V}

/-- Recording a replacement with the right value. -/
theorem Tracks.map (present : port < clone.nextPort)
    (same : value denote clone.graph.nodes port = result) :
    Tracks denote (clone.map port) (expected ++ [result]) observed := by
  have old : ∀ other < expected.length, (clone.map port).mapped other = clone.mapped other := by
    intro other earlier
    rw [← tracks.visited] at earlier
    simp [Clone.mapped, Clone.map, getD_eq_getElem?_getD, getElem?_append_left earlier]
  have new : (clone.map port).mapped expected.length = port := by
    rw [← tracks.visited]
    simp [Clone.mapped, Clone.map]
  have split : ∀ other < (expected ++ [result]).length,
      other < expected.length ∨ other = expected.length := by
    intro other earlier
    rw [length_append, length_singleton] at earlier
    omega
  constructor
  case wellFormed => exact tracks.wellFormed
  case visited => simp [Clone.map, tracks.visited]
  case mapped_lt =>
    intro other earlier
    rcases split other earlier with earlier | rfl
    · rw [old other earlier]
      exact tracks.mapped_lt other earlier
    · rw [new]
      exact present
  case mapped_value =>
    intro other earlier
    rcases split other earlier with earlier | rfl
    · rw [old other earlier, read_append_of_lt earlier]
      exact tracks.mapped_value other earlier
    · rw [new, read_concat]
      exact same
  case outputs => exact tracks.outputs

/-- Adding an operator that computes the expected value and recording it. -/
theorem Tracks.addAndMap {op : Op} (earlier : ∀ input ∈ inputs, input < clone.nextPort)
    (same : denote op (inputs.map (value denote clone.graph.nodes)) = result) :
    Tracks denote (clone.addAndMap op inputs) (expected ++ [result]) observed := by
  refine (tracks.addOperator earlier).map (by simp) ?_
  rw [value_addOperator_nextPort, same]

theorem Tracks.replace (earlier : ∀ input ∈ node.inputs, input < expected.length) :
    TracksNode denote (clone.replace node) expected observed node := by
  refine tracks.addAndMap (tracks.map_mapped_lt earlier) ?_
  rw [tracks.map_mapped earlier]

/-- Adding a sink. -/
theorem Tracks.addSink (name : String) (present : port < clone.nextPort)
    (same : value denote clone.graph.nodes port = result) :
    Tracks denote (clone.addSink name port) expected (observed ++ [(name, result)]) where
  wellFormed := by
    refine ⟨tracks.wellFormed.acyclic, ?_⟩
    intro sink member
    rcases mem_append.mp member with member | member
    · exact tracks.wellFormed.connected sink member
    · rw [mem_singleton.mp member]
      exact present
  visited := tracks.visited
  mapped_lt := tracks.mapped_lt
  mapped_value := tracks.mapped_value
  outputs := by
    rw [← tracks.outputs, ← same]
    simp [Graph.outputs, Clone.addSink]

theorem Tracks.replaceSink {sink : String × Nat} (earlier : sink.2 < expected.length) :
    Tracks denote (clone.replaceSink sink) expected
      (observed ++ [(sink.1, read expected sink.2)]) :=
  tracks.addSink sink.1 (tracks.mapped_lt _ earlier) (tracks.mapped_value _ earlier)

omit tracks

variable {expectedOf : Op → List V → V} {visit : Clone Op → Node Op → Clone Op}

section

variable (step : ∀ clone expected observed node, Tracks denote clone expected observed →
  (∀ input ∈ node.inputs, input < expected.length) → Tracks denote (visit clone node)
    (expected ++ [expectedOf node.op (node.inputs.map (read expected))]) observed)

include step

/-- A pass whose steps give every replacement the value that `expectedOf` computes for the
old node gives all nodes those values. -/
theorem tracks_foldl {nodes : List (Node Op)} (acyclic : Acyclic nodes) :
    Tracks denote (nodes.foldl visit {}) (values expectedOf nodes) [] := by
  induction nodes using reverseRecOn with
  | nil => exact tracks_empty
  | append_singleton _ node ih =>
    obtain ⟨earlier, inputs⟩ := acyclic_concat_iff.mp acyclic
    rw [foldl_append, foldl_cons, foldl_nil, values_concat]
    exact step _ _ _ node (ih earlier) (by simpa using inputs)

/-- The sinks of a cloned graph observe what the step for sinks makes of the expected
values. -/
theorem run_outputs {visitSink : Clone Op → String × Nat → Clone Op} {sinkValue : V → V}
    (sinkStep : ∀ clone expected observed sink, Tracks denote clone expected observed →
      sink.2 < expected.length →
      Tracks denote (visitSink clone sink) expected
        (observed ++ [(sink.1, sinkValue (read expected sink.2))]))
    {graph : Graph Op} (wellFormed : graph.WellFormed) :
    (run visit visitSink graph).WellFormed ∧
      (run visit visitSink graph).outputs denote =
        (graph.outputs expectedOf).map fun output => (output.1, sinkValue output.2) := by
  have tracks : ∀ sinks : List (String × Nat), (∀ sink ∈ sinks, sink.2 < graph.nodes.length) →
      Tracks denote (sinks.foldl visitSink (graph.nodes.foldl visit {}))
        (values expectedOf graph.nodes)
        (sinks.map fun sink => (sink.1, sinkValue (value expectedOf graph.nodes sink.2))) := by
    intro sinks connected
    induction sinks using reverseRecOn with
    | nil => exact tracks_foldl step wellFormed.acyclic
    | append_singleton _ sink ih =>
      rw [forall_mem_append, forall_mem_singleton] at connected
      rw [foldl_append, foldl_cons, foldl_nil, map_append]
      exact sinkStep _ _ _ sink (ih connected.1) (by simpa using connected.2)
  have all := tracks graph.sinks wellFormed.connected
  refine ⟨all.wellFormed, ?_⟩
  rw [run, all.outputs, Graph.outputs, map_map]
  rfl

end

/-- A pass that keeps every node's value keeps what the sinks observe. -/
theorem run_replaceSink
    (step : ∀ clone expected observed node, Tracks denote clone expected observed →
      (∀ input ∈ node.inputs, input < expected.length) →
      TracksNode denote (visit clone node) expected observed node)
    {graph : Graph Op} (wellFormed : graph.WellFormed) :
    (run visit replaceSink graph).WellFormed ∧
      (run visit replaceSink graph).outputs denote = graph.outputs denote := by
  have sinkStep : ∀ clone expected observed sink, Tracks denote clone expected observed →
      sink.2 < expected.length →
      Tracks denote (replaceSink clone sink) expected
        (observed ++ [(sink.1, id (read expected sink.2))]) :=
    fun _ _ _ _ tracks earlier => tracks.replaceSink earlier
  simpa using run_outputs step sinkStep wellFormed

end Clone

end Dataflow
