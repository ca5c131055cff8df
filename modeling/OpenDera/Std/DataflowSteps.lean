import OpenDera.Std.Dataflow

/-!
# Which steps of a rewriting pass are harmless

A pass may be correct at some nodes only. What a pass did to a node is never changed by
its later steps, so the nodes keep their values exactly if every step is harmless: a
wrong replacement is seen by a sink on that node. `forall_sinks_iff` says so about the
observations of all sinks.
-/

namespace Dataflow

open List

variable {Op V : Type*} {port : Nat} {nodes : List (Node Op)} {denote : Op → List V → V}

theorem value_append_of_lt [Inhabited V] (more : List (Node Op)) (present : port < nodes.length) :
    value denote (nodes ++ more) port = value denote nodes port := by
  induction more using reverseRecOn with
  | nil => rw [append_nil]
  | append_singleton _ _ ih =>
    rw [← append_assoc, value_concat_of_lt, ih]
    rw [length_append]
    omega

/-- A node reads the values that the whole graph gives to its inputs. -/
theorem Acyclic.map_read [Inhabited V] {earlier later : List (Node Op)} {node : Node Op}
    (acyclic : Acyclic nodes) (split : nodes = earlier ++ node :: later) :
    node.inputs.map (read (values denote earlier)) = node.inputs.map (value denote nodes) := by
  refine map_congr_left fun input listed => ?_
  have present := acyclic earlier.length node (by simp [split]) input listed
  rw [split, value_append_of_lt _ present, value]

theorem acyclic_of_append {more : List (Node Op)} (acyclic : Acyclic (nodes ++ more)) :
    Acyclic nodes := by
  intro port node found
  have present := (List.getElem?_eq_some_iff.mp found).1
  exact acyclic port node (by rw [getElem?_append_left present, found])

namespace Clone

/-- A later state of a pass: nodes, replacements and no sinks have been added. -/
structure Extends (clone later : Clone Op) : Prop where
  nodes : clone.graph.nodes <+: later.graph.nodes
  remap : clone.remap <+: later.remap
  sinks : later.graph.sinks = clone.graph.sinks

namespace Extends

variable {clone later latest : Clone Op}

theorem refl (clone : Clone Op) : Extends clone clone :=
  ⟨prefix_refl _, prefix_refl _, rfl⟩

theorem trans (first : Extends clone later) (second : Extends later latest) :
    Extends clone latest :=
  ⟨first.nodes.trans second.nodes, first.remap.trans second.remap, second.sinks.trans first.sinks⟩

variable (clone)

theorem addOperator (op : Op) (inputs : List Nat) : Extends clone (clone.addOperator op inputs) :=
  ⟨prefix_append _ _, prefix_refl _, rfl⟩

theorem map (port : Nat) : Extends clone (clone.map port) :=
  ⟨prefix_refl _, prefix_append _ _, rfl⟩

theorem addAndMap (op : Op) (inputs : List Nat) : Extends clone (clone.addAndMap op inputs) :=
  (addOperator clone op inputs).trans (map _ _)

variable {clone}

section

variable (extension : Extends clone later)

include extension

theorem value [Inhabited V] (present : port < clone.nextPort) :
    value denote later.graph.nodes port = Dataflow.value denote clone.graph.nodes port := by
  obtain ⟨more, same⟩ := extension.nodes
  rw [← same, value_append_of_lt more present]

theorem mapped (visited : port < clone.remap.length) : later.mapped port = clone.mapped port := by
  obtain ⟨more, same⟩ := extension.remap
  rw [Clone.mapped, Clone.mapped, ← same, getD_eq_getElem?_getD, getD_eq_getElem?_getD,
    getElem?_append_left visited]

end

theorem foldl {visit : Clone Op → Node Op → Clone Op}
    (step : ∀ clone node, Extends clone (visit clone node)) (clone : Clone Op)
    (nodes : List (Node Op)) : Extends clone (nodes.foldl visit clone) := by
  induction nodes generalizing clone with
  | nil => exact refl clone
  | cons node _ ih => exact (step clone node).trans (ih _)

end Extends

/-- The state in which a pass visits each node satisfies `property`, together with the values
of the earlier nodes. -/
def Along [Inhabited V] (denote : Op → List V → V)
    (visit : Clone Op → Node Op → Clone Op) (property : Clone Op → List V → Node Op → Prop)
    (nodes : List (Node Op)) : Prop :=
  ∀ earlier node later, nodes = earlier ++ node :: later →
    property (earlier.foldl visit {}) (values denote earlier) node

section

variable [Inhabited V]
  {visit : Clone Op → Node Op → Clone Op} {property : Clone Op → List V → Node Op → Prop}

theorem Along.of_prefix {earlier : List (Node Op)}
    (along : Along denote visit property nodes) (within : earlier <+: nodes) :
    Along denote visit property earlier := by
  obtain ⟨later, rfl⟩ := within
  rintro first node rest rfl
  exact along first node (rest ++ later) (by simp)

theorem along_concat_iff {node : Node Op} : Along denote visit property (nodes ++ [node]) ↔
      Along denote visit property nodes ∧
        property (nodes.foldl visit {}) (values denote nodes) node := by
  constructor
  · intro along
    exact ⟨along.of_prefix (prefix_append _ _), along nodes node [] rfl⟩
  · rintro ⟨along, last⟩ earlier other later same
    rcases eq_nil_or_concat later with rfl | ⟨later, final, rfl⟩
    · obtain ⟨rfl, rest⟩ := append_inj' same rfl
      obtain rfl := (cons.inj rest).1
      exact last
    · rw [concat_eq_append, ← cons_append, ← append_assoc] at same
      exact along earlier other later (append_inj' same rfl).1

end

section

variable [Inhabited V]

/-- What it takes to tell the harmless steps of a pass from the others. `admissible` is what
the nodes of the graph satisfy, and `invariant` what the pass maintains besides the
expected values. -/
structure Judges (denote : Op → List V → V) (visit : Clone Op → Node Op → Clone Op)
    (admissible harmless : Clone Op → List V → Node Op → Prop)
    (invariant : Clone Op → Prop) : Prop where
  extends_visit : ∀ clone node, Extends clone (visit clone node)
  initial : invariant {}
  step : ∀ clone expected node, Tracks denote clone expected [] → invariant clone →
    (∀ input ∈ node.inputs, input < expected.length) → admissible clone expected node →
    ∃ result, Tracks denote (visit clone node) (expected ++ [result]) [] ∧
      invariant (visit clone node) ∧
      (harmless clone expected node ↔ result = denote node.op (node.inputs.map (read expected)))

variable {visit : Clone Op → Node Op → Clone Op}
  {admissible harmless : Clone Op → List V → Node Op → Prop} {invariant : Clone Op → Prop}
 

section

variable (judges : Judges denote visit admissible harmless invariant)

include judges

/-- Harmless steps give every node its value. -/
theorem Judges.tracks (acyclic : Acyclic nodes) (admitted : Along denote visit admissible nodes)
    (allHarmless : Along denote visit harmless nodes) :
    Tracks denote (nodes.foldl visit {}) (values denote nodes) [] ∧
      invariant (nodes.foldl visit {}) := by
  induction nodes using reverseRecOn with
  | nil => exact ⟨tracks_empty, judges.initial⟩
  | append_singleton _ node ih =>
    obtain ⟨earlier, inputs⟩ := acyclic_concat_iff.mp acyclic
    obtain ⟨admittedBefore, admittedLast⟩ := along_concat_iff.mp admitted
    obtain ⟨before, last⟩ := along_concat_iff.mp allHarmless
    obtain ⟨tracks, maintained⟩ := ih earlier admittedBefore before
    obtain ⟨result, after, stillMaintained, same⟩ :=
      judges.step _ _ node tracks maintained (by simpa using inputs) admittedLast
    obtain rfl := same.mp last
    rw [foldl_append, foldl_cons, foldl_nil, values_concat]
    exact ⟨after, stillMaintained⟩

/-- Every node is replaced by one with its value exactly if every step is harmless. -/
theorem Judges.forall_mapped_value_iff (acyclic : Acyclic nodes)
    (admitted : Along denote visit admissible nodes) :
    (∀ port < nodes.length, value denote (nodes.foldl visit {}).graph.nodes
        ((nodes.foldl visit {}).mapped port) = value denote nodes port) ↔
      Along denote visit harmless nodes := by
  constructor
  · intro same
    suffices ∀ earlier, earlier <+: nodes → Along denote visit harmless earlier from
      this nodes (prefix_refl _)
    intro earlier isPrefix
    induction earlier using reverseRecOn with
    | nil =>
      intro first node later impossible
      simp at impossible
    | append_singleton earlier node ih =>
      have before := ih ((prefix_append _ _).trans isPrefix)
      refine along_concat_iff.mpr ⟨before, ?_⟩
      obtain ⟨later, rfl⟩ := isPrefix
      obtain ⟨earlierAcyclic, inputs⟩ := acyclic_concat_iff.mp (acyclic_of_append acyclic)
      obtain ⟨admittedBefore, admittedLast⟩ :=
        along_concat_iff.mp (admitted.of_prefix (prefix_append _ _))
      obtain ⟨tracks, maintained⟩ := judges.tracks earlierAcyclic admittedBefore before
      obtain ⟨result, after, -, judged⟩ :=
        judges.step _ _ node tracks maintained (by simpa using inputs) admittedLast
      rw [judged]
      -- the rest of the pass leaves the replacement of this node and its value alone
      have here := same earlier.length (by simp)
      have last : (values denote earlier).length <
          (values denote earlier ++ [result]).length := by simp
      have extension := Extends.foldl judges.extends_visit
        (visit (earlier.foldl visit {}) node) later
      rw [foldl_append, foldl_append, foldl_cons, foldl_nil,
        value_append_of_lt _ (by simp), value_concat_length] at here
      rw [← @length_values _ _ _ denote earlier] at here
      rw [extension.mapped (by rw [after.visited]; exact last),
        extension.value (after.mapped_lt _ last), after.mapped_value _ last, read_concat] at here
      exact here
  · intro allHarmless port present
    exact (judges.tracks acyclic admitted allHarmless).1.mapped_value port (by simpa using present)

end

/-- Without sinks of its own a pass copies every sink to the replacement of its node. -/
theorem run_replaceSink_outputs (visit : Clone Op → Node Op → Clone Op)
    (extends_visit : ∀ clone node, Extends clone (visit clone node)) (graph : Graph Op) :
    (run visit replaceSink graph).outputs denote = graph.sinks.map fun sink =>
      (sink.1, value denote (graph.nodes.foldl visit {}).graph.nodes
        ((graph.nodes.foldl visit {}).mapped sink.2)) := by
  have none : (graph.nodes.foldl visit {}).graph.sinks = [] :=
    (Extends.foldl extends_visit {} graph.nodes).sinks
  generalize defined : graph.nodes.foldl visit {} = final at none ⊢
  have copied : ∀ (sinks : List (String × Nat)) (clone : Clone Op),
      clone.graph.nodes = final.graph.nodes → clone.remap = final.remap →
      (sinks.foldl replaceSink clone).graph.nodes = final.graph.nodes ∧
        (sinks.foldl replaceSink clone).graph.sinks =
          clone.graph.sinks ++ sinks.map fun sink => (sink.1, final.mapped sink.2) := by
    intro sinks
    induction sinks with
    | nil => exact fun clone sameNodes _ => ⟨sameNodes, by simp⟩
    | cons sink _ ih =>
      intro clone sameNodes sameRemap
      obtain ⟨nodes, added⟩ := ih (clone.replaceSink sink) sameNodes sameRemap
      refine ⟨nodes, ?_⟩
      rw [foldl_cons, added]
      simp [replaceSink, addSink, mapped, sameRemap]
  obtain ⟨nodes, sinks⟩ := copied graph.sinks _ rfl rfl
  rw [run, Graph.outputs, defined, nodes, sinks, none, nil_append, map_map]
  rfl

/-- All sinks that can be put on a graph observe the same after the pass exactly if every step
is harmless. -/
theorem Judges.forall_sinks_iff (judges : Judges denote visit admissible harmless invariant)
    (acyclic : Acyclic nodes) (admitted : Along denote visit admissible nodes) :
    (∀ sinks : List (String × Nat), (∀ sink ∈ sinks, sink.2 < nodes.length) →
      (run visit replaceSink ⟨nodes, sinks⟩).outputs denote =
        (Dataflow.Graph.mk nodes sinks).outputs denote) ↔
      Along denote visit harmless nodes := by
  rw [← judges.forall_mapped_value_iff acyclic admitted]
  constructor
  · intro same port present
    have observed := same [("", port)] (by simpa using present)
    rw [run_replaceSink_outputs visit judges.extends_visit] at observed
    simpa [Graph.outputs] using observed
  · intro same sinks connected
    rw [run_replaceSink_outputs visit judges.extends_visit]
    refine map_congr_left fun sink member => ?_
    rw [same sink.2 (connected sink member)]

end

end Clone

end Dataflow
