import OpenDera.Compiler.CreateStarJoins
import OpenDera.Compiler.RemoveStarJoins

/-!
# Star joins and trees of joins

Both directions together. `RemoveStarJoins` keeps every row and weight. `CreateStarJoins`
does so for maximal roots that produce rows, but a maximal `StreamJoinIndex` root gets a
star join without differentiators and integrator, so collections of different steps match.
-/

namespace OpenDera.Compiler

open Dataflow StarOperator List Option

variable {V : Type*} [LinearOrder V]

/-- A circuit with joins on common keys. -/
structure JoinCircuit (V : Type*) [LinearOrder V] where
  graph : Graph (JoinOperator V)
  acyclic : Acyclic graph.nodes

/-- A circuit with star joins, each of at least two inputs. -/
structure StarCircuit (V : Type*) [LinearOrder V] where
  graph : Graph (StarOperator V)
  wellFormed : graph.WellFormed
  arity : ∀ node ∈ graph.nodes, ∀ widths, node.op.widths? = some widths → 2 ≤ node.inputs.length

namespace StarCircuit

/-- The values that star joins read have the types of the parameters of their closures. -/
def WellTyped (circuit : StarCircuit V) (tables : String → PortStream (Row V)) : Prop :=
  ∀ node ∈ circuit.graph.nodes, ∀ widths, node.op.widths? = some widths →
    List.Forall₂ HasWidth widths (node.inputs.map (value (denote tables) circuit.graph.nodes))

variable {tables : String → PortStream (Row V)}

/-- The circuit is admissible at every step of `RemoveStarJoins`. -/
theorem along_admissible {circuit : StarCircuit V} (typed : circuit.WellTyped tables) :
    Clone.Along (denote tables) RemoveStarJoins.visit RemoveStarJoins.Admissible
      circuit.graph.nodes := by
  intro earlier node later split widths isStar
  have member : node ∈ circuit.graph.nodes := by simp [split]
  rw [circuit.wellFormed.acyclic.map_read split]
  exact ⟨circuit.arity node member widths isStar, typed node member widths isStar⟩

theorem removeStarJoins_outputs (circuit : StarCircuit V) (typed : circuit.WellTyped tables) :
    (removeStarJoins circuit.graph).outputs (denote tables) =
      circuit.graph.outputs (denote tables) :=
  ((RemoveStarJoins.judges tables).forall_sinks_iff circuit.wellFormed.acyclic
    (along_admissible typed)).mpr (fun _ _ _ _ => trivial) _ circuit.wellFormed.connected

end StarCircuit

/-- Every operator of a circuit of joins has its stream after `CreateStarJoins`, and every sink
of a circuit of star joins observes the same after `RemoveStarJoins`, exactly if no star join
that replaces a maximal root with an indexed result reads collections that match across
steps. -/
theorem star_joins_keep_rows_iff [Inhabited V] (joins : JoinCircuit V)
    (stars : StarCircuit V) (tables : String → PortStream (Row V))
    (joinsTyped : WellTyped joins.graph tables) (starsTyped : stars.WellTyped tables) :
    ((∀ port < joins.graph.nodes.length,
        value (JoinOperator.denote tables) (createStarJoins joins.graph).graph.nodes
            ((createStarJoins joins.graph).mapped port) =
          value (JoinOperator.denote tables) joins.graph.nodes port) ∧
      (removeStarJoins stars.graph).outputs (denote tables) =
        stars.graph.outputs (denote tables)) ↔
      Clone.Along (JoinOperator.denote tables)
        (ReplaceStarJoins.visit (FindJoinTrees.joinTrees joins.graph))
        (ReplaceStarJoins.Harmless (FindJoinTrees.joinTrees joins.graph)) joins.graph.nodes := by
  rw [createStarJoins_keeps_values_iff joins.acyclic joinsTyped]
  exact and_iff_left (stars.removeStarJoins_outputs starsTyped)

/-- Three tables joined on their key by two joins that keep it. -/
def threeTables : JoinCircuit ℕ where
  graph :=
    { nodes :=
        [⟨.operator (.sourceMap "A"), []⟩, ⟨.operator (.sourceMap "B"), []⟩,
          ⟨.operator (.sourceMap "C"), []⟩,
          ⟨.streamJoinIndex 1 [.field 0 0] [.field 1 0], [0, 1]⟩,
          ⟨.streamJoinIndex 1 [.field 0 0] [.field 1 0], [3, 2]⟩]
      sinks := [("V", 4)] }
  acyclic := by
    intro port node found
    match port, found with
    | 0, found | 1, found | 2, found | 3, found | 4, found =>
      obtain rfl := some.inj found
      simp
    | port + 5, found => simp at found

/-- Every table holds one row, at every step. -/
def oneRow : String → PortStream (Row ℕ) :=
  fun _ _ => IndexedZSet.single ([0], [0])

theorem eq_of_oneRow_weight {table : String} {time : ℕ} {key row : Row ℕ}
    (present : (oneRow table time).weight key row ≠ 0) : key = [0] ∧ row = [0] := by
  have same := IndexedZSet.eq_of_weight_single_ne_zero present
  exact ⟨(Prod.mk.inj same).1.symm, (Prod.mk.inj same).2.symm⟩

/-- Each of the ports that the joins read carries that row. -/
theorem wellTyped_threeTables : WellTyped threeTables.graph oneRow := by
  have joined : value (JoinOperator.denote oneRow) threeTables.graph.nodes 3 = oneRow "A" :=
    funext fun _ => (by decide +kernel :
      IndexedZSet.join (fun key left right : Row ℕ => (evalRow [.field 0 0] [key, left, right],
        evalRow [.field 1 0] [key, left, right])) (oneRow "A" 0) (oneRow "B" 0) = oneRow "A" 0)
  have typed : ∀ table, HasKeyWidth 1 (oneRow table) := by
    intro table time key row present
    rw [(eq_of_oneRow_weight present).1]
    rfl
  intro port node found width isJoin input member
  match port, found with
  | 0, found | 1, found | 2, found =>
    obtain rfl := some.inj found
    cases isJoin
  | 3, found =>
    obtain rfl := some.inj found
    obtain rfl := some.inj isJoin
    rcases mem_pair.mp member with rfl | rfl
    · exact typed "A"
    · exact typed "B"
  | 4, found =>
    obtain rfl := some.inj found
    obtain rfl := some.inj isJoin
    rcases mem_pair.mp member with rfl | rfl
    · rw [joined]
      exact typed "A"
    · exact typed "C"
  | port + 5, found => simp [threeTables] at found

/-- In the second step the view holds the only combination seven times instead of once. -/
theorem threeTables_counts_across_steps : WellTyped threeTables.graph oneRow ∧
      value (JoinOperator.denote oneRow) (createStarJoins threeTables.graph).graph.nodes
          ((createStarJoins threeTables.graph).mapped 4) ≠
        value (JoinOperator.denote oneRow) threeTables.graph.nodes 4 := by
  refine ⟨wellTyped_threeTables, fun same => ?_⟩
  have weights := congrArg (fun stream => (stream 1).weight [0] [0]) same
  revert weights
  decide +kernel

/-- A star join of two tables. -/
def twoTables : StarCircuit ℕ where
  graph :=
    { nodes :=
        [⟨.operator (.sourceMap "A"), []⟩, ⟨.operator (.sourceMap "B"), []⟩,
          ⟨.starJoin [1, 1] fun key values => key ++ values.flatten, [0, 1]⟩]
      sinks := [("V", 2)] }
  wellFormed :=
    { acyclic := by
        intro port node found
        match port, found with
        | 0, found | 1, found | 2, found =>
          obtain rfl := some.inj found
          simp
        | port + 3, found => simp at found
      connected := by simp }
  arity := by simp [widths?]

/-- Both circuits read one field under a key of one field. -/
theorem star_joins_keep_rows_iff_threeTables :
    (WellTyped threeTables.graph oneRow ∧ twoTables.WellTyped oneRow) ∧
      (((∀ port < threeTables.graph.nodes.length,
          value (JoinOperator.denote oneRow) (createStarJoins threeTables.graph).graph.nodes
              ((createStarJoins threeTables.graph).mapped port) =
            value (JoinOperator.denote oneRow) threeTables.graph.nodes port) ∧
        (removeStarJoins twoTables.graph).outputs (denote oneRow) =
          twoTables.graph.outputs (denote oneRow)) ↔
        Clone.Along (JoinOperator.denote oneRow)
          (ReplaceStarJoins.visit (FindJoinTrees.joinTrees threeTables.graph))
          (ReplaceStarJoins.Harmless (FindJoinTrees.joinTrees threeTables.graph))
          threeTables.graph.nodes) := by
  have widths : ∀ table, HasWidth 1 (oneRow table) := by
    intro table time key row present
    rw [(eq_of_oneRow_weight present).2]
    rfl
  have starsTyped : twoTables.WellTyped oneRow := by
    intro node member expectedWidths isStar
    simp only [twoTables, mem_cons, not_mem_nil, or_false] at member
    rcases member with rfl | rfl | rfl
    · cases isStar
    · cases isStar
    · obtain rfl := Option.some.inj isStar
      exact .cons (widths "A") (.cons (widths "B") .nil)
  exact ⟨⟨wellTyped_threeTables, starsTyped⟩,
    star_joins_keep_rows_iff threeTables twoTables oneRow wellTyped_threeTables starsTyped⟩

end OpenDera.Compiler
