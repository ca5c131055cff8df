import Mathlib.Data.List.Count

/-!
# Dependency graphs as lists of edges

An edge `(earlier, later)` says that `later` has to wait for `earlier`. The same pair
may be listed several times; counters then count it several times, on both of its
ends. `pending` is what such a counter holds: the predecessors that have not reported
yet, and the reports that have been made but not been passed on. `peel` removes
sources until none is left, which empties the graph exactly if it has no cycle.
-/

namespace Dependencies

open List

variable {Node : Type*} [DecidableEq Node] (edges : List (Node × Node))

/-- The nodes that `node` waits for, once for every edge. -/
def predecessors (node : Node) : List Node :=
  (edges.filter fun edge => edge.2 = node).map Prod.fst

/-- The nodes that wait for `node`, once for every edge. -/
def successors (node : Node) : List Node :=
  (edges.filter fun edge => edge.1 = node).map Prod.snd

variable {edges} {node other : Node}

theorem mem_predecessors : other ∈ predecessors edges node ↔ (other, node) ∈ edges := by
  simp [predecessors]

theorem mem_successors : other ∈ successors edges node ↔ (node, other) ∈ edges := by
  simp [successors]

variable (edges)

/-- Both ends of an edge count it the same number of times. -/
theorem count_successors (node other : Node) :
    (successors edges node).count other = (predecessors edges other).count node := by
  simp only [successors, predecessors, List.count, countP_map, countP_filter]
  congr 1
  simp only [Function.comp_apply, Bool.beq_eq_decide_eq, Bool.and_comm]

/-! ## Counting what has not been reported -/

/-- The reports a node has not seen: those not made, and those not passed on. -/
def pending (reported owed : List Node) (node : Node) : Nat :=
  (predecessors edges node).countP (fun other => other ∉ reported) + owed.count node

variable {edges} {reported : List Node} {node : Node}

/-- A first report lowers the number of those that are missing by its number of entries. -/
theorem countP_report (nodes : List Node) (fresh : node ∉ reported) :
    nodes.countP (fun other => other ∉ reported) =
      nodes.countP (fun other => other ∉ node :: reported) + nodes.count node := by
  induction nodes with
  | nil => rfl
  | cons head _ ih =>
    by_cases same : head = node
    · subst same
      simp [fresh] at ih ⊢
      omega
    · by_cases known : head ∈ reported <;>
        simp [same, known] at ih ⊢ <;> omega

/-- A report that is owed to all successors changes no counter. -/
theorem pending_report (edges : List (Node × Node)) (fresh : node ∉ reported) (other : Node) :
    pending edges (node :: reported) (successors edges node) other =
      pending edges reported [] other := by
  simp only [pending, count_nil, Nat.add_zero, count_successors]
  exact (countP_report (predecessors edges other) fresh).symm

/-- Passing one report on lowers the counter of its addressee only. -/
theorem pending_cons (edges : List (Node × Node)) (reported rest : List Node) (head node : Node) :
    pending edges reported (head :: rest) node =
      pending edges reported rest node + if head = node then 1 else 0 := by
  simp only [pending, count_cons, beq_iff_eq]
  omega

theorem mem_of_pending_eq_zero {reported owed : List Node}
    (done : pending edges reported owed node = 0) : ∀ other ∈ predecessors edges node,
      other ∈ reported := by
  intro other member
  have none := (Nat.add_eq_zero_iff.mp done).1
  simpa using countP_eq_zero.mp none other member

theorem pending_eq_zero (done : ∀ other ∈ predecessors edges node, other ∈ reported) :
    pending edges reported [] node = 0 := by
  simp only [pending, count_nil, Nat.add_zero, countP_eq_zero]
  simpa using done

/-! ## Cycles -/

/-- The nodes without a predecessor among the remaining ones. -/
def sources (edges : List (Node × Node)) (remaining : List Node) : List Node :=
  remaining.filter fun node => ∀ other ∈ predecessors edges node, other ∉ remaining

/-- Remove sources, `fuel` times at most. -/
def peel (edges : List (Node × Node)) : Nat → List Node → List Node
  | 0, remaining => remaining
  | fuel + 1, remaining =>
    if sources edges remaining = [] then remaining
    else peel edges fuel (remaining.filter fun node => node ∉ sources edges remaining)

/-- In a graph without cycles every part that is not empty has a member with no
predecessor in it. -/
def Acyclic (edges : List (Node × Node)) (nodes : List Node) : Prop :=
  ∀ Part : Node → Prop, (∃ node ∈ nodes, Part node) →
    ∃ node ∈ nodes, Part node ∧ ∀ other ∈ predecessors edges node, other ∈ nodes → ¬ Part other

theorem acyclic_of_peel (fuel : Nat) :
    ∀ nodes, peel edges fuel nodes = [] → Acyclic edges nodes := by
  induction fuel with
  | zero =>
    rintro nodes rfl Part ⟨node, member, -⟩
    cases member
  | succ _ ih =>
    intro nodes peeled Part inhabited
    by_cases found : ∃ node ∈ sources edges nodes, Part node
    · obtain ⟨node, source, inside⟩ := found
      obtain ⟨member, first⟩ := mem_filter.mp source
      exact ⟨node, member, inside, fun other before known =>
        absurd known (of_decide_eq_true first other before)⟩
    · push Not at found
      have stuck : sources edges nodes ≠ [] := by
        intro empty
        rw [peel, if_pos empty] at peeled
        subst peeled
        obtain ⟨node, member, -⟩ := inhabited
        cases member
      rw [peel, if_neg stuck] at peeled
      have kept : ∀ node ∈ nodes, Part node →
          node ∈ nodes.filter fun node => node ∉ sources edges nodes := by
        intro node member inside
        refine mem_filter.mpr ⟨member, ?_⟩
        simpa using fun source => found node source inside
      obtain ⟨witness, member, inside⟩ := inhabited
      obtain ⟨node, remains, part, first⟩ := ih _ peeled Part
        ⟨witness, kept witness member inside, inside⟩
      refine ⟨node, (mem_filter.mp remains).1, part, ?_⟩
      intro other before known bad
      exact first other before (kept other known bad) bad

/-- As many rounds as there are nodes are enough. -/
theorem peel_of_acyclic (fuel : Nat) :
    ∀ nodes : List Node, nodes.length ≤ fuel → Acyclic edges nodes → peel edges fuel nodes = [] := by
  induction fuel with
  | zero =>
    intro nodes short _
    exact length_eq_zero_iff.mp (Nat.le_zero.mp short)
  | succ _ ih =>
    intro nodes short acyclic
    rw [peel]
    split_ifs with stuck
    · by_contra occupied
      obtain ⟨first, present⟩ := exists_mem_of_ne_nil nodes occupied
      obtain ⟨node, member, -, free⟩ := acyclic (fun _ => True) ⟨first, present, trivial⟩
      have source : node ∈ sources edges nodes :=
        mem_filter.mpr ⟨member, decide_eq_true fun other before known =>
          free other before known trivial⟩
      rw [stuck] at source
      cases source
    · refine ih _ ?_ ?_
      · obtain ⟨source, found⟩ := exists_mem_of_ne_nil _ stuck
        have shorter : (nodes.filter fun node => node ∉ sources edges nodes).length < nodes.length := by
          refine length_filter_lt_length_iff_exists.mpr ⟨source, (mem_filter.mp found).1, ?_⟩
          simpa using found
        omega
      · intro Part inhabited
        obtain ⟨witness, member, inside⟩ := inhabited
        obtain ⟨node, known, ⟨part, remains⟩, first⟩ := acyclic
          (fun node => Part node ∧ node ∉ sources edges nodes)
          ⟨witness, (mem_filter.mp member).1, inside, by simpa using (mem_filter.mp member).2⟩
        refine ⟨node, mem_filter.mpr ⟨known, by simpa using remains⟩, part, ?_⟩
        intro other before remaining bad
        obtain ⟨knownOther, kept⟩ := mem_filter.mp remaining
        exact first other before knownOther ⟨bad, by simpa using kept⟩

/-- A part of the edges of a graph without cycles has none, on any nodes. -/
theorem Acyclic.restrict {edges part : List (Node × Node)} {nodes : List Node}
    (acyclic : Acyclic edges nodes) (closed : ∀ edge ∈ edges, edge.1 ∈ nodes ∧ edge.2 ∈ nodes)
    (fewer : ∀ edge ∈ part, edge ∈ edges) (chosen : List Node) : Acyclic part chosen := by
  intro Part inhabited
  by_cases found : ∃ node ∈ nodes, node ∈ chosen ∧ Part node
  · obtain ⟨node, -, ⟨member, inside⟩, first⟩ := acyclic (fun node => node ∈ chosen ∧ Part node) found
    refine ⟨node, member, inside, ?_⟩
    intro other before known bad
    have edge := fewer _ (mem_predecessors.mp before)
    exact first other (mem_predecessors.mpr edge) (closed _ edge).1 ⟨known, bad⟩
  · obtain ⟨node, member, inside⟩ := inhabited
    refine ⟨node, member, inside, ?_⟩
    intro other before _ _
    exact found ⟨node, (closed _ (fewer _ (mem_predecessors.mp before))).2, member, inside⟩

/-- Peeling decides whether a graph has a cycle. -/
theorem peel_eq_nil_iff (edges : List (Node × Node)) (nodes : List Node) :
    peel edges nodes.length nodes = [] ↔ Acyclic edges nodes :=
  ⟨acyclic_of_peel _ nodes, peel_of_acyclic _ nodes (Nat.le_refl _)⟩

end Dependencies
