import Mathlib.Algebra.Order.BigOperators.Group.List
import Mathlib.Algebra.Order.Ring.Nat
import OpenDera.Std.Loop

/-!
# The solver behind the balancer

Every stream has a domain of partitioning policies with their costs, every join
constrains the policies of its two inputs. Propagators prune values that no value
of the other input supports; when they are done and some domain still has several
values, the most expensive one is removed as a decision. A conflict undoes the last
decision and makes the removed value the only one of its stream.
-/

namespace OpenDera.Balance

open List Bool

/-- Origin node of a stream. -/
abbrev NodeId := Nat

/-- Partitioning policies supported by the balancer. -/
inductive PartitioningPolicy where
  | shard
  | broadcast
  | balance
  deriving DecidableEq, Repr

namespace PartitioningPolicy

/-- All policies, in the order of their numbers. -/
def all : List PartitioningPolicy := [shard, broadcast, balance]

theorem mem_all (policy : PartitioningPolicy) : policy ∈ all := by
  cases policy <;> simp [all]

end PartitioningPolicy

/-- The cost of a policy. -/
abbrev Cost := Nat

/-- The policies a stream may still get, with their costs. -/
abbrev Domain := PartitioningPolicy → Option Cost

/-- What can go wrong in the balancer. -/
inductive BalancerError where
  | notRegisteredWithBalancer (node : NodeId)
  | invalidPolicyHint (policy : PartitioningPolicy) (message : String)
  | noSolution
  deriving DecidableEq, Repr

/-- The two inputs of a join. -/
structure JoinConstraint where
  v1 : NodeId
  v2 : NodeId
  isLeftJoin : Bool
  deriving DecidableEq, Repr

/-- The policies that two inputs of a join may have together. -/
def compatible : PartitioningPolicy → PartitioningPolicy → Bool
  | .shard, .shard | .shard, .broadcast => true
  | .broadcast, .shard | .broadcast, .balance => true
  | .balance, .broadcast => true
  | _, _ => false

/-- The policies that a join allows for its left and right input; the left input of a
left join is not broadcast. -/
def JoinConstraint.allows (constraint : JoinConstraint) (left right : PartitioningPolicy) : Bool :=
  compatible left right && !(constraint.isLeftJoin && left == .broadcast)

/-- A decision to remove a value, and the values that propagation removed after it. -/
structure BacktrackFrame where
  decision : NodeId × PartitioningPolicy × Cost
  removedAssignments : List (NodeId × PartitioningPolicy × Cost) := []

/-- A problem instance during the search. -/
structure MaxSat where
  vars : List NodeId
  constraints : List JoinConstraint
  domain : NodeId → Domain
  backtrackStack : List BacktrackFrame := []

namespace MaxSat

variable (maxsat : MaxSat) (node : NodeId) (value : PartitioningPolicy)

/-- Put a value into the domain of a variable, or take it out. -/
def setValue (cost : Option Cost) : MaxSat :=
  { maxsat with
    domain := Function.update maxsat.domain node (Function.update (maxsat.domain node) value cost) }

/-- Record a removed value in the frame of the last decision, if there is one. -/
def recordRemoved (stack : List BacktrackFrame) (removed : NodeId × PartitioningPolicy × Cost) :
    List BacktrackFrame :=
  match stack with
  | [] => []
  | frame :: stack =>
    { frame with removedAssignments := frame.removedAssignments ++ [removed] } :: stack

/-- Remove a value from a domain and say whether it was there. -/
def removeVariableAssignment : Bool × MaxSat :=
  match maxsat.domain node value with
  | none => (false, maxsat)
  | some cost =>
    (true, { maxsat.setValue node value none with
      backtrackStack := recordRemoved maxsat.backtrackStack (node, value, cost) })

/-- Remove a value if `condition` holds. -/
def removeIf (condition : Bool) (node : NodeId) (value : PartitioningPolicy)
    (maxsat : MaxSat) : Bool × MaxSat :=
  if condition then maxsat.removeVariableAssignment node value else (false, maxsat)

/-- Prune the domain of `i2` given the current domain of `i1`. -/
def propagateInner (i1 i2 : NodeId) (state : MaxSat × List NodeId) : MaxSat × List NodeId :=
  let v1 := state.1.domain i1
  let removeShard := (v1 .shard).isNone && (v1 .broadcast).isNone
  let removeBroadcast := (v1 .shard).isNone && (v1 .balance).isNone
  let removeBalance := (v1 .broadcast).isNone
  let (shardRemoved, maxsat) := state.1.removeIf removeShard i2 .shard
  let (broadcastRemoved, maxsat) := maxsat.removeIf removeBroadcast i2 .broadcast
  let (balanceRemoved, maxsat) := maxsat.removeIf removeBalance i2 .balance
  if shardRemoved || broadcastRemoved || balanceRemoved then
    (maxsat, i2 :: state.2)
  else
    (maxsat, state.2)

/-- The left input of a left join is never broadcast. -/
def propagateLeftJoin (constraint : JoinConstraint) (state : MaxSat × List NodeId) :
    MaxSat × List NodeId :=
  let (removed, maxsat) := state.1.removeIf constraint.isLeftJoin constraint.v1 .broadcast
  if removed then (maxsat, constraint.v1 :: state.2) else (maxsat, state.2)

variable (state : MaxSat × List NodeId)

/-- Prune both domains of a join and add the streams whose domain changed. -/
def propagate (constraint : JoinConstraint) : MaxSat × List NodeId :=
  propagateInner constraint.v2 constraint.v1
    (propagateInner constraint.v1 constraint.v2 (propagateLeftJoin constraint state))

/-- Reevaluate the constraints on the affected variables. -/
def propagateAll (affected : List NodeId) : MaxSat × List NodeId :=
  (maxsat.constraints.filter fun constraint =>
    constraint.v1 ∈ affected ∨ constraint.v2 ∈ affected).foldl propagate (maxsat, [])

/-- The values left for a variable. -/
def values : List (PartitioningPolicy × Cost) :=
  PartitioningPolicy.all.filterMap fun value =>
    (maxsat.domain node value).map fun cost => (value, cost)

/-- The most expensive of the values that are not the only one of their variable. -/
def highestCostVariableAssignment : Option (NodeId × PartitioningPolicy × Cost) :=
  let candidates := maxsat.vars.flatMap fun node =>
    if (maxsat.values node).length ≤ 1 then
      []
    else
      (maxsat.values node).map fun value => (node, value)
  candidates.foldl
    (fun highest candidate =>
      match highest with
      | none => some candidate
      | some best => if best.2.2 < candidate.2.2 then some candidate else some best)
    none

/-- Remove a value as a decision. -/
def decision (maxsat : MaxSat) (removed : NodeId × PartitioningPolicy × Cost) : MaxSat :=
  { maxsat.setValue removed.1 removed.2.1 none with
    backtrackStack := { decision := removed } :: maxsat.backtrackStack }

/-- Undo the last decision: restore what was removed since, then leave the decided
value as the only one. -/
def backtrack : Except BalancerError (MaxSat × List NodeId) :=
  match maxsat.backtrackStack with
  | [] => .error .noSolution
  | frame :: stack =>
    let (node, value, cost) := frame.decision
    let restored := frame.removedAssignments.foldl
      (fun maxsat removed => maxsat.setValue removed.1 removed.2.1 (some removed.2.2))
      { maxsat with backtrackStack := stack }
    let cleared := (restored.values node).foldl
      (fun maxsat value => (maxsat.removeVariableAssignment node value.1).2) restored
    .ok (cleared.setValue node value (some cost), [node])

/-- Some variable has no value left. -/
def conflict : Bool :=
  maxsat.vars.any fun node => (maxsat.values node).isEmpty

/-- The first value of every variable. -/
def assignment : List (NodeId × PartitioningPolicy) :=
  maxsat.vars.filterMap fun node =>
    (maxsat.values node).head?.map fun value => (node, value.1)

/-- One iteration: propagate, or else backtrack, finish or decide. -/
def solveStep :
    Except BalancerError (List (NodeId × PartitioningPolicy)) ⊕ (MaxSat × List NodeId) :=
  let (maxsat, affected) := state
  if affected ≠ [] then
    .inr (maxsat.propagateAll affected)
  else if maxsat.conflict then
    match maxsat.backtrack with
    | .error error => .inl (.error error)
    | .ok next => .inr next
  else
    match maxsat.highestCostVariableAssignment with
    | none => .inl (.ok maxsat.assignment)
    | some highest => .inr (maxsat.decision highest, [highest.1])

/-- A bound on the iterations of the search, shown to suffice below. -/
def searchBound : Nat :=
  6 * 2 ^ (3 * maxsat.vars.length)

/-- Solve the instance; it fails if some domain is empty from the start. -/
def solve : Option (Except BalancerError (List (NodeId × PartitioningPolicy))) :=
  if maxsat.conflict then
    none
  else
    Loop.run solveStep maxsat.searchBound (maxsat, maxsat.vars)

end MaxSat

/-! ## Propagation -/

theorem compatible_comm (first second : PartitioningPolicy) :
    compatible first second = compatible second first := by
  cases first <;> cases second <;> rfl

/-- A value that was removed after the frame's decision. -/
def BacktrackFrame.Lost (frame : BacktrackFrame) (node : NodeId) (value : PartitioningPolicy) :
    Prop :=
  ∃ cost, (node, value, cost) ∈ frame.removedAssignments

namespace MaxSat

variable (maxsat : MaxSat)

/-- `value` is in the domain of `node`. -/
def Has (node : NodeId) (value : PartitioningPolicy) : Prop :=
  (maxsat.domain node value).isSome

instance (maxsat : MaxSat) (node : NodeId) (value : PartitioningPolicy) :
    Decidable (maxsat.Has node value) :=
  inferInstanceAs (Decidable (_ = true))

/-- Every variable of the constraints is a variable of the instance. -/
def WellFormed : Prop :=
  ∀ constraint ∈ maxsat.constraints, constraint.v1 ∈ maxsat.vars ∧ constraint.v2 ∈ maxsat.vars

variable (assign : NodeId → PartitioningPolicy)

/-- An assignment that satisfies all constraints. -/
def Satisfies : Prop :=
  ∀ constraint ∈ maxsat.constraints, constraint.allows (assign constraint.v1) (assign constraint.v2)

/-- An assignment whose values are in the domains. -/
def Within : Prop :=
  ∀ node ∈ maxsat.vars, maxsat.Has node (assign node)

/-- The number of values left. -/
def size : Nat :=
  (maxsat.vars.map fun node => PartitioningPolicy.all.countP fun value => maxsat.Has node value).sum

/-! ## Pruning -/

/-- Setting one value changes nothing else. -/
theorem has_setValue (node other : NodeId) (value otherValue : PartitioningPolicy)
    (cost : Option Cost) :
    (maxsat.setValue node value cost).Has other otherValue ↔
      if other = node ∧ otherValue = value then cost.isSome = true else maxsat.Has other otherValue := by
  unfold Has setValue
  by_cases sameNode : other = node
  · subst sameNode
    by_cases sameValue : otherValue = value <;> simp [sameValue]
  · simp [sameNode]

/-- The domains shrink and the last frame remembers what was removed. -/
structure Prunes (before after : MaxSat) : Prop where
  vars : after.vars = before.vars
  constraints : after.constraints = before.constraints
  subset : ∀ node value, after.Has node value → before.Has node value
  stack : (before.backtrackStack = [] ∧ after.backtrackStack = []) ∨
    ∃ first last rest, before.backtrackStack = first :: rest ∧
      after.backtrackStack = last :: rest ∧ last.decision = first.decision ∧
      ∀ node value, after.Has node value ∨ last.Lost node value ↔
        before.Has node value ∨ first.Lost node value

theorem Prunes.refl : Prunes maxsat maxsat := by
  refine ⟨rfl, rfl, fun _ _ has => has, ?_⟩
  cases stack : maxsat.backtrackStack with
  | nil => exact Or.inl ⟨rfl, rfl⟩
  | cons frame rest => exact Or.inr ⟨frame, frame, rest, rfl, rfl, rfl, fun _ _ => Iff.rfl⟩

theorem Prunes.trans {first second third : MaxSat} (before : Prunes first second)
    (after : Prunes second third) : Prunes first third := by
  refine ⟨after.vars.trans before.vars, after.constraints.trans before.constraints,
    fun node value has => before.subset node value (after.subset node value has), ?_⟩
  rcases before.stack with ⟨empty, stillEmpty⟩ | ⟨frame, later, rest, stack, laterStack, same, lost⟩
  · rcases after.stack with ⟨_, emptyAtLast⟩ | ⟨_, _, _, stack, _⟩
    · exact Or.inl ⟨empty, emptyAtLast⟩
    · simp [stillEmpty] at stack
  · rcases after.stack with
      ⟨emptyInBetween, _⟩ | ⟨frame', last, rest', stack', lastStack, same', lost'⟩
    · simp [laterStack] at emptyInBetween
    · obtain ⟨rfl, rfl⟩ := List.cons.inj (laterStack.symm.trans stack')
      exact Or.inr ⟨frame, last, rest, stack, lastStack, same'.trans same,
        fun node value => (lost' node value).trans (lost node value)⟩

variable {before after : MaxSat}

theorem Prunes.size_le (prunes : Prunes before after) : after.size ≤ before.size := by
  unfold size
  rw [prunes.vars]
  refine sum_le_sum fun node _ => ?_
  refine countP_mono_left fun value _ has => ?_
  simp only [decide_eq_true_eq] at has ⊢
  exact prunes.subset node value has

variable {node : NodeId} {value : PartitioningPolicy}

/-- A smaller domain has fewer values. -/
theorem size_lt_of_subset (vars : after.vars = before.vars)
    (subset : ∀ node value, after.Has node value → before.Has node value)
    (member : node ∈ before.vars) (had : before.Has node value)
    (lost : ¬ after.Has node value) : after.size < before.size := by
  unfold size
  rw [vars]
  refine sum_lt_sum _ _ (fun other _ => ?_) ⟨node, member, ?_⟩
  · refine countP_mono_left fun value _ has => ?_
    simp only [decide_eq_true_eq] at has ⊢
    exact subset other value has
  · cases value <;>
      simp only [PartitioningPolicy.all, countP_cons, countP_nil, decide_eq_true_eq] <;>
      split_ifs <;> first | omega | tauto

/-- Removing a value under a condition. -/
theorem removeIf_spec (condition : Bool) (node : NodeId) (value : PartitioningPolicy) :
    Prunes maxsat (maxsat.removeIf condition node value).2 ∧
      (∀ other otherValue, (maxsat.removeIf condition node value).2.Has other otherValue ↔
        maxsat.Has other otherValue ∧ ¬ (condition = true ∧ other = node ∧ otherValue = value)) ∧
      ((maxsat.removeIf condition node value).1 = true ↔
        condition = true ∧ maxsat.Has node value) := by
  unfold removeIf removeVariableAssignment
  cases condition with
  | false => simp [Prunes.refl]
  | true =>
    rw [if_pos rfl]
    cases found : maxsat.domain node value with
    | none =>
      have absent : ¬ maxsat.Has node value := by simp [Has, found]
      refine ⟨Prunes.refl maxsat, fun other otherValue => ?_, by simp [absent]⟩
      constructor
      · intro has
        refine ⟨has, ?_⟩
        rintro ⟨_, rfl, rfl⟩
        exact absent has
      · exact And.left
    | some cost =>
      have present : maxsat.Has node value := by simp [Has, found]
      have remains : ∀ other otherValue,
          Has { maxsat.setValue node value none with
              backtrackStack := recordRemoved maxsat.backtrackStack (node, value, cost) }
            other otherValue ↔
            maxsat.Has other otherValue ∧ ¬ (true = true ∧ other = node ∧ otherValue = value) := by
        intro other otherValue
        refine (has_setValue maxsat node other value otherValue none).trans ?_
        split_ifs with same <;> simp [same]
      refine ⟨⟨rfl, rfl, fun other otherValue has => ((remains other otherValue).mp has).1, ?_⟩,
        remains, by simp [present]⟩
      cases stack : maxsat.backtrackStack with
      | nil => exact Or.inl ⟨rfl, rfl⟩
      | cons frame rest =>
        refine Or.inr ⟨frame, _, rest, rfl, rfl, rfl, fun other otherValue => ?_⟩
        rw [← stack, remains]
        have lost : BacktrackFrame.Lost
            { frame with removedAssignments :=
              frame.removedAssignments ++ [(node, value, cost)] } other otherValue ↔
              frame.Lost other otherValue ∨ (other = node ∧ otherValue = value) := by
          simp [BacktrackFrame.Lost, exists_or]
        rw [lost]
        by_cases same : other = node ∧ otherValue = value
        · obtain ⟨rfl, rfl⟩ := same
          simp [present]
        · simp [same]

/-- Removals whose variables are reported. -/
structure Pruning (before after : MaxSat × List NodeId) : Prop where
  prunes : Prunes before.1 after.1
  reported : ∀ node ∈ before.2, node ∈ after.2
  unreported : ∀ node, node ∉ after.2 → ∀ value, before.1.Has node value → after.1.Has node value
  length_le : before.2.length ≤ after.2.length
  size_lt : before.1.WellFormed → before.2.length < after.2.length → after.1.size < before.1.size

variable (state : MaxSat × List NodeId)

theorem Pruning.refl : Pruning state state :=
  ⟨Prunes.refl state.1, fun _ member => member, fun _ _ _ has => has, le_rfl,
    fun _ longer => absurd longer (lt_irrefl _)⟩

theorem Prunes.wellFormed (prunes : Prunes before after) (wellFormed : before.WellFormed) :
    after.WellFormed := by
  unfold WellFormed
  rw [prunes.constraints, prunes.vars]
  exact wellFormed

theorem Pruning.trans {first second third : MaxSat × List NodeId} (before : Pruning first second)
    (after : Pruning second third) : Pruning first third := by
  refine ⟨before.prunes.trans after.prunes,
    fun node member => after.reported node (before.reported node member), ?_,
    before.length_le.trans after.length_le, ?_⟩
  · intro node absent value has
    refine after.unreported node absent value (before.unreported node ?_ value has)
    exact fun member => absent (after.reported node member)
  · intro wellFormed longer
    have sizeBefore := before.prunes.size_le
    have sizeAfter := after.prunes.size_le
    by_cases changed : first.2.length < second.2.length
    · have := before.size_lt wellFormed changed
      omega
    · have := after.size_lt (before.prunes.wellFormed wellFormed) (by omega)
      omega

/-- A variable that is not reported keeps its domain. -/
theorem Pruning.has_iff {before after : MaxSat × List NodeId} (pruning : Pruning before after)
    (absent : node ∉ after.2) (value : PartitioningPolicy) :
    after.1.Has node value ↔ before.1.Has node value :=
  ⟨pruning.prunes.subset node value, pruning.unreported node absent value⟩

/-- Some value of `node` is compatible with `value`. -/
def Supported (maxsat : MaxSat) (node : NodeId) (value : PartitioningPolicy) : Prop :=
  ∃ other, maxsat.Has node other ∧ compatible other value

variable {affected : List NodeId}

/-- What remains after removals of values of `node`, and whether anything went. -/
theorem Pruning.of_removals (known : node ∈ before.vars)
    (prunes : Prunes before after) (modified : Bool)
    (elsewhere : ∀ other, other ≠ node → ∀ value, before.Has other value → after.Has other value)
    (noticed : modified = true ↔ ∃ value, before.Has node value ∧ ¬ after.Has node value) :
    Pruning (before, affected) (if modified then (after, node :: affected) else (after, affected)) := by
  cases modified with
  | true =>
    obtain ⟨value, had, lost⟩ := noticed.mp rfl
    refine ⟨prunes, fun other member => mem_cons_of_mem node member, ?_, by simp,
      fun _ _ => size_lt_of_subset prunes.vars prunes.subset known had lost⟩
    intro other absent
    exact elsewhere other (fun same => absent (by simp [same]))
  | false =>
    refine ⟨prunes, fun other member => member, ?_, le_rfl,
      fun _ longer => absurd longer (lt_irrefl _)⟩
    intro other _ value had
    by_cases same : other = node
    · subst same
      by_contra lost
      simpa using noticed.mpr ⟨value, had, lost⟩
    · exact elsewhere other same value had

/-- Removing every value of `node` that `lacks` names. -/
theorem removeIf_all (node : NodeId) (lacks : PartitioningPolicy → Bool) :
    let first := maxsat.removeIf (lacks .shard) node .shard
    let second := first.2.removeIf (lacks .broadcast) node .broadcast
    let third := second.2.removeIf (lacks .balance) node .balance
    Prunes maxsat third.2 ∧
      (∀ other value, third.2.Has other value ↔
        maxsat.Has other value ∧ (other = node → lacks value = false)) ∧
      ((first.1 || second.1 || third.1) = true ↔
        ∃ value, maxsat.Has node value ∧ lacks value = true) := by
  intro first second third
  obtain ⟨prunes1, has1, noticed1⟩ := removeIf_spec maxsat (lacks .shard) node .shard
  obtain ⟨prunes2, has2, noticed2⟩ := removeIf_spec first.2 (lacks .broadcast) node .broadcast
  obtain ⟨prunes3, has3, noticed3⟩ := removeIf_spec second.2 (lacks .balance) node .balance
  refine ⟨(prunes1.trans prunes2).trans prunes3, fun other value => ?_, ?_⟩
  · refine (has3 other value).trans ?_
    rw [has2 other value, has1 other value]
    cases value with
    | shard => cases lacks .shard <;> simp
    | broadcast => cases lacks .broadcast <;> simp
    | balance => cases lacks .balance <;> simp
  · rw [or_eq_true, or_eq_true, noticed1, noticed2, noticed3, has2, has1, has1]
    constructor
    · rintro ((⟨named, had⟩ | ⟨named, had⟩) | ⟨named, had⟩)
      · exact ⟨.shard, had, named⟩
      · exact ⟨.broadcast, had.1, named⟩
      · exact ⟨.balance, had.1.1, named⟩
    · rintro ⟨value, had, named⟩
      cases value with
      | shard => exact Or.inl (Or.inl ⟨named, had⟩)
      | broadcast => exact Or.inl (Or.inr ⟨named, had, by simp⟩)
      | balance => exact Or.inr ⟨named, ⟨had, by simp⟩, by simp⟩

/-- The values that `propagateInner` removes, by the other input's domain. -/
def lacksSupport (domain : Domain) : PartitioningPolicy → Bool
  | .shard => (domain .shard).isNone && (domain .broadcast).isNone
  | .broadcast => (domain .shard).isNone && (domain .balance).isNone
  | .balance => (domain .broadcast).isNone

theorem lacksSupport_eq_false (node : NodeId) (value : PartitioningPolicy) :
    lacksSupport (maxsat.domain node) value = false ↔ maxsat.Supported node value := by
  have present : ∀ policy, (maxsat.domain node policy).isNone = false ↔ maxsat.Has node policy := by
    simp [Has]
  constructor
  · intro supported
    cases value with
    | shard =>
      rcases and_eq_false_iff.mp supported with has | has
      · exact ⟨.shard, (present _).mp has, rfl⟩
      · exact ⟨.broadcast, (present _).mp has, rfl⟩
    | broadcast =>
      rcases and_eq_false_iff.mp supported with has | has
      · exact ⟨.shard, (present _).mp has, rfl⟩
      · exact ⟨.balance, (present _).mp has, rfl⟩
    | balance => exact ⟨.broadcast, (present _).mp supported, rfl⟩
  · rintro ⟨other, has, fits⟩
    have here := (present other).mpr has
    cases value <;> cases other <;>
      first
        | exact absurd fits (by decide)
        | simp [lacksSupport, here]

/-- `propagateInner` removes the values without support. -/
theorem propagateInner_spec (i1 i2 : NodeId) (state : MaxSat × List NodeId)
    (known : i2 ∈ state.1.vars) :
    Pruning state (propagateInner i1 i2 state) ∧
      ∀ node value, (propagateInner i1 i2 state).1.Has node value ↔
        state.1.Has node value ∧ (node = i2 → state.1.Supported i1 value) := by
  obtain ⟨maxsat, affected⟩ := state
  obtain ⟨prunes, has, noticed⟩ := removeIf_all maxsat i2 (lacksSupport (maxsat.domain i1))
  have remains : ∀ value, maxsat.Has i2 value ∧ lacksSupport (maxsat.domain i1) value = true ↔
      maxsat.Has i2 value ∧ ¬ (maxsat.Has i2 value ∧
        (i2 = i2 → lacksSupport (maxsat.domain i1) value = false)) := by
    simp +contextual
  have pruning := @Pruning.of_removals _ _ i2 affected known prunes _
    (fun other apart value had => (has other value).mpr ⟨had, fun same => absurd same apart⟩)
    (noticed.trans (exists_congr fun value => by rw [has i2 value]; exact remains value))
  simp only [lacksSupport_eq_false] at has
  refine ⟨pruning, fun node value => ?_⟩
  rw [← has node value]
  simp only [propagateInner, lacksSupport]
  split_ifs <;> rfl

variable (constraint : JoinConstraint)

theorem propagateLeftJoin_spec (state : MaxSat × List NodeId)
    (known : constraint.v1 ∈ state.1.vars) :
    Pruning state (propagateLeftJoin constraint state) ∧
      ∀ node value, (propagateLeftJoin constraint state).1.Has node value ↔
        state.1.Has node value ∧
          ¬ (constraint.isLeftJoin = true ∧ node = constraint.v1 ∧ value = .broadcast) := by
  obtain ⟨maxsat, affected⟩ := state
  obtain ⟨prunes, has, noticed⟩ :=
    removeIf_spec maxsat constraint.isLeftJoin constraint.v1 .broadcast
  have pruning := @Pruning.of_removals _ _ constraint.v1 affected known prunes _
    (fun other apart value had => (has other value).mpr ⟨had, fun same => apart same.2.1⟩)
    (by
      rw [noticed]
      constructor
      · rintro ⟨left, had⟩
        exact ⟨.broadcast, had, fun still => ((has _ _).mp still).2 ⟨left, rfl, rfl⟩⟩
      · rintro ⟨value, had, lost⟩
        by_contra kept
        refine lost ((has _ _).mpr ⟨had, ?_⟩)
        rintro ⟨left, -, rfl⟩
        exact kept ⟨left, had⟩)
  refine ⟨pruning, fun node value => ?_⟩
  rw [← has node value]
  simp only [propagateLeftJoin]
  split_ifs <;> rfl

/-! ## Consistent constraints -/

/-- Every value of either input has support at the other one. -/
structure Consistent (constraint : JoinConstraint) (maxsat : MaxSat) : Prop where
  leftJoin : constraint.isLeftJoin = true → ¬ maxsat.Has constraint.v1 .broadcast
  right : ∀ value, maxsat.Has constraint.v2 value → maxsat.Supported constraint.v1 value
  left : ∀ value, maxsat.Has constraint.v1 value → maxsat.Supported constraint.v2 value

theorem Supported.congr {first second : MaxSat}
    (same : ∀ value, second.Has node value ↔ first.Has node value)
    (supported : first.Supported node value) : second.Supported node value := by
  obtain ⟨other, has, fits⟩ := supported
  exact ⟨other, (same other).mpr has, fits⟩

/-- Consistency looks at the two domains of the constraint only. -/
theorem Consistent.congr {constraint : JoinConstraint} {first second : MaxSat}
    (sameLeft : ∀ value, second.Has constraint.v1 value ↔ first.Has constraint.v1 value)
    (sameRight : ∀ value, second.Has constraint.v2 value ↔ first.Has constraint.v2 value)
    (consistent : Consistent constraint first) : Consistent constraint second := by
  refine ⟨fun isLeft has => consistent.leftJoin isLeft ((sameLeft _).mp has), ?_, ?_⟩
  · intro value has
    exact (consistent.right value ((sameRight value).mp has)).congr sameLeft
  · intro value has
    exact (consistent.left value ((sameLeft value).mp has)).congr sameRight

/-- Propagating a constraint keeps its solutions, and a constraint whose variables are
not reported is consistent. -/
theorem propagate_spec
    (knownLeft : constraint.v1 ∈ state.1.vars) (knownRight : constraint.v2 ∈ state.1.vars) :
    Pruning state (propagate state constraint) ∧
      (∀ assign : NodeId → PartitioningPolicy,
        constraint.allows (assign constraint.v1) (assign constraint.v2) →
        state.1.Within assign → (propagate state constraint).1.Within assign) ∧
      (constraint.v1 ∉ (propagate state constraint).2 →
        constraint.v2 ∉ (propagate state constraint).2 →
        Consistent constraint (propagate state constraint).1) := by
  obtain ⟨first, hasFirst⟩ := propagateLeftJoin_spec constraint state knownLeft
  obtain ⟨second, hasSecond⟩ := propagateInner_spec constraint.v1 constraint.v2
    (propagateLeftJoin constraint state) (by rwa [first.prunes.vars])
  obtain ⟨third, hasThird⟩ := propagateInner_spec constraint.v2 constraint.v1
    (propagateInner constraint.v1 constraint.v2 (propagateLeftJoin constraint state))
    (by rwa [second.prunes.vars, first.prunes.vars])
  have whole := (first.trans second).trans third
  refine ⟨whole, ?_, ?_⟩
  · intro assign allowed within node member
    have fits : compatible (assign constraint.v1) (assign constraint.v2) = true := by
      simp only [JoinConstraint.allows, and_eq_true] at allowed
      exact allowed.1
    have member' : node ∈ state.1.vars := by rwa [← whole.prunes.vars]
    have afterFirst : ∀ node ∈ state.1.vars,
        (propagateLeftJoin constraint state).1.Has node (assign node) := by
      intro node member
      refine (hasFirst node _).mpr ⟨within node member, ?_⟩
      rintro ⟨isLeft, rfl, isBroadcast⟩
      simp [JoinConstraint.allows, isLeft, isBroadcast] at allowed
    have afterSecond : ∀ node ∈ state.1.vars, (propagateInner constraint.v1 constraint.v2
        (propagateLeftJoin constraint state)).1.Has node (assign node) := by
      intro node member
      refine (hasSecond node _).mpr ⟨afterFirst node member, ?_⟩
      rintro rfl
      exact ⟨_, afterFirst _ knownLeft, fits⟩
    refine (hasThird node _).mpr ⟨afterSecond node member', ?_⟩
    rintro rfl
    exact ⟨_, afterSecond _ knownRight, by rwa [compatible_comm]⟩
  · intro leftUnreported rightUnreported
    have leftBefore := fun member => leftUnreported (third.reported _ member)
    refine ⟨?_, ?_, ?_⟩
    · intro isLeft has
      have hadAtFirst := second.prunes.subset _ _ (third.prunes.subset _ _ has)
      exact ((hasFirst _ _).mp hadAtFirst).2 ⟨isLeft, rfl, rfl⟩
    · intro value has
      have supported := ((hasSecond _ _).mp (third.prunes.subset _ _ has)).2 rfl
      exact supported.congr fun other =>
        (third.has_iff leftUnreported other).trans (second.has_iff leftBefore other)
    · intro value has
      have supported := ((hasThird _ _).mp has).2 rfl
      exact supported.congr fun other => third.has_iff rightUnreported other

/-- Constraints on variables that are not affected are consistent. -/
def Settled : Prop :=
  ∀ constraint ∈ state.1.constraints, constraint.v1 ∉ state.2 → constraint.v2 ∉ state.2 →
    Consistent constraint state.1

/-- Propagating several constraints, one after the other. -/
theorem foldl_propagate_spec (constraints : List JoinConstraint) (state : MaxSat × List NodeId)
    (known : ∀ constraint ∈ constraints,
      constraint.v1 ∈ state.1.vars ∧ constraint.v2 ∈ state.1.vars) :
    Pruning state (constraints.foldl propagate state) ∧
      (∀ assign : NodeId → PartitioningPolicy,
        (∀ constraint ∈ constraints,
          constraint.allows (assign constraint.v1) (assign constraint.v2)) →
        state.1.Within assign → (constraints.foldl propagate state).1.Within assign) ∧
      ∀ constraint ∈ constraints, constraint.v1 ∉ (constraints.foldl propagate state).2 →
        constraint.v2 ∉ (constraints.foldl propagate state).2 →
        Consistent constraint (constraints.foldl propagate state).1 := by
  induction constraints generalizing state with
  | nil => exact ⟨Pruning.refl state, fun _ _ within => within, by simp⟩
  | cons constraint _ ih =>
    obtain ⟨knownLeft, knownRight⟩ := known constraint (by simp)
    obtain ⟨pruning, sound, consistent⟩ := propagate_spec state constraint knownLeft knownRight
    obtain ⟨pruningRest, soundRest, consistentRest⟩ :=
      ih (propagate state constraint) (by
        intro other member
        rw [pruning.prunes.vars]
        exact known other (mem_cons_of_mem _ member))
    refine ⟨pruning.trans pruningRest, ?_, ?_⟩
    · intro assign allowed within
      refine soundRest assign (fun other member => allowed other (mem_cons_of_mem _ member)) ?_
      exact sound assign (allowed constraint (by simp)) within
    · intro other member leftUnreported rightUnreported
      rcases mem_cons.mp member with rfl | member
      · refine Consistent.congr (pruningRest.has_iff leftUnreported)
          (pruningRest.has_iff rightUnreported) (consistent ?_ ?_)
        · exact fun member => leftUnreported (pruningRest.reported _ member)
        · exact fun member => rightUnreported (pruningRest.reported _ member)
      · exact consistentRest other member leftUnreported rightUnreported

/-- One round of propagation. -/
theorem propagateAll_spec {maxsat : MaxSat} (affected : List NodeId)
    (wellFormed : maxsat.WellFormed) :
    Pruning (maxsat, []) (maxsat.propagateAll affected) ∧
      (Settled (maxsat, affected) → Settled (maxsat.propagateAll affected)) ∧
      ∀ assign, maxsat.Satisfies assign → maxsat.Within assign →
        (maxsat.propagateAll affected).1.Within assign := by
  obtain ⟨pruning, sound, consistent⟩ := foldl_propagate_spec
    (maxsat.constraints.filter fun constraint =>
      constraint.v1 ∈ affected ∨ constraint.v2 ∈ affected) (maxsat, [])
    fun constraint member => wellFormed constraint (mem_filter.mp member).1
  refine ⟨pruning, ?_, ?_⟩
  · intro settled constraint member leftUnreported rightUnreported
    have member' : constraint ∈ maxsat.constraints := by
      rwa [← pruning.prunes.constraints]
    by_cases evaluated : constraint.v1 ∈ affected ∨ constraint.v2 ∈ affected
    · exact consistent constraint (by simp [member', evaluated]) leftUnreported rightUnreported
    · obtain ⟨leftUnaffected, rightUnaffected⟩ := not_or.mp evaluated
      exact (settled constraint member' leftUnaffected rightUnaffected).congr
        (pruning.has_iff leftUnreported) (pruning.has_iff rightUnreported)
  · intro assign satisfies within
    exact sound assign
      (fun constraint member => satisfies constraint (mem_filter.mp member).1) within

end MaxSat

end OpenDera.Balance
