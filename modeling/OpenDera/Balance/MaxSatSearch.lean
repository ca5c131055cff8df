import OpenDera.Balance.MaxSat

/-!
# The search finds a solution whenever there is one

From a state in which every constraint on unaffected variables is consistent, the
loop either finishes with a solution or comes back to the same stack with a
conflict, and then the domains it started from hold no solution. The proof is by
induction on the number of values left; a decision removes one value, and so does
its undoing.
-/

namespace OpenDera.Balance.MaxSat

open List Option Or

/-! ## Values and decisions -/

variable {maxsat : MaxSat} {node : NodeId} {value : PartitioningPolicy} {cost : Cost}

theorem mem_values : (value, cost) ∈ maxsat.values node ↔ maxsat.domain node value = some cost := by
  unfold values
  simp [PartitioningPolicy.mem_all]

theorem values_isEmpty : maxsat.values node = [] ↔ ∀ value, ¬ maxsat.Has node value := by
  unfold values Has
  simp [filterMap_eq_nil_iff, PartitioningPolicy.mem_all]

/-- A domain with one value left has no other one. -/
theorem eq_of_length_values (single : (maxsat.values node).length ≤ 1)
    {first second : PartitioningPolicy} (hasFirst : maxsat.Has node first)
    (hasSecond : maxsat.Has node second) : first = second := by
  obtain ⟨firstCost, foundFirst⟩ := isSome_iff_exists.mp hasFirst
  obtain ⟨secondCost, foundSecond⟩ := isSome_iff_exists.mp hasSecond
  have memberFirst := mem_values.mpr foundFirst
  have memberSecond := mem_values.mpr foundSecond
  match values : maxsat.values node with
  | [] => simp [values] at memberFirst
  | [entry] =>
    rw [values, mem_singleton] at memberFirst memberSecond
    rw [← memberSecond] at memberFirst
    exact congrArg Prod.fst memberFirst
  | _ :: _ :: _ => simp [values] at single

/-- A domain with several values has one besides any given one. -/
theorem exists_other (several : 1 < (maxsat.values node).length) (value : PartitioningPolicy) :
    ∃ other, other ≠ value ∧ maxsat.Has node other := by
  by_contra none
  push Not at none
  have only : ∀ policy, policy ≠ value → maxsat.domain node policy = Option.none := by
    intro policy apart
    simpa [Has] using none policy apart
  unfold values PartitioningPolicy.all at several
  cases value <;> simp only [filterMap_cons, filterMap_nil] at several <;>
    simp [only] at several <;> split at several <;> simp at several

/-- Keeping the best of a list yields one of its elements, or nothing of the empty list. -/
theorem foldl_highest (candidates : List (NodeId × PartitioningPolicy × Cost))
    (start : Option (NodeId × PartitioningPolicy × Cost)) :
    let highest := candidates.foldl
      (fun highest candidate =>
        match highest with
        | none => some candidate
        | some best => if best.2.2 < candidate.2.2 then some candidate else some best) start
    (∀ best, highest = some best → start = some best ∨ best ∈ candidates) ∧
      (highest = none → start = none ∧ candidates = []) := by
  induction candidates generalizing start with
  | nil => simp
  | cons candidate _ ih =>
    obtain ⟨found, empty⟩ := ih (match start with
      | none => some candidate
      | some best => if best.2.2 < candidate.2.2 then some candidate else some best)
    refine ⟨fun best chosen => ?_, fun nothing => ?_⟩
    · rcases found best chosen with kept | member
      · cases start with
        | none => exact inr (by simp [some.inj kept])
        | some =>
          simp only at kept
          split_ifs at kept
          · exact inr (by simp [some.inj kept])
          · exact inl kept
      · exact inr (mem_cons_of_mem _ member)
    · have none := (empty nothing).1
      cases start with
      | none => simp at none
      | some =>
        simp only at none
        split_ifs at none

/-- The value that is removed belongs to a domain with several values. -/
theorem highestCost_some
    (chosen : maxsat.highestCostVariableAssignment = some (node, value, cost)) :
    node ∈ maxsat.vars ∧ maxsat.Has node value ∧ 1 < (maxsat.values node).length := by
  obtain impossible | member := (foldl_highest _ none).1 _ chosen
  · cases impossible
  obtain ⟨candidateNode, known, candidate⟩ := mem_flatMap.mp member
  split_ifs at candidate with single
  · simp at candidate
  · obtain ⟨entry, entryMember, same⟩ := mem_map.mp candidate
    obtain ⟨rfl, rfl⟩ := Prod.mk.inj same
    refine ⟨known, ?_, by omega⟩
    simp [Has, mem_values.mp entryMember]

/-- Without a value to remove, every domain has at most one. -/
theorem highestCost_none (nothing : maxsat.highestCostVariableAssignment = none)
    (known : node ∈ maxsat.vars) : (maxsat.values node).length ≤ 1 := by
  have empty := ((foldl_highest _ none).2 nothing).2
  have candidates := flatMap_eq_nil_iff.mp empty node known
  split_ifs at candidates with single
  · exact single
  · rw [map_eq_nil_iff] at candidates
    simp [candidates]

/-! ## Backtracking -/

theorem has_decision (maxsat : MaxSat) (node : NodeId) (value : PartitioningPolicy) (cost : Cost)
    (other : NodeId) (otherValue : PartitioningPolicy) :
    (maxsat.decision (node, value, cost)).Has other otherValue ↔
      maxsat.Has other otherValue ∧ ¬ (other = node ∧ otherValue = value) := by
  refine (has_setValue maxsat node other value otherValue none).trans ?_
  split_ifs with same <;> simp [same]

variable (removed : List (NodeId × PartitioningPolicy × Cost))

theorem has_restore (maxsat : MaxSat) (node : NodeId) (value : PartitioningPolicy) : (removed.foldl
      (fun maxsat removed => maxsat.setValue removed.1 removed.2.1 (some removed.2.2)) maxsat).Has
        node value ↔
      maxsat.Has node value ∨ ∃ cost, (node, value, cost) ∈ removed := by
  induction removed generalizing maxsat with
  | nil => simp
  | cons entry _ ih =>
    obtain ⟨lostNode, lostValue, lostCost⟩ := entry
    rw [foldl_cons, ih, has_setValue]
    by_cases same : node = lostNode ∧ value = lostValue
    · obtain ⟨rfl, rfl⟩ := same
      simp
    · rw [if_neg same]
      refine or_congr_right (exists_congr fun cost => ?_)
      rw [mem_cons, or_iff_right]
      rintro equal
      obtain ⟨rfl, rest⟩ := Prod.mk.inj equal
      exact same ⟨rfl, (Prod.mk.inj rest).1⟩

theorem restore_frame (maxsat : MaxSat) :
    let restored := removed.foldl
      (fun maxsat removed => maxsat.setValue removed.1 removed.2.1 (some removed.2.2)) maxsat
    restored.vars = maxsat.vars ∧ restored.constraints = maxsat.constraints ∧
      restored.backtrackStack = maxsat.backtrackStack := by
  induction removed generalizing maxsat with
  | nil => exact ⟨rfl, rfl, rfl⟩
  | cons _ _ ih => exact ih _

/-- Removing listed values of one variable. -/
theorem clear_spec (maxsat : MaxSat) (node : NodeId) (listed : List (PartitioningPolicy × Cost)) :
    let cleared := listed.foldl
      (fun maxsat value => (maxsat.removeVariableAssignment node value.1).2) maxsat
    Prunes maxsat cleared ∧ ∀ other otherValue, cleared.Has other otherValue ↔
      maxsat.Has other otherValue ∧ ¬ (other = node ∧ ∃ cost, (otherValue, cost) ∈ listed) := by
  induction listed generalizing maxsat with
  | nil => exact ⟨Prunes.refl maxsat, by simp⟩
  | cons entry _ ih =>
    obtain ⟨value, cost⟩ := entry
    obtain ⟨prunes, has, -⟩ := removeIf_spec maxsat true node value
    obtain ⟨prunesRest, hasRest⟩ :=
      ih (maxsat.removeVariableAssignment node value).2
    refine ⟨prunes.trans prunesRest, fun other otherValue => ?_⟩
    refine (hasRest other otherValue).trans ?_
    rw [show (maxsat.removeVariableAssignment node value).2.Has other otherValue ↔
      maxsat.Has other otherValue ∧ ¬ (true = true ∧ other = node ∧ otherValue = value) from
        has other otherValue]
    simp only [mem_cons, Prod.mk.injEq]
    constructor
    · rintro ⟨⟨had, apart⟩, unlisted⟩
      refine ⟨had, ?_⟩
      rintro ⟨same, otherCost, ⟨rfl, -⟩ | member⟩
      · exact apart ⟨trivial, same, rfl⟩
      · exact unlisted ⟨same, otherCost, member⟩
    · rintro ⟨had, unlisted⟩
      refine ⟨⟨had, ?_⟩, ?_⟩
      · rintro ⟨-, same, rfl⟩
        exact unlisted ⟨same, cost, inl ⟨rfl, rfl⟩⟩
      · rintro ⟨same, otherCost, member⟩
        exact unlisted ⟨same, otherCost, inr member⟩

/-- Undoing a decision leaves the decided value as the only one of its variable and
all other domains as they were when the decision was taken. -/
theorem backtrack_spec {maxsat below : MaxSat} (had : maxsat.Has node value)
    (prunes : Prunes (maxsat.decision (node, value, cost)) below) :
    ∃ next, below.backtrack = .ok (next, [node]) ∧ Prunes maxsat next ∧
      ∀ other otherValue, next.Has other otherValue ↔
        maxsat.Has other otherValue ∧ (other = node → otherValue = value) := by
  obtain ⟨empty, -⟩ | ⟨first, last, rest, stack, belowStack, sameDecision, lost⟩ := prunes.stack
  · simp [MaxSat.decision] at empty
  obtain ⟨rfl, rfl⟩ := cons.inj stack
  -- Whatever was lost below the decision comes back.
  have restoredHas := has_restore last.removedAssignments
    { below with backtrackStack := maxsat.backtrackStack }
  obtain ⟨restoredVars, restoredConstraints, restoredStack⟩ := restore_frame last.removedAssignments
    { below with backtrackStack := maxsat.backtrackStack }
  unfold backtrack
  rw [belowStack]
  simp only [sameDecision]
  generalize foldl _ { below with backtrackStack := maxsat.backtrackStack }
    last.removedAssignments = restored at *
  have asBefore : ∀ other otherValue, restored.Has other otherValue ↔
      maxsat.Has other otherValue ∧ ¬ (other = node ∧ otherValue = value) := by
    intro other otherValue
    rw [restoredHas, ← has_decision maxsat node value cost]
    refine (lost other otherValue).trans ?_
    simp [BacktrackFrame.Lost]
  obtain ⟨clearPrunes, clearedHas⟩ := clear_spec restored node (restored.values node)
  generalize foldl _ restored (restored.values node) = cleared at *
  have remains : ∀ other otherValue, cleared.Has other otherValue ↔
      maxsat.Has other otherValue ∧ other ≠ node := by
    intro other otherValue
    rw [clearedHas, asBefore]
    by_cases same : other = node
    · subst same
      simp only [true_and, ne_eq, not_true_eq_false, and_false, iff_false, not_and, not_not]
      rintro ⟨has, apart⟩
      have inRestored := (asBefore other otherValue).mpr ⟨has, by simpa using apart⟩
      obtain ⟨otherCost, found⟩ := isSome_iff_exists.mp inRestored
      exact ⟨otherCost, mem_values.mpr found⟩
    · simp [same]
  have nextHas : ∀ other otherValue, (cleared.setValue node value (some cost)).Has other otherValue ↔
      maxsat.Has other otherValue ∧ (other = node → otherValue = value) := by
    intro other otherValue
    rw [has_setValue, remains]
    by_cases same : other = node
    · subst same
      by_cases sameValue : otherValue = value
      · subst sameValue
        simp [had]
      · simp [sameValue]
    · simp [same]
  refine ⟨_, rfl, ⟨?_, ?_, fun other otherValue has => ((nextHas other otherValue).mp has).1, ?_⟩,
    nextHas⟩
  · exact (clearPrunes.vars.trans restoredVars).trans prunes.vars
  · exact (clearPrunes.constraints.trans restoredConstraints).trans prunes.constraints
  · rcases clearPrunes.stack with ⟨empty, stillEmpty⟩ | ⟨frame, later, rest, stack, laterStack, same, lostLater⟩
    · exact inl ⟨by rw [← restoredStack]; exact empty, stillEmpty⟩
    · refine inr ⟨frame, later, rest, by rw [← restoredStack]; exact stack, laterStack, same, ?_⟩
      intro other otherValue
      have atLater := lostLater other otherValue
      rw [remains, asBefore] at atLater
      rw [nextHas]
      by_cases decided : other = node ∧ otherValue = value
      · obtain ⟨rfl, rfl⟩ := decided
        simp [had]
      · simp only [decided, not_false_eq_true, and_true] at atLater
        rw [← atLater]
        refine or_congr_left (and_congr_right fun _ => ?_)
        constructor
        · intro chosen same
          exact decided ⟨same, chosen same⟩
        · intro apart same
          exact absurd same apart

/-! ## The search -/

theorem conflict_iff :
    maxsat.conflict = true ↔ ∃ node ∈ maxsat.vars, ∀ value, ¬ maxsat.Has node value := by
  simp [conflict, List.isEmpty_iff, values_isEmpty]

/-- The loop is about to return a solution that lies in the domains of `start`. -/
structure Solved (start : MaxSat) (last : MaxSat × List NodeId) : Prop where
  finishes : solveStep last = .inl (.ok last.1.assignment)
  solution : ∃ assign, last.1.assignment = start.vars.map (fun node => (node, assign node)) ∧
    start.Satisfies assign ∧ start.Within assign

/-- A solution in smaller domains is one in the domains before. -/
theorem Solved.of_subset {start next : MaxSat} {last : MaxSat × List NodeId}
    (solved : Solved next last) (vars : next.vars = start.vars)
    (constraints : next.constraints = start.constraints)
    (subset : ∀ node value, next.Has node value → start.Has node value) : Solved start last := by
  obtain ⟨assign, result, satisfies, within⟩ := solved.solution
  refine ⟨solved.finishes, assign, vars ▸ result, ?_, ?_⟩
  · exact fun constraint member => satisfies constraint (constraints ▸ member)
  · exact fun node known => subset _ _ (within node (vars ▸ known))

/-- The loop has a conflict at the stack of `start`, whose domains hold no solution. -/
structure Refuted (start : MaxSat) (last : MaxSat × List NodeId) : Prop where
  unaffected : last.2 = []
  conflict : last.1.conflict = true
  prunes : Prunes start last.1
  unsolvable : ∀ assign, start.Satisfies assign → ¬ start.Within assign

/-- The loop comes to a solution or to a refutation. -/
def Decided (bound : Nat) (state : MaxSat × List NodeId) : Prop :=
  ∃ count last, Loop.Steps solveStep count state last ∧ count ≤ bound ∧
    (Solved state.1 last ∨ Refuted state.1 last)

/-- With one consistent value for every variable the instance is solved. -/
theorem solved_of_single (wellFormed : maxsat.WellFormed) (settled : Settled (maxsat, []))
    (noConflict : maxsat.conflict = false) (nothing : maxsat.highestCostVariableAssignment = none) :
    Solved maxsat (maxsat, []) := by
  have found : ∀ node ∈ maxsat.vars, ∃ value, maxsat.Has node value ∧
      ∃ cost rest, maxsat.values node = (value, cost) :: rest := by
    intro node known
    match values : maxsat.values node with
    | [] =>
      have empty := conflict_iff.mpr ⟨node, known, values_isEmpty.mp values⟩
      simp [noConflict] at empty
    | (value, cost) :: rest =>
      have here : (value, cost) ∈ maxsat.values node := by simp [values]
      simp [Has, mem_values.mp here]
  have : Nonempty PartitioningPolicy := ⟨.shard⟩
  choose! assign within listed using found
  refine ⟨by simp [solveStep, noConflict, nothing], assign, ?_, ?_, within⟩
  · unfold assignment
    rw [← filterMap_eq_map]
    refine filterMap_congr fun node known => ?_
    obtain ⟨cost, rest, values⟩ := listed node known
    simp [values]
  · intro constraint member
    obtain ⟨knownLeft, knownRight⟩ := wellFormed constraint member
    have consistent := settled constraint member (by simp) (by simp)
    obtain ⟨other, hasOther, fits⟩ := consistent.right _ (within _ knownRight)
    rw [eq_of_length_values (highestCost_none nothing knownLeft) hasOther (within _ knownLeft)] at fits
    simp only [JoinConstraint.allows, fits, Bool.true_and, Bool.not_eq_true', Bool.and_eq_false_iff,
      beq_eq_false_iff_ne, ne_eq]
    by_cases isLeft : constraint.isLeftJoin = true
    · refine inr fun isBroadcast => consistent.leftJoin isLeft ?_
      rw [← isBroadcast]
      exact within _ knownLeft
    · exact inl (by simpa using isLeft)

variable {bound : Nat} {state next : MaxSat × List NodeId}

/-- Steps that keep the solutions can be put in front. -/
theorem Decided.of_steps {count : Nat} (front : Loop.Steps solveStep count state next)
    (prunes : Prunes state.1 next.1)
    (sound : ∀ assign, state.1.Satisfies assign → state.1.Within assign → next.1.Within assign)
    (decided : Decided bound next) : Decided (count + bound) state := by
  obtain ⟨more, last, steps, bounded, outcome⟩ := decided
  refine ⟨count + more, last, front.trans steps, by omega, ?_⟩
  rcases outcome with solved | refuted
  · exact inl (solved.of_subset prunes.vars prunes.constraints prunes.subset)
  · refine inr ⟨refuted.unaffected, refuted.conflict, prunes.trans refuted.prunes, ?_⟩
    intro assign satisfies within
    refine refuted.unsolvable assign ?_ (sound assign satisfies within)
    exact fun constraint member => satisfies constraint (prunes.constraints ▸ member)

theorem Decided.mono {first second : Nat} (decided : Decided first state) (le : first ≤ second) :
    Decided second state := by
  obtain ⟨count, last, steps, bounded, outcome⟩ := decided
  exact ⟨count, last, steps, bounded.trans le, outcome⟩

/-- A settled state whose domains change at one variable is settled but for that variable. -/
theorem Settled.narrow {next : MaxSat} (settled : Settled (maxsat, []))
    (constraints : next.constraints = maxsat.constraints)
    (agrees : ∀ other ≠ node, ∀ policy, next.Has other policy ↔ maxsat.Has other policy) :
    Settled (next, [node]) := by
  intro constraint member leftApart rightApart
  rw [constraints] at member
  exact Consistent.congr (agrees _ (by simpa using leftApart)) (agrees _ (by simpa using rightApart))
    (settled constraint member (by simp) (by simp))

/-- A quiet state is decided if the states with fewer values are. -/
theorem decided_of_quiet (wellFormed : maxsat.WellFormed) (settled : Settled (maxsat, []))
    (smaller : ∀ state : MaxSat × List NodeId, state.1.size < maxsat.size → state.1.WellFormed →
      Settled state → Decided bound state) :
    Decided (2 * bound + 2) (maxsat, []) := by
  cases conflict : maxsat.conflict with
  | true =>
    refine ⟨0, (maxsat, []), .refl _, by omega, inr ⟨rfl, conflict, Prunes.refl maxsat, ?_⟩⟩
    intro assign _ within
    obtain ⟨node, known, empty⟩ := conflict_iff.mp conflict
    exact empty _ (within node known)
  | false =>
    cases chosen : maxsat.highestCostVariableAssignment with
    | none =>
      exact ⟨0, (maxsat, []), .refl _, by omega,
        inl (solved_of_single wellFormed settled conflict chosen)⟩
    | some highest =>
      obtain ⟨node, value, cost⟩ := highest
      obtain ⟨known, had, several⟩ := highestCost_some chosen
      obtain ⟨other, apart, hasOther⟩ := exists_other several value
      have decides : solveStep (maxsat, []) =
          .inr (maxsat.decision (node, value, cost), [node]) := by
        simp [solveStep, conflict, chosen]
      have subset : ∀ other policy, (maxsat.decision (node, value, cost)).Has other policy →
          maxsat.Has other policy := fun _ _ has => ((has_decision ..).mp has).1
      have fewer : (maxsat.decision (node, value, cost)).size < maxsat.size :=
        size_lt_of_subset rfl subset known had fun has =>
          ((has_decision ..).mp has).2 ⟨rfl, rfl⟩
      have stillSettled : Settled (maxsat.decision (node, value, cost), [node]) :=
        settled.narrow rfl fun other apart policy => by simp [has_decision, apart]
      obtain ⟨firstCount, first, firstSteps, firstBound, outcome⟩ :=
        smaller (maxsat.decision (node, value, cost), [node]) fewer wellFormed stillSettled
      rcases outcome with solved | refuted
      · exact ⟨firstCount + 1, first, .step decides firstSteps, by omega,
          inl (solved.of_subset rfl rfl subset)⟩
      · obtain ⟨unaffected, firstConflict, prunes, unsolvable⟩ := refuted
        obtain ⟨next, undone, prunesNext, nextHas⟩ := backtrack_spec had prunes
        have returns : solveStep first = .inr (next, [node]) := by
          obtain ⟨below, affected⟩ := first
          obtain rfl : affected = [] := unaffected
          simp [solveStep, firstConflict, undone]
        have fewerNext : next.size < maxsat.size := by
          refine size_lt_of_subset prunesNext.vars prunesNext.subset known hasOther ?_
          exact fun has => apart (((nextHas ..).mp has).2 rfl)
        have settledNext : Settled (next, [node]) :=
          settled.narrow prunesNext.constraints fun other apart policy => by simp [nextHas, apart]
        have steps := (Loop.Steps.step decides firstSteps).trans (.step returns (.refl _))
        refine (Decided.of_steps steps prunesNext (fun assign satisfies within => ?_) (smaller
          (next, [node]) fewerNext (prunesNext.wellFormed wellFormed) settledNext)).mono (by omega)
        by_cases decided : assign node = value
        · intro member inside
          rw [prunesNext.vars] at inside
          refine (nextHas ..).mpr ⟨within member inside, ?_⟩
          rintro rfl
          exact decided
        · refine absurd (fun member inside => ?_) (unsolvable assign satisfies)
          refine (has_decision ..).mpr ⟨within member inside, ?_⟩
          rintro ⟨rfl, same⟩
          exact decided same

/-- A settled state is decided if quiet states of its size and all smaller ones are. -/
theorem decided_of_rounds (wellFormed : state.1.WellFormed) (settled : Settled state)
    (quiet : ∀ maxsat : MaxSat, maxsat.size ≤ state.1.size → maxsat.WellFormed →
      Settled (maxsat, []) → Decided bound (maxsat, []))
    (smaller : ∀ next : MaxSat × List NodeId, next.1.size < state.1.size → next.1.WellFormed →
      Settled next → Decided bound next) :
    Decided (bound + 1) state := by
  obtain ⟨maxsat, affected⟩ := state
  by_cases unaffected : affected = []
  · subst unaffected
    exact (quiet maxsat le_rfl wellFormed settled).mono (by omega)
  · obtain ⟨pruning, settles, sound⟩ := propagateAll_spec affected wellFormed
    have settledNext := settles settled
    have goesOn : solveStep (maxsat, affected) = .inr (maxsat.propagateAll affected) := by
      simp [solveStep, unaffected]
    have wellFormedNext := pruning.prunes.wellFormed wellFormed
    rw [Nat.add_comm]
    refine Decided.of_steps (.step goesOn (.refl _)) pruning.prunes sound ?_
    by_cases done : (maxsat.propagateAll affected).2 = []
    · have split : maxsat.propagateAll affected = ((maxsat.propagateAll affected).1, []) :=
        Prod.ext rfl done
      rw [split] at settledNext ⊢
      exact quiet _ pruning.prunes.size_le wellFormedNext settledNext
    · refine smaller _ (pruning.size_lt wellFormed ?_) wellFormedNext settledNext
      exact length_pos_of_ne_nil done

/-- Every settled state is decided. -/
theorem decided_of_settled (bound : Nat) (state : MaxSat × List NodeId)
    (small : state.1.size ≤ bound) (wellFormed : state.1.WellFormed) (settled : Settled state) :
    Decided (6 * 2 ^ bound - 3) state := by
  induction bound generalizing state with
  | zero =>
    refine decided_of_rounds wellFormed settled (fun maxsat le wellFormed settled => ?_)
      (fun next fewer => by omega)
    refine @decided_of_quiet maxsat 0 wellFormed settled fun state fewer => ?_
    omega
  | succ bound ih =>
    have positive := Nat.one_le_two_pow (n := bound)
    have enough : 2 * (6 * 2 ^ bound - 3) + 2 + 1 = 6 * 2 ^ (bound + 1) - 3 := by
      omega
    rw [← enough]
    refine decided_of_rounds wellFormed settled (fun maxsat le wellFormed settled => ?_)
      (fun next fewer wellFormed settled => ?_)
    · exact decided_of_quiet wellFormed settled fun state fewer =>
        ih state (by omega)
    · exact (ih next (by omega) wellFormed settled).mono (by omega)

variable (maxsat)

theorem size_le : maxsat.size ≤ 3 * maxsat.vars.length := by
  unfold size
  have each : ∀ count ∈ maxsat.vars.map (fun node =>
      PartitioningPolicy.all.countP fun value => maxsat.Has node value), count ≤ 3 := by
    intro count member
    obtain ⟨node, -, rfl⟩ := mem_map.mp member
    exact countP_le_length
  have total := sum_le_card_nsmul _ 3 each
  simpa [Nat.mul_comm] using total

/-- The solver returns a solution if there is one and an error if there is none. -/
theorem solve_spec (wellFormed : maxsat.WellFormed)
    (noDecisions : maxsat.backtrackStack = []) (noConflict : maxsat.conflict = false) :
    (∃ assign, maxsat.solve = some (.ok (maxsat.vars.map fun node => (node, assign node))) ∧
      maxsat.Satisfies assign ∧ maxsat.Within assign) ∨
    (maxsat.solve = some (.error .noSolution) ∧
      ∀ assign, maxsat.Satisfies assign → ¬ maxsat.Within assign) := by
  have settled : Settled (maxsat, maxsat.vars) := by
    intro constraint member leftApart
    exact absurd (wellFormed constraint member).1 leftApart
  obtain ⟨count, last, steps, bounded, outcome⟩ :=
    decided_of_settled (3 * maxsat.vars.length) (maxsat, maxsat.vars) maxsat.size_le wellFormed
      settled
  have positive := Nat.one_le_two_pow (n := 3 * maxsat.vars.length)
  have enough : count < maxsat.searchBound := by
    unfold searchBound
    omega
  unfold solve
  rw [noConflict, if_neg (by simp)]
  rcases outcome with solved | refuted
  · obtain ⟨assign, result, satisfies, within⟩ := solved.solution
    refine inl ⟨assign, ?_, satisfies, within⟩
    rw [steps.run_eq solved.finishes enough, result]
  · refine inr ⟨?_, refuted.unsolvable⟩
    have emptyStack : last.1.backtrackStack = [] := by
      rcases refuted.prunes.stack with ⟨-, empty⟩ | ⟨frame, _, rest, stack, -⟩
      · exact empty
      · rw [show maxsat.backtrackStack = frame :: rest from stack] at noDecisions
        cases noDecisions
    have fails : solveStep last = .inl (.error .noSolution) := by
      obtain ⟨below, affected⟩ := last
      obtain rfl : affected = [] := refuted.unaffected
      have conflict : below.conflict = true := refuted.conflict
      have stack : below.backtrackStack = [] := emptyStack
      simp [solveStep, conflict, backtrack, stack]
    exact steps.run_eq fails enough

end OpenDera.Balance.MaxSat
