import OpenDera.Balance.MaxSatSearch

/-!
# What the search keeps

A choice takes a value out of a domain and is open until the search comes back to it
with a conflict. `Explores` describes the search below the last open choice, in which
other choices were made, failed and were undone; `Visits` says below which open
choices the loop is.
-/

namespace OpenDera.Balance.MaxSat

/-- The search from the start or from an open choice: rounds of propagation, and choices
that failed and were undone. -/
inductive Explores : MaxSat → MaxSat → Prop where
  | refl (maxsat : MaxSat) : Explores maxsat maxsat
  | propagate {first maxsat : MaxSat} (explores : Explores first maxsat) (affected : List NodeId) :
    Explores first (maxsat.propagateAll affected).1
  | undo {first maxsat failed : MaxSat} {highest : NodeId × PartitioningPolicy × Cost}
    {next : MaxSat × List NodeId} (explores : Explores first maxsat)
    (chosen : maxsat.highestCostVariableAssignment = some highest)
    (search : Explores (maxsat.decision highest) failed) (conflict : failed.conflict = true)
    (undone : failed.backtrack = .ok next) : Explores first next.1

/-- The search comes to a state under the open choices, each of which removed a value. -/
inductive Visits (start : MaxSat) : List (NodeId × PartitioningPolicy × Cost) → MaxSat → Prop where
  | top {maxsat : MaxSat} (explores : Explores start maxsat) : Visits start [] maxsat
  | under {choices : List (NodeId × PartitioningPolicy × Cost)} {before maxsat : MaxSat}
    {highest : NodeId × PartitioningPolicy × Cost} (visits : Visits start choices before)
    (chosen : before.highestCostVariableAssignment = some highest)
    (explores : Explores (before.decision highest) maxsat) :
    Visits start (highest :: choices) maxsat

variable {start first maxsat next : MaxSat} {choices : List (NodeId × PartitioningPolicy × Cost)}
  {assign : NodeId → PartitioningPolicy}

/-- The solutions in the domains before are in the domains after. -/
def Keeps (before after : MaxSat) : Prop :=
  ∀ assign, before.Satisfies assign → before.Within assign → after.Within assign

theorem Prunes.satisfies (prunes : Prunes first maxsat) (satisfies : first.Satisfies assign) :
    maxsat.Satisfies assign :=
  fun constraint member => satisfies constraint (prunes.constraints ▸ member)

theorem Keeps.trans (keeps : Keeps first maxsat) (prunes : Prunes first maxsat)
    (keepsNext : Keeps maxsat next) : Keeps first next := by
  intro assign satisfies within
  exact keepsNext assign (prunes.satisfies satisfies) (keeps assign satisfies within)

/-- A conflict refutes the last choice, so that its undoing loses no solution. -/
theorem backtrack_keeps {failed : MaxSat} {highest : NodeId × PartitioningPolicy × Cost}
    (chosen : maxsat.highestCostVariableAssignment = some highest)
    (prunes : Prunes (maxsat.decision highest) failed) (keeps : Keeps (maxsat.decision highest) failed)
    (conflict : failed.conflict = true) :
    ∃ next, failed.backtrack = .ok (next, [highest.1]) ∧ Prunes maxsat next ∧ Keeps maxsat next ∧
      ∀ other value, next.Has other value ↔
        maxsat.Has other value ∧ (other = highest.1 → value = highest.2.1) := by
  obtain ⟨node, value, cost⟩ := highest
  obtain ⟨-, had, -⟩ := highestCost_some chosen
  obtain ⟨next, undone, prunesNext, has⟩ := backtrack_spec had prunes
  refine ⟨next, undone, prunesNext, fun assign satisfies within other known => ?_, has⟩
  rw [prunesNext.vars] at known
  refine (has ..).mpr ⟨within other known, ?_⟩
  rintro rfl
  by_contra avoided
  obtain ⟨empty, inside, none⟩ := conflict_iff.mp conflict
  refine none _ (keeps assign satisfies (fun member here => ?_) empty inside)
  refine (has_decision ..).mpr ⟨within member here, ?_⟩
  rintro ⟨rfl, same⟩
  exact avoided same

/-- The search below a choice records what it removes and loses no solution. -/
theorem Explores.spec (explores : Explores first maxsat) (wellFormed : first.WellFormed) :
    Prunes first maxsat ∧ Keeps first maxsat := by
  induction explores with
  | refl => exact ⟨Prunes.refl _, fun _ _ within => within⟩
  | propagate _ affected ih =>
    obtain ⟨prunes, keeps⟩ := ih wellFormed
    obtain ⟨pruning, -, sound⟩ := propagateAll_spec affected (prunes.wellFormed wellFormed)
    exact ⟨prunes.trans pruning.prunes, keeps.trans prunes sound⟩
  | undo _ chosen _ conflict undone ih ihSearch =>
    obtain ⟨prunes, keeps⟩ := ih wellFormed
    obtain ⟨prunesSearch, keepsSearch⟩ := ihSearch (prunes.wellFormed wellFormed)
    obtain ⟨next, backtracks, prunesNext, keepsNext, -⟩ :=
      backtrack_keeps chosen prunesSearch keepsSearch conflict
    obtain rfl := Except.ok.inj (undone.symm.trans backtracks)
    exact ⟨prunes.trans prunesNext, keeps.trans prunes keepsNext⟩

/-- The solutions that take none of the values removed by open choices are kept. -/
theorem Visits.keeps (visits : Visits start choices maxsat) (wellFormed : start.WellFormed)
    (satisfies : start.Satisfies assign) (within : start.Within assign)
    (avoids : ∀ choice ∈ choices, assign choice.1 ≠ choice.2.1) :
    maxsat.WellFormed ∧ maxsat.Satisfies assign ∧ maxsat.Within assign := by
  induction visits with
  | top explores =>
    obtain ⟨prunes, keeps⟩ := explores.spec wellFormed
    exact ⟨prunes.wellFormed wellFormed, prunes.satisfies satisfies, keeps assign satisfies within⟩
  | under _ _ explores ih =>
    rw [List.forall_mem_cons] at avoids
    obtain ⟨formed, meets, inside⟩ := ih avoids.2
    obtain ⟨prunes, keeps⟩ := explores.spec formed
    refine ⟨prunes.wellFormed formed, prunes.satisfies meets, keeps assign meets fun node known => ?_⟩
    refine (has_decision ..).mpr ⟨inside node known, ?_⟩
    rintro ⟨rfl, taken⟩
    exact avoids.1 taken

/-- One iteration of the loop goes from a visited state to a visited one. -/
theorem Visits.step {state later : MaxSat × List NodeId} (visits : Visits start choices state.1)
    (wellFormed : start.WellFormed) (noDecisions : start.backtrackStack = [])
    (goesOn : solveStep state = .inr later) : ∃ choices, Visits start choices later.1 := by
  unfold solveStep at goesOn
  dsimp only at goesOn
  split_ifs at goesOn with pending conflict
  · obtain rfl := Sum.inr.inj goesOn
    cases visits with
    | top explores => exact ⟨_, .top (explores.propagate _)⟩
    | under visits chosen explores => exact ⟨_, visits.under chosen (explores.propagate _)⟩
  · cases undone : state.1.backtrack with
    | error => simp [undone] at goesOn
    | ok =>
      rw [undone] at goesOn
      obtain rfl := Sum.inr.inj goesOn
      cases visits with
      | top explores =>
        -- Without an open choice there is nothing to undo.
        obtain ⟨-, empty⟩ | ⟨_, _, _, stack, -⟩ := (explores.spec wellFormed).1.stack
        · simp [backtrack, empty] at undone
        · exact absurd (noDecisions.symm.trans stack) (by simp)
      | under visits chosen search =>
        cases visits with
        | top explores => exact ⟨_, .top (explores.undo chosen search conflict undone)⟩
        | under visits earlier explores =>
          exact ⟨_, visits.under earlier (explores.undo chosen search conflict undone)⟩
  · cases chosen : state.1.highestCostVariableAssignment with
    | none => simp [chosen] at goesOn
    | some =>
      rw [chosen] at goesOn
      obtain rfl := Sum.inr.inj goesOn
      exact ⟨_, visits.under chosen (.refl _)⟩

theorem Visits.steps {count : Nat} {state later : MaxSat × List NodeId}
    (steps : Loop.Steps solveStep count state later) (visits : Visits start choices state.1)
    (wellFormed : start.WellFormed) (noDecisions : start.backtrackStack = []) :
    ∃ choices, Visits start choices later.1 := by
  induction steps generalizing choices with
  | refl => exact ⟨choices, visits⟩
  | step goesOn _ ih =>
    obtain ⟨_, visitsNext⟩ := visits.step wellFormed noDecisions goesOn
    exact ih visitsNext

/-- The solver terminates; it returns a solution in the domains if there is one and an
error otherwise. In every state of its loop the domains hold the solutions that take none
of the values removed by the open choices. When a choice fails, all domains are as before
it except that of its variable, which is left with the removed value alone. -/
theorem solver_sound_and_complete (maxsat : MaxSat) (wellFormed : maxsat.WellFormed)
    (noDecisions : maxsat.backtrackStack = [])
    (nonempty : ∀ node ∈ maxsat.vars, ∃ value, maxsat.Has node value) :
    ((∃ assign, maxsat.Satisfies assign ∧ maxsat.Within assign) →
      ∃ assign, maxsat.solve = some (.ok (maxsat.vars.map fun node => (node, assign node))) ∧
        maxsat.Satisfies assign ∧ maxsat.Within assign) ∧
    ((¬ ∃ assign, maxsat.Satisfies assign ∧ maxsat.Within assign) →
      maxsat.solve = some (.error .noSolution)) ∧
    (∀ count state, Loop.Steps solveStep count (maxsat, maxsat.vars) state →
      ∃ choices, Visits maxsat choices state.1) ∧
    (∀ choices state, Visits maxsat choices state → ∀ assign, maxsat.Satisfies assign →
      maxsat.Within assign → (∀ choice ∈ choices, assign choice.1 ≠ choice.2.1) →
      state.Within assign) ∧
    ∀ (before failed : MaxSat) (node : NodeId) (value : PartitioningPolicy) (cost : Cost),
      before.WellFormed → before.highestCostVariableAssignment = some (node, value, cost) →
      Explores (before.decision (node, value, cost)) failed → failed.conflict = true →
      ∃ next, failed.backtrack = .ok (next, [node]) ∧ ∀ other otherValue,
        next.Has other otherValue ↔ before.Has other otherValue ∧ (other = node → otherValue = value) := by
  have noConflict : maxsat.conflict = false := by
    rw [← Bool.not_eq_true, conflict_iff]
    rintro ⟨node, known, empty⟩
    obtain ⟨value, has⟩ := nonempty node known
    exact empty value has
  have solved := solve_spec maxsat wellFormed noDecisions noConflict
  refine ⟨?_, ?_, ?_, ?_, ?_⟩
  · rintro ⟨assign, satisfies, within⟩
    rcases solved with found | ⟨-, unsolvable⟩
    · exact found
    · exact absurd within (unsolvable assign satisfies)
  · intro unsolvable
    rcases solved with ⟨assign, -, solution⟩ | ⟨failed, -⟩
    · exact absurd ⟨assign, solution⟩ unsolvable
    · exact failed
  · intro count state steps
    exact Visits.steps steps (.top (.refl _)) wellFormed noDecisions
  · intro choices state visits assign satisfies within avoids
    exact (visits.keeps wellFormed satisfies within avoids).2.2
  · intro before failed node value cost wellFormed chosen explores conflict
    obtain ⟨prunes, keeps⟩ := explores.spec wellFormed
    obtain ⟨next, undone, -, -, has⟩ := backtrack_keeps chosen prunes keeps conflict
    exact ⟨next, undone, has⟩

/-- Two streams of a left join, any policy for each. -/
theorem solver_solves_left_join : let maxsat : MaxSat :=
      { vars := [0, 1], constraints := [⟨0, 1, true⟩], domain := fun _ _ => some 1 }
    ∃ assign, maxsat.solve = some (.ok [(0, assign 0), (1, assign 1)]) ∧
      maxsat.Satisfies assign ∧ maxsat.Within assign := by
  intro maxsat
  refine (solver_sound_and_complete maxsat (by simp [maxsat, WellFormed]) rfl ?_).1 ?_
  · exact fun _ _ => ⟨.shard, rfl⟩
  · refine ⟨fun _ => .shard, ?_, fun _ _ => rfl⟩
    simp [maxsat, Satisfies, JoinConstraint.allows, compatible]

/-- Three streams joined in a circle, none of which may be sharded. -/
def triangle : MaxSat where
  vars := [0, 1, 2]
  constraints := [⟨0, 1, false⟩, ⟨1, 2, false⟩, ⟨2, 0, false⟩]
  domain _ value := if value = .shard then none else some (if value = .broadcast then 2 else 1)

/-- The first choice takes broadcasting from stream 0. It fails, and when it is undone
the stream may only be broadcast, although it could be balanced before the choice. -/
theorem backtrack_narrows_domain : ∃ before failed next : MaxSat,
    Loop.Steps solveStep 1 (triangle, triangle.vars) (before, []) ∧
      solveStep (before, []) = .inr (before.decision (0, .broadcast, 2), [0]) ∧
      Loop.Steps solveStep 3 (before.decision (0, .broadcast, 2), [0]) (failed, []) ∧
      solveStep (failed, []) = .inr (next, [0]) ∧
      before.Has 0 .balance ∧ ¬ next.Has 0 .balance := by
  refine ⟨_, _, _, .step rfl (.refl _), rfl, .step rfl (.step rfl (.step rfl (.refl _))), rfl, ?_, ?_⟩
  · decide
  · decide

end OpenDera.Balance.MaxSat
