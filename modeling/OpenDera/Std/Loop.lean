import Mathlib.Tactic.Common

/-!
# Loops

The body of a loop either finishes with a result or goes on from a new state. `run`
iterates it with a bound on the number of iterations; `Steps` counts iterations that
go on, so that the run of a whole loop is put together from the runs of its phases.
-/

namespace Loop

variable {State Result : Type*}

/-- Iterate the body, at most `fuel` times. -/
def run (body : State → Result ⊕ State) : Nat → State → Option Result
  | 0, _ => none
  | fuel + 1, state =>
    match body state with
    | .inl result => some result
    | .inr next => run body fuel next

/-- From `first` the loop is at `last` after the given number of iterations. -/
inductive Steps (body : State → Result ⊕ State) : Nat → State → State → Prop where
  | refl (state : State) : Steps body 0 state state
  | step {count : Nat} {first next last : State} (goesOn : body first = .inr next)
      (rest : Steps body count next last) : Steps body (count + 1) first last

variable {body : State → Result ⊕ State}

theorem Steps.trans {firstCount secondCount : Nat} {first middle last : State}
    (before : Steps body firstCount first middle) (after : Steps body secondCount middle last) :
    Steps body (firstCount + secondCount) first last := by
  induction before with
  | refl => simpa using after
  | step goesOn _ ih =>
    rw [Nat.add_right_comm]
    exact .step goesOn (ih after)

/-- The iterations made so far are taken off the bound. -/
theorem Steps.run_add {count : Nat} {first last : State} (steps : Steps body count first last)
    (fuel : Nat) : run body (count + fuel) first = run body fuel last := by
  induction steps with
  | refl => rw [Nat.zero_add]
  | step goesOn _ ih =>
    rw [Nat.add_right_comm, run, goesOn]
    exact ih

variable {result : Result}

/-- A loop that has reached its last iteration finishes within any larger bound. -/
theorem Steps.run_eq {count : Nat} {first last : State} (steps : Steps body count first last)
    (finishes : body last = .inl result) {fuel : Nat} (enough : count < fuel) :
    run body fuel first = some result := by
  obtain ⟨rest, rfl⟩ := Nat.exists_eq_add_of_lt enough
  rw [Nat.add_assoc, steps.run_add, run, finishes]

/-- The loop started in `state` finishes with `result`. -/
def Returns (body : State → Result ⊕ State) (state : State) (result : Result) : Prop :=
  ∃ fuel, run body fuel state = some result

variable {state : State}

theorem returns_of_inl {result other : Result} (finishes : body state = .inl result) :
    Returns body state other ↔ other = result := by
  constructor
  · rintro ⟨fuel, ran⟩
    cases fuel with
    | zero => exact absurd ran (by simp [run])
    | succ => simpa [run, finishes, eq_comm] using ran
  · rintro rfl
    exact ⟨1, by simp [run, finishes]⟩

theorem returns_of_inr {state next : State} (goesOn : body state = .inr next) :
    Returns body state result ↔ Returns body next result := by
  constructor
  · rintro ⟨fuel, ran⟩
    cases fuel with
    | zero => exact absurd ran (by simp [run])
    | succ fuel => exact ⟨fuel, by simpa [run, goesOn] using ran⟩
  · rintro ⟨fuel, ran⟩
    exact ⟨fuel + 1, by simpa [run, goesOn] using ran⟩

/-- A body that leaves its state as it is never finishes. -/
theorem not_returns_of_stays (stays : body state = .inr state) : ¬Returns body state result := by
  rintro ⟨fuel, ran⟩
  induction fuel with
  | zero => exact absurd ran (by simp [run])
  | succ _ ih =>
    apply ih
    simpa [run, stays] using ran

end Loop
