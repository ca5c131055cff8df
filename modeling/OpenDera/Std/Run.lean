import Mathlib.Data.List.Induction

/-!
# Runs of a fallible step

A component that takes inputs one at a time and may fail on any of them is a
function `step : State → Input → Option State`; its run on a list of inputs is a
left fold that stops at the first failure. `Run.invariant` is the only induction
over runs: an assertion about the inputs consumed so far and the state reached,
established at the start and re-established by every step the environment is
allowed to take, holds at the end of every allowed run, and no such run fails.
-/

namespace Run

open Option Function

variable {State Input : Type*} (step : State → Input → Option State) (start : State)

/-- Consume the inputs in order, failing as soon as one step fails. -/
def run (inputs : List Input) : Option State :=
  inputs.foldlM step start

@[simp] theorem run_nil : run step start [] = some start := rfl

/-- The last step of a run starts in the state that the earlier inputs reach. -/
theorem run_append_singleton (inputs : List Input) (input : Input) :
    run step start (inputs ++ [input]) = (run step start inputs).bind (step · input) := by
  simp [run, List.foldlM_append]

/-- What a step of one component leaves unchanged in it is unchanged in all of them. -/
theorem observe_update {ι α β : Type*} [DecidableEq ι] (observe : α → β) {components : ι → α}
    {index : ι} {changed : α} (same : observe changed = observe (components index)) (other : ι) :
    observe (update components index changed other) = observe (components other) := by
  rw [apply_update fun _ => observe, same]
  exact congrFun (update_eq_self index (observe ∘ components)) other

/-- What holds of the changed components and of all others holds of all of them. -/
theorem forall_update₂ {ι α β : Type*} [DecidableEq ι] {P : ι → α → β → Prop}
    {first : ι → α} {second : ι → β} {index : ι} {a : α} {b : β} (here : P index a b)
    (elsewhere : ∀ other, other ≠ index → P other (first other) (second other)) (other : ι) :
    P other (update first index a other) (update second index b other) := by
  by_cases same : other = index
  · subst same
    simpa using here
  · simpa [same] using elsewhere other same

/-- A change of one component of one family leaves all others alone. -/
@[simp] theorem update_update_of_ne {ι κ α : Type*} [DecidableEq ι] [DecidableEq κ]
    (families : ι → κ → α) {family other : ι} {index component : κ}
    (different : ¬ (other = family ∧ component = index)) (changed : α) :
    update families family (update (families family) index changed) other component =
      families other component := by
  by_cases same : other = family
  · subst same
    simp [show component ≠ index from fun equal => different ⟨rfl, equal⟩]
  · simp [same]

variable {inputs : List Input}

section

variable {step : State → Input → Option State}

/-- What every successful step keeps, a successful run keeps. -/
theorem related (Related : State → State → Prop) (refl : ∀ state, Related state state)
    (trans : ∀ first second third, Related first second → Related second third → Related first third)
    (each : ∀ state input next, step state input = some next → Related state next)
    {start final : State} (reached : run step start inputs = some final) :
    Related start final := by
  induction inputs generalizing start with
  | nil =>
    obtain rfl := some.inj reached
    exact refl start
  | cons _ _ ih =>
    obtain ⟨next, stepped, later⟩ := bind_eq_some_iff.mp reached
    exact trans _ _ _ (each _ _ _ stepped) (ih later)

/-- An assertion that every allowed step re-establishes holds after every allowed
run, and the run does not fail. -/
theorem invariant {start : State}
    (Allowed : List Input → Prop) (Invariant : List Input → State → Prop)
    (earlier : ∀ inputs input, Allowed (inputs ++ [input]) → Allowed inputs)
    (initially : Invariant [] start)
    (preserved : ∀ inputs input state, Allowed (inputs ++ [input]) → Invariant inputs state →
      ∃ next, step state input = some next ∧ Invariant (inputs ++ [input]) next)
    (inputs : List Input) (allowed : Allowed inputs) :
    ∃ final, run step start inputs = some final ∧ Invariant inputs final := by
  induction inputs using List.reverseRecOn with
  | nil => exact ⟨start, rfl, initially⟩
  | append_singleton inputs input ih =>
    obtain ⟨state, reached, holds⟩ := ih (earlier inputs input allowed)
    obtain ⟨next, stepped, holdsNext⟩ := preserved inputs input state allowed holds
    exact ⟨next, by rw [run_append_singleton, reached, bind_some, stepped], holdsNext⟩

end

/-! ## Runs whose steps meet a condition -/

/-- Every input of the run meets the condition in the state in which it is consumed. -/
def Meets (start : State) (Condition : State → Input → Prop) (inputs : List Input) : Prop :=
  ∀ earlier input later, inputs = earlier ++ input :: later →
    ∀ state, run step start earlier = some state → Condition state input

variable {step} {start : State} {Condition : State → Input → Prop}

theorem meets_nil : Meets step start Condition [] := by
  intro earlier input later split
  simp at split

/-- A run meets a condition if its first step does and what follows does. -/
theorem meets_cons {input : Input} {rest : List Input} (now : Condition start input)
    (later : ∀ next, step start input = some next → Meets step next Condition rest) :
    Meets step start Condition (input :: rest) := by
  intro earlier other following split state reached
  cases earlier with
  | nil =>
    obtain ⟨rfl, -⟩ := List.cons.inj split
    obtain rfl := some.inj reached
    exact now
  | cons _ earlier =>
    obtain ⟨rfl, remaining⟩ := List.cons.inj split
    obtain ⟨next, stepped, further⟩ := bind_eq_some_iff.mp reached
    exact later next stepped earlier other following remaining state further

/-- An assertion about the inputs and the state that every step meeting the condition
re-establishes holds after every run whose steps meet it, and the run does not fail. -/
theorem invariant_of_meets_inputs (Invariant : List Input → State → Prop)
    (initially : Invariant [] start)
    (preserved : ∀ inputs state input, Condition state input → Invariant inputs state →
      ∃ next, step state input = some next ∧ Invariant (inputs ++ [input]) next)
    (meets : Meets step start Condition inputs) :
    ∃ final, run step start inputs = some final ∧ Invariant inputs final := by
  obtain ⟨final, reached, -, holds⟩ := invariant (Meets step start Condition)
    (fun inputs state => run step start inputs = some state ∧ Invariant inputs state)
    (fun inputs input meets earlier other later split => by
      refine meets earlier other (later ++ [input]) ?_
      simp [split])
    ⟨rfl, initially⟩
    (fun inputs input state meets holds => by
      obtain ⟨next, stepped, holdsNext⟩ :=
        preserved inputs state input (meets inputs input [] rfl state holds.1) holds.2
      refine ⟨next, stepped, ?_, holdsNext⟩
      rw [run_append_singleton, holds.1, bind_some, stepped])
    inputs meets
  exact ⟨final, reached, holds⟩

/-- An assertion about the state only. -/
theorem invariant_of_meets (Invariant : State → Prop) (initially : Invariant start)
    (preserved : ∀ state input, Condition state input → Invariant state →
      ∃ next, step state input = some next ∧ Invariant next)
    (meets : Meets step start Condition inputs) :
    ∃ final, run step start inputs = some final ∧ Invariant final :=
  invariant_of_meets_inputs (fun _ => Invariant) initially (fun _ => preserved) meets

end Run
