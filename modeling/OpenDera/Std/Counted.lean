import Mathlib.Tactic.Common

/-!
# Computations that count

A computation that may fail and counts how often it does something that is worth
counting. `Returns` says that it does not fail, what it returns and how much it counts at
most, and has one rule for each way in which computations are put together.
-/

/-- A computation that counts and may fail. -/
abbrev Counted (α : Type) := StateT Nat Option α

namespace Counted

variable {α β : Type}

/-- Do something that counts. -/
def tick (value : Option α) : Counted α := fun counted => value.map (·, counted + 1)

/-- Whatever has been counted before, the computation returns `result` and adds at most
`cost` to the count. -/
def Returns (computation : Counted α) (result : α) (cost : Nat) : Prop :=
  ∀ before, ∃ after, computation before = some (result, after) ∧ after ≤ before + cost

variable {computation : Counted α} {result : α} {cost : Nat}

theorem returns_pure (result : α) (cost : Nat) : Returns (pure result) result cost :=
  fun before => ⟨before, rfl, Nat.le_add_right _ _⟩

theorem returns_tick (result : α) : Returns (tick (some result)) result 1 :=
  fun before => ⟨before + 1, rfl, Nat.le_refl _⟩

theorem Returns.mono (returns : Returns computation result cost) {more : Nat} (le : cost ≤ more) :
    Returns computation result more := by
  intro before
  obtain ⟨after, runs, bounded⟩ := returns before
  exact ⟨after, runs, by omega⟩

/-- What two computations count in sequence adds up. -/
theorem Returns.bind {next : α → Counted β} {final : β} {more : Nat}
    (returns : Returns computation result cost) (continues : Returns (next result) final more) :
    Returns (computation >>= next) final (cost + more) := by
  intro before
  obtain ⟨middle, runs, bounded⟩ := returns before
  obtain ⟨after, runsOn, boundedToo⟩ := continues middle
  refine ⟨after, ?_, by omega⟩
  change (computation before).bind _ = _
  rw [runs]
  exact runsOn

end Counted
