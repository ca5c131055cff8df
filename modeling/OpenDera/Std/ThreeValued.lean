import Mathlib.Data.Option.Basic

/-!
# Three-valued logic

A truth value is TRUE, FALSE or unknown. A conjunction is FALSE as soon as one part is, and
a disjunction TRUE as soon as one part is; otherwise an unknown part makes them unknown.
-/

namespace ThreeValued

/-- Conjunction. -/
def and : Option Bool → Option Bool → Option Bool
  | some false, _ => some false
  | _, some false => some false
  | some true, some true => some true
  | _, _ => none

/-- Disjunction. -/
def or : Option Bool → Option Bool → Option Bool
  | some true, _ => some true
  | _, some true => some true
  | some false, some false => some false
  | _, _ => none

@[simp] theorem and_eq_true_iff {first second : Option Bool} :
    and first second = some true ↔ first = some true ∧ second = some true := by
  rcases first with - | - | - <;> rcases second with - | - | - <;> simp [and]

@[simp] theorem or_eq_true_iff {first second : Option Bool} :
    or first second = some true ↔ first = some true ∨ second = some true := by
  rcases first with - | - | - <;> rcases second with - | - | - <;> simp [or]

end ThreeValued
