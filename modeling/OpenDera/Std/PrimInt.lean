import Mathlib.Algebra.Order.Ring.Int

/-!
# Bounded integers

A machine integer type seen as an interval of the integers that contains zero.
Checked operations compute over the integers and fail outside the interval;
saturating operations clamp to it. The lemmas say when a clamped value can
stand in for the exact one in a comparison with a value of the type.
-/

namespace OpenDera

/-- A primitive integer type, given by its least and its greatest value. -/
structure PrimInt where
  minValue : ℤ
  maxValue : ℤ
  minValue_nonpos : minValue ≤ 0
  maxValue_nonneg : 0 ≤ maxValue

namespace PrimInt

variable (type : PrimInt) {value other : ℤ}

/-- `value` is a value of the type. -/
def Contains (value : ℤ) : Prop :=
  type.minValue ≤ value ∧ value ≤ type.maxValue

instance : Decidable (type.Contains value) :=
  inferInstanceAs (Decidable (_ ∧ _))

/-- The result of a checked operation with exact result `value`. -/
def checked (value : ℤ) : Option ℤ :=
  if type.Contains value then some value else none

/-- The result of a saturating operation with exact result `value`. -/
def saturating (value : ℤ) : ℤ :=
  max type.minValue (min value type.maxValue)

variable {type}

/-- A checked operation returns its exact result when that fits. -/
theorem checked_of_contains (contains : type.Contains value) : type.checked value = some value :=
  if_pos contains

/-- The same with the bounds apart, for a decision procedure to discharge. -/
theorem checked_of_le {value : ℤ} (low : type.minValue ≤ value) (high : value ≤ type.maxValue) :
    type.checked value = some value :=
  checked_of_contains ⟨low, high⟩

theorem checked_of_not_contains (outside : ¬ type.Contains value) : type.checked value = none :=
  if_neg outside

theorem checked_eq_some {result : ℤ} :
    type.checked value = some result ↔ type.Contains value ∧ value = result := by
  simp [checked]

/-- Clamping a value that is not too large does not change which values of the
type it bounds from below. -/
theorem saturating_le_iff (contains : type.Contains other) (small : value ≤ type.maxValue) :
    type.saturating value ≤ other ↔ value ≤ other := by
  obtain ⟨above, below⟩ := contains
  rw [saturating, min_eq_left small]
  omega

/-- Clamping a value that is not too small does not change which values of the
type it bounds from above. -/
theorem le_saturating_iff (contains : type.Contains other) (large : type.minValue ≤ value) :
    other ≤ type.saturating value ↔ other ≤ value := by
  obtain ⟨above, below⟩ := contains
  rw [saturating]
  omega

end PrimInt

end OpenDera
