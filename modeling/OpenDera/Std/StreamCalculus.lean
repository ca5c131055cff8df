import Mathlib.Tactic.Abel

/-!
# Streams over a group

A stream gives a value of a commutative group at every step. `integrate` adds up the
values so far and `differentiate` takes the change since the step before; they are
inverse to each other. An operator on streams is incremental if it maps changes to
changes: `incremental` turns any operator into such a one. Operators that act on each
step alone and are additive commute with integration, so that they are their own
incremental version.
-/

namespace StreamCalculus

variable {Group O Third : Type*} [AddCommGroup Group] [AddCommGroup O] [AddCommGroup Third]

/-- The sum of the values so far. -/
def integrate (stream : ℕ → Group) : ℕ → Group
  | 0 => stream 0
  | time + 1 => integrate stream time + stream (time + 1)

variable (stream : ℕ → Group)

/-- The change since the step before. -/
def differentiate : ℕ → Group
  | 0 => stream 0
  | time + 1 => stream (time + 1) - stream time

@[simp] theorem differentiate_integrate : differentiate (integrate stream) = stream := by
  funext time
  cases time with
  | zero => rfl
  | succ => simp [differentiate, integrate]

@[simp] theorem integrate_differentiate : integrate (differentiate stream) = stream := by
  funext time
  induction time with
  | zero => rfl
  | succ _ ih =>
    rw [integrate, ih, differentiate]
    abel

/-- The incremental version of a unary operator. -/
def incremental (operator : (ℕ → Group) → ℕ → O) (changes : ℕ → Group) : ℕ → O :=
  differentiate (operator (integrate changes))

/-- The incremental version of a binary operator. -/
def incremental₂ (operator : (ℕ → Group) → (ℕ → O) → ℕ → Third) (left : ℕ → Group)
    (right : ℕ → O) : ℕ → Third :=
  differentiate (operator (integrate left) (integrate right))

/-- Apply a function at every step. -/
def lift (function : Group → O) (stream : ℕ → Group) : ℕ → O := fun time => function (stream time)

/-- Apply a binary function at every step. -/
def lift₂ (function : Group → O → Third) (left : ℕ → Group) (right : ℕ → O) : ℕ → Third :=
  fun time => function (left time) (right time)

variable {function : Group → O}

/-- An additive function may be applied before or after adding up. -/
theorem lift_integrate
    (additive : ∀ first second, function (first + second) = function first + function second)
    (stream : ℕ → Group) :
    lift function (integrate stream) = integrate (lift function stream) := by
  funext time
  induction time with
  | zero => rfl
  | succ _ ih =>
    rw [lift, integrate, additive, integrate, ← ih]
    rfl

variable (first second : ℕ → Group)

theorem integrate_add : integrate (first + second) = integrate first + integrate second := by
  funext time
  induction time with
  | zero => rfl
  | succ _ ih =>
    simp only [integrate, ih, Pi.add_apply]
    abel

@[simp] theorem integrate_zero : integrate (0 : ℕ → Group) = 0 := by
  funext time
  induction time with
  | zero => rfl
  | succ _ ih => simp [integrate, ih]

@[simp] theorem differentiate_zero : differentiate (0 : ℕ → Group) = 0 := by
  rw [← integrate_zero, differentiate_integrate, integrate_zero]

theorem lift_zero (zero : function 0 = 0) : lift function (0 : ℕ → Group) = 0 :=
  funext fun _ => zero

variable {function : Group → O → Third}

omit [AddCommGroup Group] in
theorem lift₂_zero_right (zero : ∀ left, function left 0 = 0) (stream : ℕ → Group) :
    lift₂ function stream 0 = 0 :=
  funext fun _ => zero _

theorem integrate_neg (stream : ℕ → Group) : integrate (-stream) = -integrate stream := by
  have zero : integrate stream + integrate (-stream) = 0 := by
    rw [← integrate_add, add_neg_cancel, integrate_zero]
  exact (neg_eq_of_add_eq_zero_right zero).symm

theorem integrate_sub : integrate (first - second) = integrate first - integrate second := by
  rw [sub_eq_add_neg, integrate_add, integrate_neg, ← sub_eq_add_neg]

theorem integrate_sum (streams : List (ℕ → Group)) :
    integrate streams.sum = (streams.map integrate).sum := by
  induction streams with
  | nil => exact integrate_zero
  | cons _ _ ih =>
    rw [List.sum_cons, integrate_add, ih, List.map_cons, List.sum_cons]

/-- The incremental version of a function that needs its left argument. -/
theorem incremental₂_zero_left (zero : ∀ right, function 0 right = 0) (right : ℕ → O) :
    incremental₂ (lift₂ function) 0 right = 0 := by
  have nothing : lift₂ function (integrate 0) (integrate right) = 0 := by
    rw [integrate_zero]
    exact funext fun _ => zero _
  rw [incremental₂, nothing, differentiate_zero]

/-- The incremental version of a function that is additive in its left argument where the
right one is zero. -/
theorem incremental₂_zero_right {single : Group → Third}
    (zero : ∀ left, function left 0 = single left)
    (additive : ∀ first second, single (first + second) = single first + single second)
    (left : ℕ → Group) : incremental₂ (lift₂ function) left 0 = lift single left := by
  have only : lift₂ function (integrate left) (integrate 0) = lift single (integrate left) := by
    rw [integrate_zero]
    exact funext fun _ => zero _
  rw [incremental₂, only, lift_integrate additive, differentiate_integrate]

end StreamCalculus
