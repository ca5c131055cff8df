import Mathlib.Data.Rat.Floor
import OpenDera.Std.PrimInt

/-!
# Fixed-point decimals

A decimal of precision `P` and scale `S` is an integer of at most `P` digits, read as a
multiple of `10 ^ -S`. The precision is at most 38, so the integer fits an `i128`.
-/

namespace OpenDera.Fxp

open Option PrimInt

def i128 : PrimInt := ⟨-2 ^ 127, 2 ^ 127 - 1, by decide, by decide⟩

/-- The parameters of `Fixed`, as `check_constraints` admits them. -/
structure FixedType where
  precision : ℕ
  scale : ℕ
  precision_pos : 1 ≤ precision
  precision_le : precision ≤ 38
  scale_le : scale ≤ precision

/-- The integers from `MIN` to `MAX`. -/
def FixedType.range (type : FixedType) : PrimInt where
  minValue := -(10 ^ type.precision - 1)
  maxValue := 10 ^ type.precision - 1
  minValue_nonpos := by simp [one_le_pow₀]
  maxValue_nonneg := by simp [one_le_pow₀]

@[ext]
structure Fixed (type : FixedType) where
  value : ℤ
  inRange : type.range.Contains value

/-- The number that a decimal stands for. -/
def Fixed.toRat {type : FixedType} (x : Fixed type) : ℚ :=
  x.value / 10 ^ type.scale

def tryNew (type : FixedType) (value : ℤ) : Option (Fixed type) :=
  if inRange : type.range.Contains value then some ⟨value, inRange⟩ else none

def checkedPow10 (exponent : ℕ) : Option ℤ :=
  i128.checked (10 ^ exponent)

/-- `value * 10 ^ exponent`; `divide` rounds it if the exponent is negative. -/
def mulPow10 (divide : ℤ → ℤ → ℤ) (value exponent : ℤ) : Option ℤ :=
  if exponent < 0 then
    match checkedPow10 exponent.natAbs with
    | some divisor => some (divide value divisor)
    | none => some 0
  else if exponent = 0 then some value
  else do
    let factor ← checkedPow10 exponent.toNat
    i128.checked (value * factor)

/-- The exact product, rounded toward zero. -/
def tryNewWithExponent (type : FixedType) (value exponent : ℤ) : Option (Fixed type) :=
  (mulPow10 Int.tdiv value exponent).bind (tryNew type)

/-! ## Ranges -/

variable {exponent : ℕ}

theorem checkedPow10_of_le (small : exponent ≤ 38) :
    checkedPow10 exponent = some (10 ^ exponent) := by
  have power : (10 : ℤ) ^ exponent ≤ 10 ^ 38 := pow_le_pow_right₀ (by decide) small
  have positive : (0 : ℤ) ≤ 10 ^ exponent := by positivity
  exact checked_of_le (positive.trans' (by decide)) (power.trans (by decide))

theorem checkedPow10_of_lt (large : 38 < exponent) : checkedPow10 exponent = none := by
  have power : (10 : ℤ) ^ 39 ≤ 10 ^ exponent := pow_le_pow_right₀ (by decide) large
  refine checked_of_not_contains fun fits => ?_
  exact absurd (power.trans fits.2) (by decide)

variable {type : FixedType} {value : ℤ}

theorem contains_range_iff : type.range.Contains value ↔ |value| < 10 ^ type.precision := by
  simp only [PrimInt.Contains, FixedType.range, abs_lt]
  omega

theorem tryNew_of_le (overflow : 10 ^ type.precision ≤ |value|) : tryNew type value = none :=
  dif_neg fun fits => overflow.not_gt (contains_range_iff.mp fits)

theorem tryNew_eq_some {x : Fixed type} : tryNew type value = some x ↔ value = x.value := by
  rw [tryNew]
  constructor
  · intro found
    split at found
    case isTrue => rw [← Option.some.inj found]
    case isFalse => cases found
  · rintro rfl
    exact dif_pos x.inRange

theorem Fixed.abs_lt (x : Fixed type) : |x.value| < 10 ^ type.precision :=
  contains_range_iff.mp x.inRange

theorem pow_precision_le : (10 : ℤ) ^ type.precision ≤ 10 ^ 38 :=
  pow_le_pow_right₀ (by decide) type.precision_le

theorem le_abs_of_not_i128 (outside : ¬ i128.Contains value) : 2 ^ 127 ≤ |value| := by
  simp only [PrimInt.Contains, i128] at outside
  rw [le_abs]
  omega

/-- What overflows an `i128` overflows every decimal. -/
theorem tryNew_of_not_i128 (overflow : 2 ^ 127 ≤ |value|) : tryNew type value = none :=
  tryNew_of_le (pow_precision_le.trans (overflow.trans' (by decide)))

theorem checked_bind (value : ℤ) : (i128.checked value).bind (tryNew type) = tryNew type value := by
  by_cases fits : i128.Contains value
  · rw [checked_of_contains fits, bind_some]
  · rw [checked_of_not_contains fits, bind_none, tryNew_of_not_i128 (le_abs_of_not_i128 fits)]

/-! ## Multiplication by a power of ten -/

variable {divide : ℤ → ℤ → ℤ}

theorem mulPow10_bind_of_nonneg (small : exponent ≤ 38) :
    (mulPow10 divide value exponent).bind (tryNew type) = tryNew type (value * 10 ^ exponent) := by
  rcases exponent.eq_zero_or_pos with rfl | positive
  · simp [mulPow10]
  · rw [mulPow10, if_neg (by omega), if_neg (by omega), Int.toNat_natCast,
      checkedPow10_of_le small, bind_eq_bind, bind_some]
    exact checked_bind _

theorem mulPow10_of_neg (positive : 0 < exponent) (small : exponent ≤ 38) :
    mulPow10 divide value (-exponent) = some (divide value (10 ^ exponent)) := by
  rw [mulPow10, if_pos (by omega), Int.natAbs_neg, Int.natAbs_natCast, checkedPow10_of_le small]

end OpenDera.Fxp
