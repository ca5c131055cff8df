import OpenDera.Fxp.Fixed

/-!
# Rounding of decimals

`ROUND`, `BROUND`, `TRUNC`, `TRUNCATE`, `FLOOR` and `CEIL`, and conversion between decimal
types. A function that panics, like one that returns `None`, has no result.
-/

namespace OpenDera.Fxp

open Option Int Fixed

def i32 : PrimInt := ⟨-2 ^ 31, 2 ^ 31 - 1, by decide, by decide⟩

/-- How to round values halfway between two integers. -/
inductive Halfway where
  | awayFromZero
  | even

variable (halfway : Halfway) (value divisor : ℤ)

/-- Whether the truncated quotient has to be rounded away from zero. -/
def roundAwayFromZero : Bool :=
  match compare |value.tmod divisor| (divisor / 2) with
  | .lt => false
  | .eq =>
    match halfway with
    | .awayFromZero => true
    | .even => (value.tdiv divisor).tmod 2 ≠ 0
  | .gt => true

def roundInner (value scale n : ℤ) (halfway : Halfway) : Option ℤ := do
  let position := i32.saturating (scale - n)
  if position ≤ 0 then return value
  let unit ← checkedPow10 (position.toNat - 1)
  -- the product overflows at position 39
  if |value| < (5 * unit).bmod (2 ^ 128) then return 0
  let divisor ← checkedPow10 position.toNat
  let quotient := value.tdiv divisor
  i128.checked (divisor *
    if roundAwayFromZero halfway value divisor then quotient + value.sign else quotient)

/-- The division of `i128_mul_pow10_round_even`. -/
def divRoundEven : ℤ :=
  let quotient := value.tdiv divisor
  if roundAwayFromZero .even value divisor then quotient + quotient.sign else quotient

variable (x y : ℤ)

/-- The sign bit of `x ^ y`, shifted down to all bits. -/
def signsDiffer : ℤ :=
  if decide (x < 0) != decide (y < 0) then -1 else 0

def divFloor : ℤ :=
  if x.tmod y ≠ 0 then x.tdiv y + signsDiffer x y else x.tdiv y

def divCeil : ℤ :=
  if x.tmod y ≠ 0 then x.tdiv y + (1 + signsDiffer x y) else x.tdiv y

/-- `Fixed<P, 0>`. -/
def FixedType.integer (type : FixedType) : FixedType :=
  { type with scale := 0, scale_le := type.precision.zero_le }

def FixedType.zero (type : FixedType) : Fixed type :=
  ⟨0, type.range.minValue_nonpos, type.range.maxValue_nonneg⟩

theorem abs_tdiv_mul_le : |value.tdiv divisor * divisor| ≤ |value| := by
  simp only [abs_eq_natAbs, natAbs_mul, natAbs_tdiv, Nat.cast_le]
  exact Nat.div_mul_le_self _ _

namespace Fixed

variable {type : FixedType}

def new (type : FixedType) (value scale : ℤ) : Option (Fixed type) :=
  tryNewWithExponent type value (i32.saturating (type.scale - scale))

variable (x : Fixed type)

/-- `ROUND(x, n)` and `BROUND(x, n)`. -/
def checkedRound (n : ℤ) (halfway : Halfway) : Option (Fixed type) :=
  (roundInner x.value type.scale n halfway).bind (tryNew type)

/-- The body of `int_floor` and `int_ceil`. -/
def toInteger (divide : ℤ → ℤ → ℤ) (x : Fixed type) : Option (Fixed type.integer) :=
  if 0 < type.scale then new type.integer (divide x.value (10 ^ type.scale)) 0
  else new type.integer x.value type.scale

/-- `FLOOR(x)`. -/
def intFloor : Option (Fixed type.integer) := x.toInteger divFloor

/-- `CEIL(x)`. -/
def intCeil : Option (Fixed type.integer) := x.toInteger divCeil

/-- The value is cut off in units of `divisor`. -/
def cut (divisor : ℤ) : Fixed type where
  value := x.value.tdiv divisor * divisor
  inRange := contains_range_iff.mpr ((abs_tdiv_mul_le _ _).trans_lt x.abs_lt)

/-- `TRUNC(x)`. -/
def truncSqlDecimal : Option (Fixed type.integer) :=
  new type.integer (x.cut (10 ^ type.scale)).value 0

/-- `TRUNCATE(x, digits)`. -/
def truncDigits (digits : ℤ) : Fixed type :=
  let exponent := i32.saturating (type.scale - digits)
  if exponent ≤ 0 then x
  else
    match checkedPow10 exponent.toNat with
    | some divisor => x.cut divisor
    | none => type.zero

/-- Conversion to another type; `ROUND(x)` is the one to an integer. -/
def convertRoundEven (target : FixedType) : Option (Fixed target) :=
  (mulPow10 divRoundEven x.value (target.scale - type.scale)).bind (tryNew target)

end Fixed

/-! ## Exact results -/

/-- `result` is the integer nearest to `value / divisor`. -/
def IsRounded (value divisor result : ℤ) : Prop :=
  2 * |value - divisor * result| ≤ divisor ∧
    (2 * |value - divisor * result| = divisor →
      match halfway with
      | .awayFromZero => |value| ≤ |divisor * result|
      | .even => 2 ∣ result)

variable {type : FixedType} (x : Fixed type) (n : ℤ) (halfway : Halfway)

def RoundsTo : Prop :=
  ∃ result, IsRounded halfway x.value (10 ^ (type.scale - n).toNat) result ∧
    x.checkedRound n halfway = tryNew type (10 ^ (type.scale - n).toNat * result)

def ConvertsTo (target : FixedType) : Prop :=
  ∃ result, IsRounded .even (x.value * 10 ^ (target.scale - type.scale))
      (10 ^ (type.scale - target.scale)) result ∧
    x.convertRoundEven target = tryNew target result

theorem tryNew_zero (type : FixedType) : tryNew type 0 = some type.zero :=
  tryNew_eq_some.mpr rfl

/-! ## Integers -/

variable {x} {value divisor : ℤ}

theorem tdiv_eq_zero_iff (positive : 0 < divisor) : value.tdiv divisor = 0 ↔ |value| < divisor := by
  rw [← sign_eq_zero_iff_zero, sign_tdiv, sign_eq_one_of_pos positive, mul_one,
    abs_eq_natAbs]
  split
  case isTrue => exact iff_of_true rfl (by omega)
  case isFalse =>
    rw [sign_eq_zero_iff_zero]
    exact iff_of_false (by omega) (by omega)

theorem new_integer (value : ℤ) : new type.integer value 0 = tryNew _ value := by
  rfl

theorem divFloor_eq (positive : 0 < divisor) : divFloor value divisor = value / divisor := by
  have exact : divisor ∣ value ↔ _ := dvd_iff_tmod_eq_zero
  rw [divFloor, tdiv_eq_ediv, sign_eq_one_of_pos positive, signsDiffer]
  grind

theorem tmod_of_eq_zero (zero : value = 0) : value.tmod divisor = 0 := by
  rw [zero, zero_tmod]

theorem divCeil_eq (positive : 0 < divisor) : divCeil value divisor = -(-value / divisor) := by
  rw [← divFloor_eq positive, divFloor, divCeil, Int.neg_tmod, Int.neg_tdiv, signsDiffer,
    signsDiffer]
  have vanishes : value = 0 → value.tmod divisor = 0 := tmod_of_eq_zero
  grind

theorem toInteger_eq {divide : ℤ → ℤ → ℤ} (one : divide x.value 1 = x.value) :
    x.toInteger divide = tryNew _ (divide x.value (10 ^ type.scale)) := by
  rw [toInteger, new_integer]
  split
  case isTrue => rfl
  case isFalse zero => rw [Nat.eq_zero_of_not_pos zero, Nat.cast_zero, new_integer, pow_zero, one]

theorem intFloor_eq : x.intFloor = tryNew _ ⌊x.toRat⌋ := by
  have floor := Rat.floor_intCast_div_natCast x.value (10 ^ type.scale)
  push_cast at floor
  rw [intFloor, toInteger_eq (by simp [divFloor_eq]), divFloor_eq (by positivity), toRat,
    floor]

theorem intCeil_eq : x.intCeil = tryNew _ ⌈x.toRat⌉ := by
  have ceil := Rat.ceil_intCast_div_natCast x.value (10 ^ type.scale)
  push_cast at ceil
  rw [intCeil, toInteger_eq (by simp [divCeil_eq]), divCeil_eq (by positivity), toRat,
    ceil]

theorem trunc_iff : x.truncSqlDecimal = tryNew _ (x.value.tdiv (10 ^ type.scale)) ↔
    type.scale = 0 ∨ |x.value| < 10 ^ type.scale := by
  have positive : (0 : ℤ) < 10 ^ type.scale := by positivity
  have cut : tryNew type.integer (x.cut (10 ^ type.scale)).value =
      some ⟨_, (x.cut (10 ^ type.scale)).inRange⟩ := dif_pos _
  have power : (10 : ℤ) ^ type.scale = 1 ↔ type.scale = 0 := by
    refine ⟨fun one => ?_, fun zero => by rw [zero, pow_zero]⟩
    by_contra nonzero
    exact (one_lt_pow₀ (by decide) nonzero).ne' one
  rw [Fixed.truncSqlDecimal, new_integer, cut, eq_comm, tryNew_eq_some, Fixed.cut, eq_comm,
    ← power, ← tdiv_eq_zero_iff positive]
  exact mul_right_eq_self₀

/-- A position is saturated only if it is far too large. -/
theorem position_cases (digits : ℤ) : digits ≤ 0 ∧ i32.saturating digits ≤ 0 ∨
    (0 < digits ∧ digits ≤ 39) ∧ i32.saturating digits = digits ∨
    39 < digits ∧ 39 < i32.saturating digits := by
  simp only [PrimInt.saturating, i32]
  omega

theorem abs_lt_pow {exponent : ℕ} (large : 38 ≤ exponent) : |x.value| < 10 ^ exponent :=
  x.abs_lt.trans_le (pow_precision_le.trans (pow_le_pow_right₀ (by decide) large))

theorem truncDigits_eq : (x.truncDigits n).value =
    x.value.tdiv (10 ^ (type.scale - n).toNat) * 10 ^ (type.scale - n).toNat := by
  rw [truncDigits]
  generalize (type.scale - n : ℤ) = digits
  have zero (large : 38 < digits.toNat) : x.value.tdiv (10 ^ digits.toNat) = 0 :=
    (tdiv_eq_zero_iff (by positivity)).mpr (abs_lt_pow large.le)
  rcases position_cases digits with ⟨before, position⟩ | ⟨inside, position⟩ | ⟨far, position⟩
  · rw [if_pos position, Int.toNat_of_nonpos before, pow_zero, Int.tdiv_one, mul_one]
  · rw [if_neg (by omega), position]
    rcases le_or_gt digits.toNat 38 with small | large
    · rw [checkedPow10_of_le small]
      rfl
    · rw [checkedPow10_of_lt large, zero large, zero_mul]
      rfl
  · rw [if_neg (by omega), checkedPow10_of_lt (by omega), zero (by omega), zero_mul]
    rfl

/-! ## Nearest integers -/

/-- The remainder has the sign of the dividend. -/
theorem tmod_bounds (value : ℤ) {divisor : ℤ} (positive : 0 < divisor) :
    0 ≤ value ∧ 0 ≤ value.tmod divisor ∧ value.tmod divisor < divisor ∨
      value < 0 ∧ -divisor < value.tmod divisor ∧ value.tmod divisor ≤ 0 := by
  have above := tmod_lt_of_pos value positive
  have below := tmod_lt_of_pos (-value) positive
  rcases le_or_gt 0 value with nonneg | negative
  · exact .inl ⟨nonneg, tmod_nonneg _ nonneg, above⟩
  · have nonneg := tmod_nonneg divisor (show 0 ≤ -value by omega)
    rw [Int.neg_tmod] at below nonneg
    exact .inr ⟨negative, by omega, by omega⟩

/-- Rounding a truncated quotient away from zero, in the direction of the dividend. -/
theorem isRounded_tdiv (positive : 0 < divisor) (even : 2 ∣ divisor) (halfway : Halfway) :
    IsRounded halfway value divisor (if roundAwayFromZero halfway value divisor then
      value.tdiv divisor + value.sign else value.tdiv divisor) := by
  have split := mul_tdiv_add_tmod value divisor
  have bounds := tmod_bounds value positive
  have parity : 2 ∣ value.tdiv divisor ↔ _ := dvd_iff_tmod_eq_zero
  have vanishes : value = 0 → value.tmod divisor = 0 := tmod_of_eq_zero
  unfold roundAwayFromZero
  generalize value.tmod divisor = remainder at *
  generalize value.tdiv divisor = quotient at *
  have towards : |value - divisor * quotient| = |remainder| := by
    rw [← split, add_sub_cancel_left]
  have away (nonzero : remainder ≠ 0) :
      |value - divisor * (quotient + value.sign)| = divisor - |remainder| ∧
        |value| ≤ |divisor * (quotient + value.sign)| ∧ (value.sign = 1 ∨ value.sign = -1) := by
    simp only [abs_eq_natAbs]
    rcases lt_trichotomy value 0 with negative | zero | above
    · rw [sign_eq_neg_one_of_neg negative, mul_add, mul_neg, mul_one]
      exact ⟨by omega, by omega, .inr rfl⟩
    · exact absurd (vanishes zero) nonzero
    · rw [sign_eq_one_of_pos above, mul_add, mul_one]
      exact ⟨by omega, by omega, .inl rfl⟩
  rcases lt_trichotomy |remainder| (divisor / 2) with less | same | more
  · rw [compare_lt_iff_lt.mpr less]
    simp only [IsRounded, Bool.false_eq_true, if_false, towards]
    exact ⟨by omega, fun tie => by omega⟩
  · obtain ⟨error, larger, sign⟩ := away (abs_pos.mp (by omega))
    rw [compare_eq_iff_eq.mpr same]
    cases halfway with
    | awayFromZero =>
      simp only [IsRounded, if_true, error]
      exact ⟨by omega, fun _ => larger⟩
    | even =>
      by_cases odd : 2 ∣ quotient
      · simp only [IsRounded, parity.mp odd, ne_eq, not_true, decide_false, Bool.false_eq_true,
          if_false, towards]
        exact ⟨by omega, fun _ => odd⟩
      · simp only [IsRounded, mt parity.mpr odd, ne_eq, not_false_eq_true, decide_true, if_true,
          error]
        exact ⟨by omega, fun _ => by omega⟩
  · rw [compare_gt_iff_gt.mpr more]
    simp only [IsRounded, if_true, (away (abs_pos.mp (by omega))).1]
    exact ⟨by omega, fun tie => by omega⟩

theorem isRounded_one (value : ℤ) : IsRounded halfway value 1 value := by
  simp [IsRounded]

theorem divRoundEven_eq (positive : 0 < divisor) (large : divisor ≤ |value|) :
    divRoundEven value divisor = if roundAwayFromZero .even value divisor then
      value.tdiv divisor + value.sign else value.tdiv divisor := by
  rw [abs_eq_natAbs] at large
  have sign : (value.tdiv divisor).sign = value.sign := by
    rw [sign_tdiv, if_neg (by omega), sign_eq_one_of_pos positive, mul_one]
  rw [divRoundEven, sign]

theorem divRoundEven_of_lt (positive : 0 < divisor) (small : |value| < divisor) :
    divRoundEven value divisor = 0 := by
  simp [divRoundEven, (tdiv_eq_zero_iff positive).mpr small]

theorem even_pow {exponent : ℕ} (positive : 0 < exponent) : (2 : ℤ) ∣ 10 ^ exponent :=
  dvd_pow (by decide) positive.ne'

theorem convertsTo_iff (target : FixedType) : ConvertsTo x target ↔ type.scale ≤ target.scale ∨
    2 * |x.value| ≤ 10 ^ (type.scale - target.scale) ∨
    10 ^ (type.scale - target.scale) ≤ |x.value| := by
  have small := type.scale_le.trans type.precision_le
  have targetSmall := target.scale_le.trans target.precision_le
  have positive : (0 : ℤ) < 10 ^ (type.scale - target.scale) := by positivity
  rw [ConvertsTo, convertRoundEven]
  rcases le_or_gt type.scale target.scale with less | more
  · rw [← Nat.cast_sub less, mulPow10_bind_of_nonneg (by omega), Nat.sub_eq_zero_of_le less]
    exact iff_of_true ⟨_, isRounded_one _ _, rfl⟩ (.inl less)
  · rw [Nat.sub_eq_zero_of_le more.le, pow_zero, mul_one, ← neg_sub, ← Nat.cast_sub more.le,
      mulPow10_of_neg (by omega) (by omega), bind_some, or_iff_right more.not_ge]
    by_cases large : 10 ^ (type.scale - target.scale) ≤ |x.value|
    · refine iff_of_true ⟨_, ?_, rfl⟩ (.inr large)
      rw [divRoundEven_eq positive large]
      exact isRounded_tdiv positive (even_pow (by omega)) _
    · rw [divRoundEven_of_lt positive (not_le.mp large), or_iff_left large]
      constructor
      · rintro ⟨result, rounded, same⟩
        rw [tryNew_zero, eq_comm, tryNew_eq_some] at same
        simpa [same, FixedType.zero] using rounded.1
      · intro half
        exact ⟨0, by simpa [IsRounded] using half, rfl⟩

/-- The early test is right up to position 39, where it holds of every value. -/
theorem lt_bmod_iff {position : ℕ} (positive : 0 < position) (near : position ≤ 39) :
    |x.value| < (5 * 10 ^ (position - 1) : ℤ).bmod (2 ^ 128) ↔ 2 * |x.value| < 10 ^ position := by
  have small := x.abs_lt.trans_le pow_precision_le
  rcases near.lt_or_eq with less | rfl
  · obtain ⟨position, rfl⟩ := Nat.exists_eq_add_one.mpr positive
    have power : (10 : ℤ) ^ position ≤ 10 ^ 37 := pow_le_pow_right₀ (by decide) (by omega)
    have nonneg : (0 : ℤ) < 10 ^ position := by positivity
    rw [Nat.add_sub_cancel, bmod_eq_of_le (by omega) (by omega), pow_succ]
    omega
  · rw [show (5 * 10 ^ (39 - 1) : ℤ).bmod (2 ^ 128) = 5 * 10 ^ 38 - 2 ^ 128 by decide]
    omega

theorem roundsTo_iff : RoundsTo x n halfway ↔ type.scale - n ≤ 39 := by
  rw [RoundsTo, checkedRound, roundInner]
  generalize (type.scale - n : ℤ) = digits
  have bound := x.abs_lt.trans_le pow_precision_le
  have power (large : 38 < digits.toNat) : (10 : ℤ) ^ 39 ≤ 10 ^ digits.toNat :=
    pow_le_pow_right₀ (by decide) large
  rcases position_cases digits with ⟨before, position⟩ | ⟨near, position⟩ | ⟨far, position⟩
  · rw [if_pos position, Int.toNat_of_nonpos before, pow_zero]
    exact iff_of_true ⟨x.value, isRounded_one _ _, by rw [one_mul]; rfl⟩ (by omega)
  · refine iff_of_true ?_ near.2
    have early : _ ↔ 2 * |x.value| < 10 ^ digits.toNat := lt_bmod_iff (by omega) (by omega)
    rw [position, if_neg (by omega), checkedPow10_of_le (by omega), bind_eq_bind, bind_some]
    by_cases half : 2 * |x.value| < 10 ^ digits.toNat
    · refine ⟨0, ?_, by rw [if_pos (early.mpr half), mul_zero]; rfl⟩
      unfold IsRounded
      rw [mul_zero, sub_zero]
      exact ⟨half.le, fun tie => absurd tie half.ne⟩
    · have small : digits.toNat ≤ 38 := by
        by_contra large
        omega
      rw [if_neg (mt early.mp half), checkedPow10_of_le small]
      exact ⟨_, isRounded_tdiv (by positivity) (even_pow (by omega)) halfway, checked_bind _⟩
  · refine iff_of_false ?_ far.not_ge
    rintro ⟨result, rounded, same⟩
    rw [if_neg (by omega), checkedPow10_of_lt (by omega)] at same
    obtain rfl : result = 0 := by
      by_contra nonzero
      have scaled := le_mul_of_one_le_right (show (0 : ℤ) ≤ 10 ^ digits.toNat by omega)
        (one_le_abs nonzero)
      have apart := abs_sub_abs_le_abs_sub (10 ^ digits.toNat * result) x.value
      rw [abs_mul, abs_sub_comm, abs_of_pos (by positivity)] at apart
      have near := rounded.1
      omega
    rw [mul_zero, tryNew_zero] at same
    cases same

/-- `FLOOR`, `CEIL` and `TRUNCATE` give the exact result of every value, if it fits the result
type. `TRUNC` does so exactly for integers and for values between -1 and 1, `ROUND` to digits
unless more than 39 digits are dropped, and a conversion, with `ROUND` the one to an integer,
unless it drops digits of a value strictly between one half and one unit. -/
theorem rounding_correct_iff (x : Fixed type) (n : ℤ) (target : FixedType) :
    x.intFloor = tryNew _ ⌊x.toRat⌋ ∧
    x.intCeil = tryNew _ ⌈x.toRat⌉ ∧
    (x.truncDigits n).value =
      x.value.tdiv (10 ^ (type.scale - n).toNat) * 10 ^ (type.scale - n).toNat ∧
    (x.truncSqlDecimal = tryNew _ (x.value.tdiv (10 ^ type.scale)) ↔
      type.scale = 0 ∨ |x.value| < 10 ^ type.scale) ∧
    (∀ halfway, RoundsTo x n halfway ↔ type.scale - n ≤ 39) ∧
    (ConvertsTo x type.integer ↔
      type.scale = 0 ∨ 2 * |x.value| ≤ 10 ^ type.scale ∨ 10 ^ type.scale ≤ |x.value|) ∧
    (ConvertsTo x target ↔ type.scale ≤ target.scale ∨
      2 * |x.value| ≤ 10 ^ (type.scale - target.scale) ∨
      10 ^ (type.scale - target.scale) ≤ |x.value|) := by
  refine ⟨intFloor_eq, intCeil_eq, truncDigits_eq n, trunc_iff, roundsTo_iff n, ?_,
    convertsTo_iff target⟩
  rw [convertsTo_iff, FixedType.integer, Nat.sub_zero, Nat.le_zero]

/-- `DECIMAL(2, 1)`. -/
def decimalTwoOne : FixedType := ⟨2, 1, by decide, by decide, by decide⟩

/-- `TRUNC(1.5)` is 10, `ROUND(0.6)` is 0, and `ROUND(0.6, -40)` panics. -/
theorem rounding_misses :
    (⟨15, by decide⟩ : Fixed decimalTwoOne).truncSqlDecimal ≠ tryNew _ (Int.tdiv 15 (10 ^ 1)) ∧
      ¬ConvertsTo (⟨6, by decide⟩ : Fixed decimalTwoOne) decimalTwoOne.integer ∧
      ¬RoundsTo (⟨6, by decide⟩ : Fixed decimalTwoOne) (-40) .awayFromZero := by
  refine ⟨fun same => absurd (congrArg (Option.map Fixed.value) same) (by decide), ?_, ?_⟩
  · rw [convertsTo_iff]
    decide
  · rw [roundsTo_iff]
    decide

end OpenDera.Fxp
