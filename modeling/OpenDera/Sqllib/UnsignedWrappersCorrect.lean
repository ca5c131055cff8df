import OpenDera.Sqllib.UnsignedWrappers

/-!
# Codes of sort columns

A closed form of the codes that `UnsignedWrappers` computes: the position of a
value among the values of its type, in sort direction, after the first code.
That no step overflows, that the codes are ordered as requested and that the
`to_` functions invert them follow from it.
-/

namespace OpenDera.Sqllib.SortColumn

open UnsignedWrappers Option Bool PrimInt

variable (column : SortColumn)

/-- The position of a value among the values of the type, in sort direction. -/
def rank (value : ℤ) : ℤ :=
  if column.ascending then value - column.values.minValue else column.values.maxValue - value

/-- The smallest code of a value. -/
def firstCode : ℤ :=
  if column.signed then if column.ascending then 1 else 2
  else if column.mayBeNull then 1 else 0

/-- The code of NULL. -/
def nullCode : ℤ :=
  if column.nullsLast then column.large + (if column.signed then 2 else 1) else 0

/-- The code of a value. -/
def code : Option ℤ → ℤ
  | none => column.nullCode
  | some value => column.firstCode + column.rank value

/-- The types of a signed column leave room for every shifted or reversed value and for NULL. -/
structure SignedTypes : Prop where
  signed : column.signed = true
  least : column.values.minValue = -column.values.maxValue - 1
  large : column.large = 2 * column.values.maxValue + 2
  low : column.intermediate.minValue ≤ -(column.large + 2)
  high : column.large + 2 ≤ column.intermediate.maxValue
  wide : column.intermediate.maxValue ≤ column.codes.maxValue
  zero : column.codes.minValue = 0

/-- The type of the codes of an unsigned nullable column leaves room for NULL. -/
structure NullableTypes : Prop where
  unsigned : column.signed = false
  nullable : column.mayBeNull = true
  least : column.values.minValue = 0
  large : column.large = column.values.maxValue + 1
  high : column.large + 1 ≤ column.codes.maxValue
  zero : column.codes.minValue = 0

/-- An unsigned column that is never null is encoded in its own type. -/
structure NotNullTypes : Prop where
  unsigned : column.signed = false
  notNull : column.mayBeNull = false
  same : column.codes = column.values
  least : column.values.minValue = 0

theorem types : column.SignedTypes ∨ column.NullableTypes ∨ column.NotNullTypes := by
  rcases TypeSequence.new_cases column.accepted with
    ⟨width, wide, doubled, shape⟩ | ⟨width, wide, nullable, doubled, shape⟩ | ⟨width, notNull, shape⟩
  · left
    constructor
    all_goals
      simp only [signed, values, intermediate, codes, large, shape]
      try cases width <;> cases doubled <;> decide
  · right
    left
    constructor
    case nullable => exact nullable
    all_goals
      simp only [signed, values, codes, large, shape]
      try cases width <;> cases doubled <;> decide
  · right
    right
    refine ⟨?_, notNull, ?_, ?_⟩ <;> simp only [signed, values, codes, shape]
    rfl

variable {column} {value : ℤ}

namespace SignedTypes

variable (types : column.SignedTypes)

include types

/-- The two additions for a NULL after signed values do not overflow. -/
theorem null_eq :
    ((column.codes.checked (column.large + 1)).bind fun i => column.codes.checked (i + 1)) =
      some (column.large + 2) := by
  obtain ⟨-, least, large, low, high, wide, zero⟩ := types
  have := column.values.maxValue_nonneg
  simp (disch := omega) [checked_of_le]
  omega

/-- `to_signed_option` recognises the code of NULL and no other. -/
theorem toSignedOption_eq (code : ℤ) :
    toSignedOption column.values column.intermediate column.codes column.large
        column.ascending column.nullsLast code =
      if code = column.nullCode then some none
      else (toSigned column.values column.intermediate column.ascending
        code).map some := by
  have last := types.null_eq
  simp only [toSignedOption, nullCode, types.signed, if_true]
  cases column.nullsLast with
  | true =>
    have swap : (column.large + 2 = code) = (code = column.large + 2) := propext eq_comm
    simp only [if_true, bind_eq_bind, ← bind_assoc, last, bind_some, beq_iff_eq, swap]
  | false => simp

variable (contains : column.values.Contains value)

include contains

/-- `from_signed` computes the code of every value. -/
theorem fromSigned_eq_code : fromSigned column.values column.intermediate column.codes
      column.ascending value = some (column.code (some value)) := by
  obtain ⟨signed, least, large, low, high, wide, zero⟩ := types
  obtain ⟨above, below⟩ := contains
  simp only [fromSigned, code, firstCode, rank, signed, if_true]
  cases column.ascending <;> simp (disch := omega) [checked_of_le] <;> omega

/-- `to_signed` inverts the code of every value. -/
theorem toSigned_code : toSigned column.values column.intermediate column.ascending
      (column.code (some value)) = some value := by
  obtain ⟨signed, least, large, low, high, wide, zero⟩ := types
  obtain ⟨above, below⟩ := contains
  simp only [toSigned, code, firstCode, rank, signed, if_true]
  cases column.ascending <;> simp (disch := omega) [checked_of_le] <;> omega

end SignedTypes

namespace NullableTypes

variable (types : column.NullableTypes)

include types

/-- The addition for a NULL after unsigned values does not overflow. -/
theorem null_eq : column.codes.checked (column.large + 1) = some (column.large + 1) := by
  obtain ⟨-, -, least, large, high, zero⟩ := types
  have := column.values.maxValue_nonneg
  exact checked_of_contains ⟨by omega, by omega⟩

/-- `to_unsigned_option` recognises the code of NULL and decodes every other. -/
theorem toUnsignedOption_eq (code : ℤ) : toUnsignedOption column.values column.codes column.large
        column.ascending column.nullsLast code =
      if code = column.nullCode then some none
      else (column.codes.checked (code - 1)).bind fun i =>
        (column.values.checked i).bind fun o =>
          if column.ascending then some (some o)
          else (column.values.checked (column.values.maxValue - o)).map some := by
  have last := types.null_eq
  simp only [toUnsignedOption, nullCode, types.unsigned, false_eq_true, if_false]
  cases column.nullsLast with
  | true => simp only [if_true, bind_eq_bind, last, bind_some, beq_iff_eq]
  | false => simp

variable (contains : column.values.Contains value)

include contains

/-- `from_unsigned_option` computes the code of every value. -/
theorem fromUnsignedOption_eq_code : fromUnsignedOption column.values column.codes column.large
      column.ascending column.nullsLast (some value) = some (column.code (some value)) := by
  obtain ⟨unsigned, nullable, least, large, high, zero⟩ := types
  obtain ⟨above, below⟩ := contains
  simp only [fromUnsignedOption, code, firstCode, rank, unsigned, nullable,
    false_eq_true, if_false, if_true]
  cases column.ascending <;> simp (disch := omega) [checked_of_le] <;> omega

/-- `to_unsigned_option` inverts the code of every value. -/
theorem toUnsignedOption_code (nonnull : column.code (some value) ≠ column.nullCode) :
    toUnsignedOption column.values column.codes column.large
      column.ascending column.nullsLast (column.code (some value)) = some (some value) := by
  rw [types.toUnsignedOption_eq, if_neg nonnull]
  obtain ⟨unsigned, nullable, least, large, high, zero⟩ := types
  obtain ⟨above, below⟩ := contains
  simp only [code, firstCode, rank, unsigned, nullable, false_eq_true, if_false, if_true]
  cases column.ascending <;> simp (disch := omega) [checked_of_le]
  omega

end NullableTypes

namespace NotNullTypes

variable (types : column.NotNullTypes) (contains : column.values.Contains value)

include types contains

/-- `from_unsigned` computes the code of every value. -/
theorem fromUnsigned_eq_code : fromUnsigned column.codes column.ascending value =
      some (column.code (some value)) := by
  obtain ⟨unsigned, notNull, same, least⟩ := types
  obtain ⟨above, below⟩ := contains
  simp only [fromUnsigned, code, firstCode, rank, unsigned, notNull, false_eq_true, if_false, same]
  cases column.ascending <;> simp (disch := omega) [checked_of_le, least]

/-- `to_unsigned` inverts the code of every value. -/
theorem toUnsigned_code :
    toUnsigned column.codes column.ascending (column.code (some value)) = some value := by
  obtain ⟨unsigned, notNull, same, least⟩ := types
  obtain ⟨above, below⟩ := contains
  simp only [toUnsigned, fromUnsigned, code, firstCode, rank,
    unsigned, notNull, false_eq_true, if_false, same]
  cases column.ascending <;> simp (disch := omega) [checked_of_le, least]

end NotNullTypes

theorem rank_bounds (contains : column.values.Contains value) : 0 ≤ column.rank value ∧
      column.rank value ≤ column.values.maxValue - column.values.minValue := by
  obtain ⟨above, below⟩ := contains
  simp only [rank]
  cases column.ascending <;> simp only [if_true, false_eq_true, if_false] <;> omega

/-- NULL comes before every value or after every value, as requested. -/
theorem nullCode_lt_or_gt (nullable : column.mayBeNull = true)
    (contains : column.values.Contains value) :
    if column.nullsLast then column.code (some value) < column.nullCode
    else column.nullCode < column.code (some value) := by
  obtain ⟨nonneg, small⟩ := rank_bounds contains
  simp only [code, nullCode, firstCode, nullable, if_true]
  rcases column.types with ⟨signed, least, large, -⟩ | ⟨unsigned, -, least, large, -⟩ | ⟨-, notNull, -⟩
  · cases column.nullsLast <;> cases column.ascending <;> simp [signed] <;> omega
  · cases column.nullsLast <;> simp [unsigned] <;> omega
  · simp [nullable] at notNull

theorem code_ne_nullCode (nullable : column.mayBeNull = true)
    (contains : column.values.Contains value) : column.code (some value) ≠ column.nullCode := by
  have apart := nullCode_lt_or_gt nullable contains
  split at apart
  case isTrue => exact ne_of_lt apart
  case isFalse => exact ne_of_gt apart

variable (value : column.Value)

/-- Every code is a value of the unsigned type. -/
theorem codes_contains_code : column.codes.Contains (column.code value) := by
  have nonneg := column.values.maxValue_nonneg
  obtain ⟨_ | value, admits⟩ := value
  case none =>
    simp only [code, nullCode, PrimInt.Contains]
    rcases column.types with ⟨signed, _⟩ | ⟨unsigned, _⟩ | ⟨-, notNull, -⟩
    · cases column.nullsLast <;> simp [signed] <;> omega
    · cases column.nullsLast <;> simp [unsigned] <;> omega
    · simp [Admits, notNull] at admits
  case some =>
    have bounds := rank_bounds admits
    simp only [code, firstCode, PrimInt.Contains]
    rcases column.types with ⟨signed, _⟩ | ⟨unsigned, nullable, _⟩ | ⟨unsigned, notNull, same, _⟩
    · cases column.ascending <;> simp [signed] <;> omega
    · simp [unsigned, nullable]
      omega
    · simp [unsigned, notNull, same]
      omega

/-- The conversions compute the codes, so none of their steps overflows. -/
theorem wrap_eq_code : column.wrap value = some (column.code value) := by
  obtain ⟨_ | value, admits⟩ := value
  case none =>
    simp only [Admits] at admits
    rcases column.types with types | types | types
    · simp only [wrap, code, nullCode, types.signed, admits, if_true, fromOption]
      split
      case isTrue => exact types.null_eq
      case isFalse => rfl
    · simp only [wrap, code, nullCode, types.unsigned, admits, if_true, false_eq_true, if_false,
        fromUnsignedOption]
      split
      case isTrue => exact types.null_eq
      case isFalse => rfl
    · simp [types.notNull] at admits
  case some =>
    rcases column.types with types | types | types
    · have computed := types.fromSigned_eq_code admits
      cases nullable : column.mayBeNull <;>
        simpa [wrap, types.signed, nullable, fromOption] using computed
    · simpa [wrap, types.unsigned, types.nullable] using types.fromUnsignedOption_eq_code admits
    · simpa [wrap, types.unsigned, types.notNull] using types.fromUnsigned_eq_code admits

/-- The conversions back invert the codes. -/
theorem unwrap_code : column.unwrap (column.code value) = some value.1 := by
  obtain ⟨_ | value, admits⟩ := value
  case none =>
    simp only [Admits] at admits
    rcases column.types with types | types | types
    · simp [unwrap, code, types.signed, admits, types.toSignedOption_eq]
    · simp [unwrap, code, types.unsigned, admits, types.toUnsignedOption_eq]
    · simp [types.notNull] at admits
  case some =>
    rcases column.types with types | types | types
    · have decoded := types.toSigned_code admits
      cases nullable : column.mayBeNull with
      | true =>
        simp only [unwrap, types.signed, nullable, if_true]
        rw [types.toSignedOption_eq, if_neg (code_ne_nullCode nullable admits), decoded, map_some]
      | false => simp [unwrap, types.signed, nullable, decoded]
    · have decoded := types.toUnsignedOption_code admits (code_ne_nullCode types.nullable admits)
      simp [unwrap, types.unsigned, types.nullable, decoded]
    · simp [unwrap, types.unsigned, types.notNull, types.toUnsigned_code admits]

/-- Codes are unsigned and have room for every positive value of the column. -/
theorem codes_room (column : SortColumn) :
    column.codes.minValue = 0 ∧ column.values.maxValue ≤ column.codes.maxValue := by
  have nonneg := column.values.maxValue_nonneg
  rcases column.types with ⟨-, _⟩ | ⟨-, _⟩ | ⟨-, -, same, least⟩
  · omega
  · omega
  · rw [same]
    exact ⟨least, le_refl _⟩

theorem code_sub_code (current other : ℤ) : column.code (some other) - column.code (some current) =
      if column.ascending then other - current else current - other := by
  simp only [code, rank]
  cases column.ascending <;> simp only [if_true, false_eq_true, if_false] <;> omega

end OpenDera.Sqllib.SortColumn
