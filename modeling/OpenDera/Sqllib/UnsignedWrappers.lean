import OpenDera.Std.PrimInt

/-!
# Unsigned encoding of sort columns

The rolling aggregate orders rows by an unsigned timestamp. `UnsignedWrappers`
turns the value of an `ORDER BY` column into one: a signed type is shifted to
the positive numbers of a type of twice the width, a descending order is
reversed, and NULL gets a code before or after all others. Every step is checked
against the type in which it is computed.
-/

namespace OpenDera.Sqllib

open Option

/-- The widths of the primitive integer types. -/
inductive Width where
  | w8
  | w16
  | w32
  | w64
  | w128
  deriving DecidableEq, Repr

namespace Width

/-- The number of bits. -/
def bits : Width → ℕ
  | w8 => 8
  | w16 => 16
  | w32 => 32
  | w64 => 64
  | w128 => 128

/-- Twice the width; there are no integers wider than 128 bits. -/
def double : Width → Option Width
  | w8 => some w16
  | w16 => some w32
  | w32 => some w64
  | w64 => some w128
  | w128 => none

/-- `FirstLargeValue::large` of the unsigned type of a width: the first value
that is too large for the narrower type. -/
def large : Width → ℤ
  | w8 => 0x1
  | w16 => 0x100
  | w32 => 0x10000
  | w64 => 0x100000000
  | w128 => 0x10000000000000000

end Width

/-- `DBSPTypeInteger`. -/
structure DBSPTypeInteger where
  width : Width
  signed : Bool
  deriving DecidableEq, Repr

/-- The values of an integer type. -/
def DBSPTypeInteger.prim (type : DBSPTypeInteger) : PrimInt where
  minValue := if type.signed then -2 ^ (type.width.bits - 1) else 0
  maxValue := if type.signed then 2 ^ (type.width.bits - 1) - 1 else 2 ^ type.width.bits - 1
  minValue_nonpos := by
    split
    case isTrue => simp
    case isFalse => exact le_refl 0
  maxValue_nonneg := by
    split
    all_goals exact Int.sub_nonneg_of_le (Int.pow_pos (by decide))

namespace UnsignedWrappers

variable (signed intermediate unsigned : PrimInt)

/-- `from_signed`. The steps are those of the source, each checked against the
type it is computed in. -/
def fromSigned (ascending : Bool) (value : ℤ) : Option ℤ := do
  let i ← if ascending then some value else intermediate.checked (-value)
  -- 0 is reserved for NULL, so codes start at 1
  let i ← intermediate.checked (i - signed.minValue)
  let i ← intermediate.checked (i + 1)
  unsigned.checked i

/-- `from_option`. -/
def fromOption (large : ℤ) (ascending nullsLast : Bool) : Option ℤ → Option ℤ
  | none =>
    if nullsLast then do
      let i ← unsigned.checked (large + 1)
      unsigned.checked (i + 1)
    else some 0
  | some value => fromSigned signed intermediate unsigned ascending value

/-- `from_unsigned`. -/
def fromUnsigned (unsigned : PrimInt) (ascending : Bool) (value : ℤ) : Option ℤ :=
  if ascending then some value else unsigned.checked (unsigned.maxValue - value)

variable (original unsigned : PrimInt)

/-- `from_unsigned_option`. -/
def fromUnsignedOption (large : ℤ) (ascending nullsLast : Bool) : Option ℤ → Option ℤ
  | none => if nullsLast then unsigned.checked (large + 1) else some 0
  | some value => do
      let n ← if ascending then some value else original.checked (original.maxValue - value)
      unsigned.checked (n + 1)

/-- `to_signed`. -/
def toSigned (signed intermediate : PrimInt) (ascending : Bool) (value : ℤ) : Option ℤ := do
  let i ← intermediate.checked value
  let i ← intermediate.checked (i + signed.minValue)
  let i ← intermediate.checked (i - 1)
  let i ← if ascending then some i else intermediate.checked (-i)
  signed.checked i

/-- `to_signed_option`. -/
def toSignedOption (large : ℤ) (ascending nullsLast : Bool) (value : ℤ) : Option (Option ℤ) := do
  let isNull ←
    if nullsLast then do
      let i ← unsigned.checked (large + 1)
      let i ← unsigned.checked (i + 1)
      some (i == value)
    else some (value == 0)
  if isNull then some none
  else (toSigned signed intermediate ascending value).map some

/-- `to_unsigned`. -/
def toUnsigned (unsigned : PrimInt) (ascending : Bool) (value : ℤ) : Option ℤ :=
  fromUnsigned unsigned ascending value

/-- `to_unsigned_option`. -/
def toUnsignedOption (large : ℤ) (ascending nullsLast : Bool) (value : ℤ) : Option (Option ℤ) := do
  let isNull ←
    if nullsLast then do
      let i ← unsigned.checked (large + 1)
      some (value == i)
    else some (value == 0)
  if isNull then some none
  else do
    let i ← unsigned.checked (value - 1)
    let o ← original.checked i
    if ascending then some (some o)
    else (original.checked (original.maxValue - o)).map some

end UnsignedWrappers

/-- The SQL types of a sort column that `RANGE` windows accept. -/
inductive SortType where
  | integer (type : DBSPTypeInteger)
  | date
  | time
  | timestamp
  deriving DecidableEq, Repr

/-- `TypeSequence.getInitialIntegerType`. -/
def SortType.getInitialIntegerType : SortType → DBSPTypeInteger
  | integer type => type
  | date => ⟨.w32, true⟩
  | time => ⟨.w64, true⟩
  | timestamp => ⟨.w64, true⟩

/-- The types a value passes through on its way to an unsigned one. -/
structure TypeSequence where
  dataConvertedType : DBSPTypeInteger
  intermediateType : DBSPTypeInteger
  unsignedType : DBSPTypeInteger
  deriving DecidableEq, Repr

/-- The constructor of `TypeSequence`; `none` where it throws. -/
def TypeSequence.new (dataType : SortType) (mayBeNull : Bool) : Option TypeSequence := do
  let dataConvertedType := dataType.getInitialIntegerType
  if !dataConvertedType.signed then
    let useWidth ←
      if mayBeNull then dataConvertedType.width.double else some dataConvertedType.width
    some ⟨dataConvertedType, ⟨useWidth, false⟩, ⟨useWidth, false⟩⟩
  else if 64 < dataConvertedType.width.bits then none
  else
    let width ← dataConvertedType.width.double
    some ⟨dataConvertedType, ⟨width, true⟩, ⟨width, false⟩⟩

/-- What the constructor returns: signed types and nullable types are widened. -/
theorem TypeSequence.new_cases {dataType : SortType} {mayBeNull : Bool}
    {sequence : TypeSequence} (created : TypeSequence.new dataType mayBeNull = some sequence) :
    (∃ width wide, Width.double width = some wide ∧
      sequence = ⟨⟨width, true⟩, ⟨wide, true⟩, ⟨wide, false⟩⟩) ∨
    (∃ width wide, mayBeNull = true ∧ Width.double width = some wide ∧
      sequence = ⟨⟨width, false⟩, ⟨wide, false⟩, ⟨wide, false⟩⟩) ∨
    (∃ width, mayBeNull = false ∧
      sequence = ⟨⟨width, false⟩, ⟨width, false⟩, ⟨width, false⟩⟩) := by
  obtain ⟨width, signed, converted⟩ :
      ∃ width signed, dataType.getInitialIntegerType = ⟨width, signed⟩ := ⟨_, _, rfl⟩
  simp only [TypeSequence.new, converted] at created
  cases signed with
  | true =>
    left
    simp only [Bool.not_true, Bool.false_eq_true, if_false] at created
    split at created
    case isTrue => exact nomatch created
    case isFalse =>
      simp only [bind_eq_bind, bind_eq_some_iff, some.injEq] at created
      obtain ⟨wide, doubled, rfl⟩ := created
      exact ⟨width, wide, doubled, rfl⟩
  | false =>
    right
    cases mayBeNull with
    | true =>
      simp only [Bool.not_false, if_true, bind_eq_bind, bind_eq_some_iff,
        some.injEq] at created
      obtain ⟨wide, doubled, rfl⟩ := created
      exact .inl ⟨width, wide, rfl, doubled, rfl⟩
    | false =>
      simp only [Bool.not_false, if_true, Bool.false_eq_true, if_false, bind_eq_bind,
        bind_some, some.injEq] at created
      exact .inr ⟨width, rfl, created.symm⟩

/-- An `ORDER BY` column of a `RANGE` window, with a type that the compiler
accepts. -/
structure SortColumn where
  sortType : SortType
  mayBeNull : Bool
  ascending : Bool
  nullsLast : Bool
  sequence : TypeSequence
  accepted : TypeSequence.new sortType mayBeNull = some sequence

namespace SortColumn

variable (column : SortColumn)

/-- The column has a signed integer type. -/
def signed : Bool :=
  column.sequence.dataConvertedType.signed

/-- The integers the column's values stand for. -/
def values : PrimInt :=
  column.sequence.dataConvertedType.prim

/-- The type in which signed values are shifted. -/
def intermediate : PrimInt :=
  column.sequence.intermediateType.prim

/-- The type of the codes. -/
def codes : PrimInt :=
  column.sequence.unsignedType.prim

/-- `FirstLargeValue::large` of the type of the codes. -/
def large : ℤ :=
  column.sequence.unsignedType.width.large

/-- What the column can hold: the values of its type and, if it may be null,
NULL. -/
def Admits : Option ℤ → Prop
  | none => column.mayBeNull = true
  | some value => column.values.Contains value

instance (value : Option ℤ) : Decidable (column.Admits value) :=
  match value with
  | none => inferInstanceAs (Decidable (_ = _))
  | some value => inferInstanceAs (Decidable (column.values.Contains value))

/-- A value of the column. -/
abbrev Value :=
  {value : Option ℤ // column.Admits value}

open UnsignedWrappers

/-- `DBSPUnsignedWrapExpression`: `getMethod` selects the conversion by the
type. A column that is never null holds no `none`. -/
def wrap (value : Option ℤ) : Option ℤ :=
  if column.signed then
    if column.mayBeNull then
      fromOption column.values column.intermediate column.codes column.large
        column.ascending column.nullsLast value
    else
      value.bind (fromSigned column.values column.intermediate column.codes
        column.ascending)
  else if column.mayBeNull then
    fromUnsignedOption column.values column.codes column.large
      column.ascending column.nullsLast value
  else
    value.bind (fromUnsigned column.codes column.ascending)

/-- `DBSPUnsignedUnwrapExpression`. -/
def unwrap (code : ℤ) : Option (Option ℤ) :=
  if column.signed then
    if column.mayBeNull then
      toSignedOption column.values column.intermediate column.codes column.large
        column.ascending column.nullsLast code
    else
      (toSigned column.values column.intermediate column.ascending code).map some
  else if column.mayBeNull then
    toUnsignedOption column.values column.codes column.large
      column.ascending column.nullsLast code
  else
    (toUnsigned column.codes column.ascending code).map some

end SortColumn

end OpenDera.Sqllib
