import OpenDera.Sqllib.UnsignedWrappersCorrect
import OpenDera.TimeSeries.Ranges

/-!
# `RANGE` frames

`RangeAggregates` compiles a window with a `RANGE` frame to a rolling aggregate
over the unsigned codes of the `ORDER BY` column: the frame bounds become
offsets on the number line of the codes. Between two values the offsets measure
what SQL asks for. NULL also has a place on that line, next to one end of the
values, so a bounded frame can reach from a value to NULL or from NULL to a
value although SQL lets only an unbounded frame do so.
-/

namespace OpenDera.Compiler

open OpenDera.Sqllib OpenDera.TimeSeries SortColumn Option

/-- `RexWindowBound`. -/
inductive RexWindowBound where
  | unbounded (preceding : Bool)
  | currentRow
  | offset (preceding : Bool) (amount : ℤ)
  deriving DecidableEq, Repr

namespace RexWindowBound

/-- `RexWindowBound.isPreceding`. -/
def isPreceding : RexWindowBound → Bool
  | unbounded preceding => preceding
  | currentRow => false
  | offset preceding _ => preceding

/-- `compileWindowBound`: the bound as an offset between codes; `none` where the
compiler rejects it. -/
def compileWindowBound (column : SortColumn) (bound : RexWindowBound) : Option RelOffset := do
  let numericBound ← match bound with
    | unbounded _ => some column.codes.maxValue
    | currentRow => some 0
    | offset _ amount =>
      if 0 < amount then
        (column.values.checked amount).bind column.codes.checked
      else none
  some (if bound.isPreceding then .before numericBound else .after numericBound)

/-- Where a bound lies relative to the current row, in sort direction; `none` if
it is unbounded. -/
def displacement : RexWindowBound → Option ℤ
  | unbounded _ => none
  | currentRow => some 0
  | offset preceding amount => some (if preceding then -amount else amount)

end RexWindowBound

variable (column : SortColumn)

/-- The frame of a `RANGE` window over a column. Offsets are positive values of
the column's type. -/
structure WindowFrame where
  lowerBound : RexWindowBound
  upperBound : RexWindowBound
  lowerLegal : lowerBound ≠ .unbounded false
  upperLegal : upperBound ≠ .unbounded true
  offsets : ∀ bound ∈ [lowerBound, upperBound], ∀ preceding amount,
    bound = .offset preceding amount → 0 < amount ∧ column.values.Contains amount

/-- `left` does not come after `right` in the requested order. -/
def SortsAtMost : Option ℤ → Option ℤ → Prop
  | some left, some right => if column.ascending then left ≤ right else right ≤ left
  | some _, none => column.nullsLast = true
  | none, some _ => column.nullsLast = false
  | none, none => True

attribute [local simp] SortsAtMost

/-- The encoding of a column is faithful: it is defined for every value, keeps
the requested order, maps no two values to one code and is inverted by the
conversion back. -/
structure Faithful : Prop where
  total : ∀ value : column.Value, ∃ code, column.wrap value = some code
  injective : ∀ left right : column.Value, column.wrap left = column.wrap right → left = right
  ordered : ∀ (left right : column.Value) (leftCode rightCode : ℤ),
    column.wrap left = some leftCode → column.wrap right = some rightCode →
      (leftCode ≤ rightCode ↔ SortsAtMost column left right)
  inverted : ∀ (value : column.Value) (code : ℤ),
    column.wrap value = some code → column.unwrap code = some value.1

namespace WindowFrame

variable {column : SortColumn} (frame : WindowFrame column)

/-- A distance is between the bounds of the frame. -/
def Spans (distance : ℤ) : Prop :=
  (∀ lower ∈ frame.lowerBound.displacement, lower ≤ distance) ∧
    ∀ upper ∈ frame.upperBound.displacement, distance ≤ upper

/-- The frame of `current` in SQL contains `other`: two values are compared by
their distance in sort direction, and where one is NULL a bounded side ends with
the peers of the current row. -/
def InFrame (current other : Option ℤ) : Prop :=
  match current, other with
  | some current, some other =>
    frame.Spans (if column.ascending then other - current else current - other)
  | current, other =>
    (frame.lowerBound = .unbounded true ∨ SortsAtMost column current other) ∧
      (frame.upperBound = .unbounded false ∨ SortsAtMost column other current)

variable (current other : column.Value)

/-- The rolling aggregate takes `other` into the range of `current`; `none` if
the compiler rejects the window or a conversion fails. -/
def selects : Option Bool := do
  let lower ← frame.lowerBound.compileWindowBound column
  let upper ← frame.upperBound.compileWindowBound column
  let now ← column.wrap current
  let timestamp ← column.wrap other
  some (((⟨lower, upper⟩ : RelRange).rangeOf column.codes now).any
    fun range => decide (range.Contains timestamp))

/-- `selects` decides membership in the SQL frame. -/
def Correct : Prop :=
  ∃ answer, frame.selects current other = some answer ∧
    (answer = true ↔ frame.InFrame current other)

/-- How far the frame reaches to one side of the current row; `none` if it is
unbounded there. -/
def reach (before : Bool) : Option ℤ :=
  if before then frame.lowerBound.displacement.map (- ·) else frame.upperBound.displacement

/-- How far from the current row the frame begins on one side of it; `none` if
it is unbounded on the other side. -/
def gap (before : Bool) : Option ℤ :=
  if before then frame.upperBound.displacement.map (- ·) else frame.lowerBound.displacement

end WindowFrame

/-- The distance between the code of a value and the code of NULL, which is next
to the smallest value of the type or, one further for a signed type, to the
largest. -/
def nullDistance (value : ℤ) : ℤ :=
  if column.ascending = column.nullsLast then
    column.values.maxValue - value + (if column.signed then 2 else 1)
  else value - column.values.minValue + 1

namespace WindowFrame

variable {column : SortColumn} (frame : WindowFrame column)

/-- The frame does not take the distance between a value and NULL for a distance
between values: on the side of the current row on which the other one is, an
unbounded frame begins before that distance, and a bounded one ends before it or
begins after it. -/
def KeepsNullApart (current other : Option ℤ) : Prop :=
  match current, other with
  | some _, some _ => True
  | none, none => (∀ gap ∈ frame.gap true, gap ≤ 0) ∧ ∀ gap ∈ frame.gap false, gap ≤ 0
  | some value, none => separates (!column.nullsLast) value
  | none, some value => separates column.nullsLast value
where
  /-- The frame treats NULL as infinitely far away from `value` on one side. -/
  separates (before : Bool) (value : ℤ) : Prop :=
    match frame.reach before with
    | none => ∀ gap ∈ frame.gap before, gap ≤ nullDistance column value
    | some reach => reach < nullDistance column value ∨
        ∃ gap ∈ frame.gap before, nullDistance column value < gap

end WindowFrame

/-! ### Codes and distances -/

variable {column : SortColumn}

/-- The distance of a value from NULL on the line of codes. -/
theorem code_sub_nullCode (nullable : column.mayBeNull = true) (value : ℤ) :
    column.code (some value) - column.nullCode =
      if column.nullsLast then -nullDistance column value else nullDistance column value := by
  simp only [code, nullCode, firstCode, rank, nullDistance, nullable, if_true]
  rcases column.types with ⟨signed, least, large, -⟩ | ⟨unsigned, -, least, large, -⟩ | ⟨-, notNull, -⟩
  · cases column.nullsLast <;> cases column.ascending <;> simp [signed] <;> omega
  · cases column.nullsLast <;> cases column.ascending <;> simp [unsigned] <;> omega
  · simp [nullable] at notNull

open RexWindowBound

/-- A legal bound compiles to an offset of the same displacement; an unbounded
one to the widest offset of the type of the codes. -/
theorem compileWindowBound_spec {bound : RexWindowBound}
    (positive : ∀ preceding amount, bound = .offset preceding amount →
      0 < amount ∧ column.values.Contains amount) :
    ∃ offset, bound.compileWindowBound column = some offset ∧ 0 ≤ offset.amount ∧
      offset.displacement = bound.displacement.getD
        (if bound.isPreceding then -column.codes.maxValue else column.codes.maxValue) := by
  obtain ⟨least, room⟩ := column.codes_room
  cases bound with
  | unbounded preceding =>
    refine ⟨if preceding then .before column.codes.maxValue else .after column.codes.maxValue,
      rfl, ?_, ?_⟩
    · cases preceding <;> exact column.codes.maxValue_nonneg
    · cases preceding <;> rfl
  | currentRow => exact ⟨.after 0, rfl, le_refl 0, rfl⟩
  | offset preceding amount =>
    obtain ⟨amountPos, contains⟩ := positive preceding amount rfl
    have codeContains : column.codes.Contains amount :=
      ⟨by omega, le_trans contains.2 room⟩
    refine ⟨if preceding then .before amount else .after amount, ?_, ?_, ?_⟩
    · cases preceding <;>
        simp [compileWindowBound, isPreceding, amountPos,
          PrimInt.checked_of_contains contains, PrimInt.checked_of_contains codeContains]
    · cases preceding <;> exact le_of_lt amountPos
    · cases preceding <;> rfl

namespace WindowFrame

variable (frame : WindowFrame column)

attribute [local simp] displacement isPreceding in
/-- On the line of codes an unbounded side imposes nothing. -/
theorem spans_iff_displacements {lower upper : RelOffset} {distance : ℤ}
    (lowerDisplacement : lower.displacement = frame.lowerBound.displacement.getD
      (if frame.lowerBound.isPreceding then -column.codes.maxValue else column.codes.maxValue))
    (upperDisplacement : upper.displacement = frame.upperBound.displacement.getD
      (if frame.upperBound.isPreceding then -column.codes.maxValue else column.codes.maxValue))
    (above : -column.codes.maxValue ≤ distance) (below : distance ≤ column.codes.maxValue) :
    (lower.displacement ≤ distance ∧ distance ≤ upper.displacement) ↔ frame.Spans distance := by
  rw [lowerDisplacement, upperDisplacement, Spans]
  apply and_congr
  · cases bound : frame.lowerBound with
    | unbounded preceding =>
      cases preceding with
      | true => simpa using above
      | false => exact absurd bound frame.lowerLegal
    | currentRow => simp
    | offset => simp
  · cases bound : frame.upperBound with
    | unbounded preceding =>
      cases preceding with
      | true => exact absurd bound frame.upperLegal
      | false => simpa using below
    | currentRow => simp
    | offset => simp

variable (current other : column.Value)

/-- The rolling aggregate measures the distance between codes. -/
theorem selects_spec : ∃ answer, frame.selects current other = some answer ∧
      (answer = true ↔ frame.Spans (column.code other - column.code current)) := by
  obtain ⟨lower, lowerCompiled, lowerNonneg, lowerDisplacement⟩ :=
    compileWindowBound_spec (frame.offsets frame.lowerBound (by simp))
  obtain ⟨upper, upperCompiled, upperNonneg, upperDisplacement⟩ :=
    compileWindowBound_spec (frame.offsets frame.upperBound (by simp))
  have now := codes_contains_code current
  have contains := codes_contains_code other
  obtain ⟨least, room⟩ := column.codes_room
  refine ⟨((⟨lower, upper⟩ : RelRange).rangeOf column.codes (column.code current)).any
    fun range => decide (range.Contains (column.code other)), ?_, ?_⟩
  · simp only [selects, lowerCompiled, upperCompiled, wrap_eq_code, bind_eq_bind, bind_some]
  · have measured := RelRange.mem_rangeOf_iff ⟨lower, upper⟩ ⟨lowerNonneg, upperNonneg⟩ now contains
    rw [← frame.spans_iff_displacements lowerDisplacement upperDisplacement
      (by have := now.2; have := contains.1; omega) (by have := now.1; have := contains.2; omega)]
    simpa [any_eq_true, RelRange.Covers] using measured

/-- Between two values the rolling aggregate and SQL measure the same distance. -/
theorem spans_iff_inFrame_values (current other : ℤ) :
    frame.Spans (column.code (some other) - column.code (some current)) ↔
      frame.InFrame (some current) (some other) := by
  rw [code_sub_code]
  rfl

/-- The bounds of the frame as seen in one direction from the current row. -/
theorem spans_iff_side (before : Bool) (distance : ℤ) :
    frame.Spans (if before then -distance else distance) ↔
      (∀ gap ∈ frame.gap before, gap ≤ distance) ∧
        ∀ reach ∈ frame.reach before, distance ≤ reach := by
  cases before with
  | true =>
    simp only [Spans, gap, reach, if_true, mem_def, map_eq_some_iff,
      forall_exists_index, and_imp, forall_apply_eq_imp_iff₂]
    constructor
    · rintro ⟨lower, upper⟩
      exact ⟨fun bound found => by have := upper bound found; omega,
        fun bound found => by have := lower bound found; omega⟩
    · rintro ⟨upper, lower⟩
      exact ⟨fun bound found => by have := lower bound found; omega,
        fun bound found => by have := upper bound found; omega⟩
  | false => simp [Spans, gap, reach]

/-- Two NULLs have one code, which the rolling aggregate finds in the frame
unless that begins on one side of the current row. -/
theorem spans_zero_iff :
    frame.Spans 0 ↔ (∀ gap ∈ frame.gap true, gap ≤ 0) ∧ ∀ gap ∈ frame.gap false, gap ≤ 0 := by
  have before := frame.spans_iff_side true 0
  have after := frame.spans_iff_side false 0
  constructor
  · intro spans
    exact ⟨(before.mp spans).1, (after.mp spans).1⟩
  · rintro ⟨gapBefore, gapAfter⟩
    refine after.mpr ⟨gapAfter, fun reach found => ?_⟩
    have turned : -reach ∈ frame.gap true := by
      rw [gap, if_pos rfl, show frame.upperBound.displacement = some reach from found]
      rfl
    have := gapBefore (-reach) turned
    omega

theorem inFrame_none_none : frame.InFrame none none := by
  simp [InFrame]

attribute [local simp] displacement in
/-- The frame is unbounded before the current row. -/
theorem reach_before_eq_none : frame.reach true = none ↔ frame.lowerBound = .unbounded true := by
  have legal := frame.lowerLegal
  simp only [reach, if_true, map_eq_none_iff]
  cases bound : frame.lowerBound with
  | unbounded preceding => cases preceding <;> simp_all
  | currentRow => simp
  | offset => simp

attribute [local simp] displacement in
/-- The frame is unbounded after the current row. -/
theorem reach_after_eq_none : frame.reach false = none ↔ frame.upperBound = .unbounded false := by
  have legal := frame.upperLegal
  simp only [reach, Bool.false_eq_true, if_false]
  cases bound : frame.upperBound with
  | unbounded preceding => cases preceding <;> simp_all
  | currentRow => simp
  | offset => simp

/-- NULL is in the frame of a value in SQL only if the frame is unbounded in the
direction of NULL. -/
theorem inFrame_value_none (value : ℤ) :
    frame.InFrame (some value) none ↔ frame.reach (!column.nullsLast) = none := by
  cases last : column.nullsLast with
  | true => simp [InFrame, last, reach_after_eq_none]
  | false => simp [InFrame, last, reach_before_eq_none]

/-- A value is in the frame of NULL in SQL only if the frame is unbounded in the
direction of the values. -/
theorem inFrame_none_value (value : ℤ) :
    frame.InFrame none (some value) ↔ frame.reach column.nullsLast = none := by
  cases last : column.nullsLast with
  | true => simp [InFrame, last, reach_before_eq_none]
  | false => simp [InFrame, last, reach_after_eq_none]

/-- On the line of codes the distance to NULL is within the bounds of the frame
exactly where SQL finds NULL in it, if the frame keeps NULL apart. -/
theorem spans_iff_unbounded_iff_separates (before : Bool) (value : ℤ) :
    (frame.Spans (if before then -nullDistance column value else nullDistance column value) ↔
      frame.reach before = none) ↔ KeepsNullApart.separates frame before value := by
  rw [spans_iff_side, KeepsNullApart.separates]
  cases frame.reach before with
  | none => simp
  | some =>
    simp only [mem_def, some.injEq, forall_eq', reduceCtorEq, iff_false, not_and, not_le]
    constructor
    · intro short
      by_cases begun : ∀ gap, frame.gap before = some gap → gap ≤ nullDistance column value
      case pos => exact .inl (short begun)
      case neg =>
        push Not at begun
        obtain ⟨gap, found, late⟩ := begun
        exact .inr ⟨gap, found, late⟩
    · rintro (short | ⟨gap, found, late⟩) begun
      · exact short
      · exact absurd (begun gap found) (not_le.mpr late)

/-- The rolling aggregate finds a row in the frame exactly when SQL does, if the
frame keeps NULL apart. -/
theorem correct_iff_keepsNullApart :
    frame.Correct current other ↔ frame.KeepsNullApart current other := by
  obtain ⟨answer, selected, measured⟩ := frame.selects_spec current other
  have correct : frame.Correct current other ↔
      (frame.Spans (column.code other - column.code current) ↔
        frame.InFrame current other) := by
    simp [Correct, selected, measured]
  rw [correct]
  obtain ⟨current | current, currentAdmits⟩ := current <;>
    obtain ⟨other | other, otherAdmits⟩ := other
  case none.none =>
    simp only [sub_self, KeepsNullApart, iff_true_right frame.inFrame_none_none, spans_zero_iff]
  case none.some =>
    rw [inFrame_none_value, show column.code none = column.nullCode from rfl,
      code_sub_nullCode currentAdmits]
    exact frame.spans_iff_unbounded_iff_separates column.nullsLast other
  case some.none =>
    have turned : column.code none - column.code (some current) =
        if !column.nullsLast then -nullDistance column current
        else nullDistance column current := by
      rw [show column.code none = column.nullCode from rfl, ← neg_sub,
        code_sub_nullCode otherAdmits]
      cases column.nullsLast <;> simp
    rw [inFrame_value_none, turned]
    exact frame.spans_iff_unbounded_iff_separates (!column.nullsLast) current
  case some.some => simp only [spans_iff_inFrame_values, KeepsNullApart]

end WindowFrame

/-- Codes are ordered as requested. -/
theorem code_le_code_iff (left right : column.Value) :
    column.code left ≤ column.code right ↔ SortsAtMost column left right := by
  obtain ⟨left | left, leftAdmits⟩ := left <;> obtain ⟨right | right, rightAdmits⟩ := right
  case none.none => simp
  case none.some =>
    have apart := nullCode_lt_or_gt leftAdmits rightAdmits
    simp only [SortsAtMost, show column.code none = column.nullCode from rfl]
    cases last : column.nullsLast <;> simp_all [le_of_lt]
  case some.none =>
    have apart := nullCode_lt_or_gt rightAdmits leftAdmits
    simp only [SortsAtMost, show column.code none = column.nullCode from rfl]
    cases last : column.nullsLast <;> simp_all [le_of_lt]
  case some.some =>
    rw [← sub_nonneg, code_sub_code, SortsAtMost]
    cases column.ascending <;> simp

/-- The encoding of every column is faithful. -/
theorem faithful (column : SortColumn) : Faithful column := by
  constructor
  case total => exact fun value => ⟨_, wrap_eq_code value⟩
  case injective =>
    intro left right same
    rw [wrap_eq_code, wrap_eq_code, some.injEq] at same
    have decoded := unwrap_code left
    rw [same, unwrap_code right, some.injEq] at decoded
    exact Subtype.ext decoded.symm
  case ordered =>
    intro left right leftCode rightCode leftWrapped rightWrapped
    rw [wrap_eq_code, some.injEq] at leftWrapped rightWrapped
    rw [← leftWrapped, ← rightWrapped]
    exact code_le_code_iff left right
  case inverted =>
    intro value code wrapped
    rw [wrap_eq_code, some.injEq] at wrapped
    rw [← wrapped]
    exact unwrap_code value

/-- **`RANGE` frames over codes.** The encoding of a sort column is faithful for
every type, direction and placement of NULL, and the rolling aggregate finds a
row in the frame of another exactly when SQL does, provided that the frame does
not bridge the distance between the code of a value and the code of NULL. -/
theorem range_frames_correct_iff (column : SortColumn) (frame : WindowFrame column)
    (current other : column.Value) :
    (Faithful column ∧ frame.Correct current other) ↔ frame.KeepsNullApart current other := by
  rw [frame.correct_iff_keepsNullApart]
  exact and_iff_right (faithful column)

/-- A nullable 8-bit column in ascending order with NULL first. -/
def tinyintNullsFirst : SortColumn where
  sortType := .integer ⟨.w8, true⟩
  mayBeNull := true
  ascending := true
  nullsLast := false
  sequence := ⟨⟨.w8, true⟩, ⟨.w16, true⟩, ⟨.w16, false⟩⟩
  accepted := rfl

/-- `RANGE BETWEEN 1 PRECEDING AND CURRENT ROW`. -/
def onePreceding : WindowFrame tinyintNullsFirst where
  lowerBound := .offset true 1
  upperBound := .currentRow
  lowerLegal := by decide
  upperLegal := by decide
  offsets := by
    intro bound member preceding amount found
    subst found
    simp only [List.mem_cons, offset.injEq, reduceCtorEq, List.not_mem_nil,
      or_false] at member
    rw [member.2]
    decide

/-- NULL has code 0 and the smallest value has code 1, so `1 PRECEDING` reaches
from that value to NULL. -/
theorem onePreceding_reaches_null :
    onePreceding.selects ⟨some (-128), by decide⟩ ⟨none, rfl⟩ = some true ∧
      ¬ onePreceding.InFrame (some (-128)) none := by
  constructor
  · decide
  · simp [WindowFrame.InFrame, onePreceding, tinyintNullsFirst]

end OpenDera.Compiler
