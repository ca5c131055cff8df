import OpenDera.Compiler.ImplementNow

/-!
# Which rows the rewritten filters let pass

Every operator that `RewriteNow` builds treats the rows of a step one by one: it lets a row
pass a number of times that depends on the row and on the current value of the clock only. A
window lets the rows pass whose timestamp lies between its bounds, and the join with the
clock those for which the condition is TRUE.
-/

namespace OpenDera.Compiler.Temporal

open TemporalFilterList IndexedZSet FilterExpression DBSPOpcode TemporalFilter

section

open StreamCalculus

variable {S Row TS : Type} [LinearOrder Row] [LinearOrder TS]

/-- A transformer lets every row pass a number of times that depends on the row and the clock. -/
def Transformer.Selects (transformer : Transformer Row TS) (count : Row → TS → ℤ) : Prop :=
  ∀ (clock : ℕ →o TS) (input : ℕ → Table Row) (time : ℕ) (row : Row),
    (transformer clock input time).weight row () =
      count row (clock time) * (input time).weight row ()

namespace Transformer

variable {first second : Transformer Row TS} {firstCount secondCount : Row → TS → ℤ}

theorem Selects.comp (outer : second.Selects secondCount) (inner : first.Selects firstCount) :
    Selects (fun clock input => second clock (first clock input)) fun row now =>
      firstCount row now * secondCount row now := by
  intro clock input time row
  rw [outer, inner]
  ring

theorem Selects.add (left : first.Selects firstCount) (right : second.Selects secondCount) :
    Selects (fun clock input time => first clock input time + second clock input time)
      fun row now => firstCount row now + secondCount row now := by
  intro clock input time row
  rw [weight_add, left, right, add_mul]

theorem Selects.sub (left : first.Selects firstCount) (right : second.Selects secondCount) :
    Selects (fun clock input time => first clock input time - second clock input time)
      fun row now => firstCount row now - secondCount row now := by
  intro clock input time row
  rw [weight_sub, left, right, sub_mul]

theorem Selects.congr (selects : first.Selects firstCount)
    (same : ∀ row now, firstCount row now = secondCount row now) : first.Selects secondCount := by
  intro clock input time row
  rw [selects, same]

end Transformer

variable (table : Table Row)

theorem weight_filter_table (condition : Row → Bool) (row : Row) :
    (table.filter fun pair => condition pair.1).weight row () =
      (condition row).toInt * table.weight row () := by
  rw [weight_filter]
  cases condition row <;> simp

section

theorem foldl_max_eq {tuples : List ((TS × Unit) × ℤ)} {init bound : TS}
    (initLe : init ≤ bound) (below : ∀ tuple ∈ tuples, tuple.1.1 ≤ bound)
    (reached : init = bound ∨ ∃ tuple ∈ tuples, tuple.1.1 = bound) :
    tuples.foldl (fun bound tuple => max bound tuple.1.1) init = bound := by
  induction tuples generalizing init with
  | nil => simpa using reached
  | cons _ _ ih =>
    rw [List.forall_mem_cons] at below
    refine ih (max_le initLe below.1) below.2 ?_
    rcases reached with rfl | ⟨found, member, rfl⟩
    · exact .inl (max_eq_left below.1)
    · rcases List.mem_cons.mp member with rfl | later
      · exact .inl (max_eq_right initLe)
      · exact .inr ⟨found, later, rfl⟩

/-- The waterline of a clock that does not go backwards is its current value. -/
theorem scalarNow_eq [BoundedOrder TS] (clock : ℕ →o TS) (time : ℕ) :
    scalarNow clock time = clock time := by
  induction time with
  | zero =>
    refine foldl_max_eq bot_le ?_ (.inr ⟨((clock 0, ()), 1), ?_, rfl⟩)
    · rintro ⟨⟨key, value⟩, weight⟩ member
      obtain ⟨rfl, present⟩ := mem_tuples.mp member
      exact (Prod.mk.inj (eq_of_weight_single_ne_zero present)).1.symm.le
    · exact mem_tuples.mpr (by simp [differentiate, now])
  | succ time ih =>
    have ordered : clock time ≤ clock (time + 1) := clock.monotone (Nat.le_succ time)
    rw [scalarNow, waterline, ← scalarNow, ih]
    refine foldl_max_eq ordered ?_ ?_
    · rintro ⟨⟨key, value⟩, weight⟩ member
      obtain ⟨rfl, present⟩ := mem_tuples.mp member
      rw [differentiate, weight_sub] at present
      by_cases current : (now clock (time + 1)).weight key value = 0
      · rw [current, zero_sub, neg_ne_zero] at present
        rw [← (Prod.mk.inj (eq_of_weight_single_ne_zero present)).1]
        exact ordered
      · exact (Prod.mk.inj (eq_of_weight_single_ne_zero current)).1.symm.le
    · rcases ordered.eq_or_lt with same | later
      · exact .inl same
      · refine .inr ⟨((clock (time + 1), ()), 1), ?_, rfl⟩
        exact mem_tuples.mpr (by simp [differentiate, now, later.ne])

end

namespace RewriteNow

variable [ScalarExpressions S Row TS] (condition : FilterExpression S Row TS)

theorem selects_filterRows :
    (filterRows condition).Selects fun row now => (condition.isTrue row now).toInt := by
  intro clock input time row
  exact weight_filter_table _ (fun row => condition.isTrue row (clock time)) row

/-- Joining with the clock adds its value to every row. -/
theorem createJoin_eq (clock : ℕ → TS) (input : ℕ → Table Row) (time : ℕ) :
    createJoin clock input time =
      (input time).map fun pair => (toLex (pair.1, clock time), ()) := by
  rw [createJoin, join_map_map, thetaJoin_eq_total, map_eq_total]
  rfl

theorem selects_implementLeftOver :
    (implementLeftOver condition).Selects fun row now => (condition.isTrue row now).toInt := by
  intro clock input time row
  have rows : implementLeftOver condition clock input time =
      (input time).filter fun pair => condition.isTrue pair.1 (clock time) := by
    rw [implementLeftOver, createJoin_eq, map_eq_total, total_filter, total_map, filter_eq_total]
    simp only [ofLex_toLex, isTrue_wrapBoolIfNeeded]
  rw [rows]
  exact weight_filter_table _ (fun row => condition.isTrue row (clock time)) row

end RewriteNow

section

variable [ScalarExpressions S Row TS]

/-- A row lies in the window for a value of the clock. -/
def WindowBounds.contains [BoundedOrder TS] (bounds : WindowBounds S TS) (row : Row) (now : TS) :
    Bool :=
  (ScalarExpressions.value bounds.common row).any fun key =>
    inWindow bounds.lowerInclusive bounds.upperInclusive (bounds.makeWindow now) key

/-- Indexing by a timestamp, taking a window and dropping the index filters the rows. -/
theorem map_filter_index_eq (common : S) (condition : TS → Bool) :
    ((table.flatMap fun pair => (RewriteNow.indexFunction common pair).toList).filter fun pair =>
        condition pair.1).map (fun pair => (pair.2, ())) =
      table.filter fun pair => (ScalarExpressions.value common pair.1).any condition := by
  rw [map_eq_total, total_filter, flatMap_eq_total, map_total, filter_eq_total]
  congr 2
  funext pair
  rw [RewriteNow.indexFunction]
  cases ScalarExpressions.value common pair.1 with
  | none => simp
  | some => simp [total_single_pair]

omit [LinearOrder TS] in
/-- Rows without a timestamp are in no window. -/
theorem filter_nonNull_eq (common : S) (condition : TS → Bool) :
    (if ScalarExpressions.mayBeNull common then
        table.filter fun pair => (ScalarExpressions.value common pair.1).isSome
      else table).filter (fun pair => (ScalarExpressions.value common pair.1).any condition) =
      table.filter fun pair => (ScalarExpressions.value common pair.1).any condition := by
  split
  case isTrue =>
    rw [filter_filter]
    congr 1
    funext pair
    cases ScalarExpressions.value common pair.1 <;> rfl
  case isFalse => rfl

/-- A temporal filter lets the rows in its window pass. -/
theorem selects_implementTemporalFilter [BoundedOrder TS] {comparisons : List (TemporalFilter S TS)}
    {bounds : WindowBounds S TS} (found : getWindowBounds comparisons = some bounds) :
    ∃ transformer : Transformer Row TS,
      RewriteNow.implementTemporalFilter comparisons = some transformer ∧
        transformer.Selects fun row now => (bounds.contains row now).toInt := by
  refine ⟨_, by rw [RewriteNow.implementTemporalFilter, found]; rfl, ?_⟩
  intro clock input time row
  simp only [window, integrate_differentiate]
  rw [map_filter_index_eq, filter_nonNull_eq, scalarNow_eq]
  exact weight_filter_table _ (fun row => bounds.contains row (clock time)) row

end

end

/-! ## How filters are judged -/

section

variable {S Row TS : Type} [LinearOrder TS] [ScalarExpressions S Row TS]

namespace FilterExpression

variable (function : FilterExpression S Row TS)

/-- The comparison that makes a filter temporal. -/
def comparison? : Option (TemporalFilter S TS) :=
  function.unwrapBool.temporalFilter?

/-- A comparison is misjudged for a row: one with NOW() on the left if the timestamp is the bound,
and an equality if the timestamp is not above it. -/
def isMisjudged (row : Row) (now : TS) : FilterExpression S Row TS → Bool
  | .compare .eq (.noNow scalar) (.monotone function) =>
    (ScalarExpressions.value scalar row).any fun timestamp => timestamp ≤ function now
  | .compare .eq (.monotone function) (.noNow scalar) =>
    (ScalarExpressions.value scalar row).any fun timestamp => timestamp ≤ function now
  | .compare _ (.monotone function) (.noNow scalar) =>
    (ScalarExpressions.value scalar row).any fun timestamp => timestamp = function now
  | _ => false

/-- What the filter takes a condition to be for a row. -/
def isJudgedTrue (row : Row) (now : TS) : Bool :=
  function.isTrue row now ^^ function.unwrapBool.isMisjudged row now

/-- What the filter takes the conjunction of two merged conditions to be. Bounds on one side are
combined to the wider one. -/
def areJudgedTrue (first second : FilterExpression S Row TS) (row : Row) (now : TS) : Bool :=
  match first.temporalFilter?, second.temporalFilter? with
  | some firstBound, some secondBound =>
    if firstBound.opcode.isGreater = secondBound.opcode.isGreater then
      first.isJudgedTrue row now || second.isJudgedTrue row now
    else first.isJudgedTrue row now && second.isJudgedTrue row now
  | some _, none => first.isJudgedTrue row now && second.isTrue row now
  | none, _ => first.isTrue row now && second.isTrue row now

/-- Two neighbouring conditions are merged. -/
def areMerged [DecidableEq S] (first second : FilterExpression S Row TS) : Bool :=
  match first.comparison?, second.comparison? with
  | some first, some second => first.compatible second
  | _, _ => false

end FilterExpression

/-- How often a row passes the filters so far, and the last of them with the number of times
that the row passes those before it. -/
structure Tally (S Row TS : Type) [LinearOrder TS] where
  count : ℤ
  last : Option (FilterExpression S Row TS × ℤ)

variable [DecidableEq S]

/-- One more filter, merged with the last one if possible. -/
def Tally.filter (tally : Tally S Row TS) (row : Row) (now : TS)
    (function : FilterExpression S Row TS) : Tally S Row TS :=
  match tally.last.filter fun last => last.1.areMerged function with
  | some (last, before) =>
    { count := before * (last.areJudgedTrue function row now).toInt
      last := some (last.and function, before) }
  | none =>
    { count := tally.count * (function.isJudgedTrue row now).toInt
      last := some (function, tally.count) }

end

/-! ## Bounds of a window -/

variable {S Row TS : Type} [LinearOrder TS] (opcode : DBSPOpcode) (key bound : TS)

/-- A comparison read as a bound of a window. -/
def DBSPOpcode.asBound : Bool := if opcode.isGreater then
    if opcode.isInclusive then decide (bound ≤ key) else decide (bound < key)
  else if opcode.isInclusive then decide (key ≤ bound) else decide (key < bound)

variable [ScalarExpressions S Row TS]

/-- A row satisfies a bound. -/
def TemporalFilter.bounds (comparison : TemporalFilter S TS) (row : Row) (now : TS) : Bool :=
  (ScalarExpressions.value comparison.noNow row).any fun key =>
    comparison.opcode.asBound key (comparison.withNow now)

/-- A comparison with the clock on the right, read as a bound. -/
theorem holds_xor_eq : (opcode.holds key bound ^^ (decide (opcode = .eq) && decide (key ≤ bound))) =
      opcode.asBound key bound := by
  cases opcode <;> simp only [holds, asBound, isGreater,
    isInclusive] <;> grind

/-- A comparison with the clock on the left, read as a bound. -/
theorem holds_xor_inverse_eq :
    (opcode.holds bound key ^^ if opcode = .eq then decide (key ≤ bound) else decide (key = bound)) =
      opcode.inverse.asBound key bound := by
  cases opcode <;> simp only [holds, asBound, isGreater,
    isInclusive, inverse] <;> grind

variable {comparison : TemporalFilter S TS}

attribute [local simp] FilterExpression.isTrue bounds FilterExpression.value
  Operand.value isMisjudged in
/-- The judgement of a comparison is that of its bound. -/
theorem isJudgedTrue_eq {function : FilterExpression S Row TS}
    (temporal : function.comparison? = some comparison) (row : Row) (now : TS) :
    function.isJudgedTrue row now = comparison.bounds row now := by
  rw [isJudgedTrue, ← isTrue_unwrapBool]
  rw [comparison?] at temporal
  generalize function.unwrapBool = expression at temporal
  unfold temporalFilter? at temporal
  split at temporal
  case h_1 opcode scalar monotone =>
    obtain rfl := Option.some.inj temporal
    cases found : ScalarExpressions.value scalar row with
    | none => cases opcode <;> simp [found]
    | some key =>
      have read := holds_xor_eq opcode key (monotone now)
      cases opcode <;> simpa [found] using read
  case h_2 opcode monotone scalar =>
    obtain rfl := Option.some.inj temporal
    cases found : ScalarExpressions.value scalar row with
    | none => cases opcode <;> simp [found]
    | some key =>
      have read := holds_xor_inverse_eq opcode key (monotone now)
      cases opcode <;> simpa [found] using read
  case h_3 => cases temporal

variable (bound : WindowBound TS)

/-- A key satisfies a lower bound. -/
def WindowBound.isBelow (key now : TS) : Bool :=
  if bound.inclusive then decide (bound.expression now ≤ key) else decide (bound.expression now < key)

/-- A key satisfies an upper bound. -/
def WindowBound.isAbove (key now : TS) : Bool :=
  if bound.inclusive then decide (key ≤ bound.expression now) else decide (key < bound.expression now)

/-- The least and the greatest timestamp bound nothing. -/
theorem inWindow_eq [BoundedOrder TS] (bounds : WindowBounds S TS) (key now : TS) :
    inWindow bounds.lowerInclusive bounds.upperInclusive (bounds.makeWindow now) key =
      (bounds.lower.elim true (fun lower => lower.isBelow key now) &&
        bounds.upper.elim true fun upper => upper.isAbove key now) := by
  obtain ⟨lower, upper, common⟩ := bounds
  rw [inWindow]
  congr 1
  · cases lower with
    | none => exact decide_eq_true bot_le
    | some => rfl
  · cases upper with
    | none => exact decide_eq_true le_top
    | some => rfl

attribute [local simp] inWindow_eq

variable {first second combined : WindowBound TS}

/-- Two lower bounds are combined to the lower one. -/
theorem isBelow_combine (found : first.combine second true = some combined) (key now : TS) :
    combined.isBelow key now = (first.isBelow key now || second.isBelow key now) := by
  obtain ⟨same, isCombined⟩ := Option.ite_none_right_eq_some.mp found
  obtain rfl := Option.some.inj isCombined
  simp only [WindowBound.isBelow, ← same, if_true]
  cases first.inclusive <;> simp

/-- Two upper bounds are combined to the upper one. -/
theorem isAbove_combine (found : first.combine second false = some combined) (key now : TS) :
    combined.isAbove key now = (first.isAbove key now || second.isAbove key now) := by
  obtain ⟨same, isCombined⟩ := Option.ite_none_right_eq_some.mp found
  obtain rfl := Option.some.inj isCombined
  simp only [WindowBound.isAbove, ← same]
  cases first.inclusive <;> simp

/-- The bound that a comparison gives. -/
def TemporalFilter.toBound (comparison : TemporalFilter S TS) : WindowBound TS :=
  { inclusive := comparison.opcode.isInclusive, expression := comparison.withNow }

attribute [local simp] toBound

theorem bounds_of_isGreater (isGreater : comparison.opcode.isGreater = true) (row : Row)
    (now : TS) :
    comparison.bounds row now = (ScalarExpressions.value comparison.noNow row).any fun key =>
      comparison.toBound.isBelow key now := by
  simp only [bounds, asBound, isGreater, if_true]
  rfl

theorem bounds_of_not_isGreater (isLess : comparison.opcode.isGreater = false) (row : Row)
    (now : TS) :
    comparison.bounds row now = (ScalarExpressions.value comparison.noNow row).any fun key =>
      comparison.toBound.isAbove key now := by
  simp only [bounds, asBound, isLess, Bool.false_eq_true, if_false]
  rfl

attribute [local simp] getWindowBounds addBound combine WindowBounds.contains in
/-- The window of one comparison. -/
theorem getWindowBounds_singleton [BoundedOrder TS] (comparison : TemporalFilter S TS) :
    ∃ bounds, getWindowBounds [comparison] = some bounds ∧
      ∀ (row : Row) now, bounds.contains row now = comparison.bounds row now := by
  cases side : comparison.opcode.isGreater with
  | true =>
    refine ⟨{ lower := some comparison.toBound, upper := none, common := comparison.noNow },
      ?_, fun row now => ?_⟩
    · simp [side]
    · simp [bounds_of_isGreater side]
  | false =>
    refine ⟨{ lower := none, upper := some comparison.toBound, common := comparison.noNow },
      ?_, fun row now => ?_⟩
    · simp [side]
    · simp [bounds_of_not_isGreater side]

theorem compatible_iff [DecidableEq S] {first second : TemporalFilter S TS} :
    first.compatible second = true ↔ first.noNow = second.noNow ∧
      (first.opcode.isGreater = second.opcode.isGreater →
        first.opcode.isInclusive = second.opcode.isInclusive) := by
  rw [compatible]
  split
  case isTrue incompatible => simp [incompatible.1, incompatible.2]
  case isFalse compatible =>
    simpa using fun _ => compatible

attribute [local simp] getWindowBounds addBound combine WindowBounds.contains in
/-- The window of two comparisons: bounds on one side are combined to the wider one. -/
theorem getWindowBounds_pair [DecidableEq S] [BoundedOrder TS]
    {first second : TemporalFilter S TS} (compatible : first.compatible second = true) :
    ∃ bounds, getWindowBounds [first, second] = some bounds ∧
      ∀ (row : Row) now, bounds.contains row now =
        if first.opcode.isGreater = second.opcode.isGreater then
          first.bounds row now || second.bounds row now
        else first.bounds row now && second.bounds row now := by
  obtain ⟨sameScalar, sameInclusive⟩ := compatible_iff.mp compatible
  have combines : ∀ lower, first.opcode.isGreater = second.opcode.isGreater →
      ∃ combined, first.toBound.combine second.toBound lower = some combined :=
    fun lower sameSide => ⟨_, if_pos (sameInclusive sameSide)⟩
  cases firstSide : first.opcode.isGreater <;> cases secondSide : second.opcode.isGreater
  case false.false =>
    obtain ⟨combined, found⟩ := combines false (firstSide.trans secondSide.symm)
    refine ⟨{ lower := none, upper := some combined, common := first.noNow }, ?_, fun row now => ?_⟩
    · simpa [firstSide, secondSide] using found
    · rw [bounds_of_not_isGreater firstSide, bounds_of_not_isGreater secondSide, ← sameScalar]
      cases value : ScalarExpressions.value first.noNow row <;>
        simp [value, isAbove_combine found]
  case true.true =>
    obtain ⟨combined, found⟩ := combines true (firstSide.trans secondSide.symm)
    refine ⟨{ lower := some combined, upper := none, common := first.noNow }, ?_, fun row now => ?_⟩
    · simpa [firstSide, secondSide] using found
    · rw [bounds_of_isGreater firstSide, bounds_of_isGreater secondSide, ← sameScalar]
      cases value : ScalarExpressions.value first.noNow row <;>
        simp [value, isBelow_combine found]
  case false.true =>
    refine ⟨{ lower := some second.toBound, upper := some first.toBound, common := first.noNow },
      ?_, fun row now => ?_⟩
    · simp [firstSide, secondSide]
    · rw [bounds_of_not_isGreater firstSide, bounds_of_isGreater secondSide, ← sameScalar]
      cases value : ScalarExpressions.value first.noNow row <;>
        simp [value, Bool.and_comm]
  case true.false =>
    refine ⟨{ lower := some first.toBound, upper := some second.toBound, common := first.noNow },
      ?_, fun row now => ?_⟩
    · simp [firstSide, secondSide]
    · rw [bounds_of_isGreater firstSide, bounds_of_not_isGreater secondSide, ← sameScalar]
      cases value : ScalarExpressions.value first.noNow row <;>
        simp [value]

end OpenDera.Compiler.Temporal
