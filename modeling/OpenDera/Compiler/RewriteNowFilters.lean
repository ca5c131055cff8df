import OpenDera.Compiler.RewriteNowRows

/-!
# How single filters over the clock are rewritten

The analysis of a condition never fails, and finds a single comparison exactly for a
comparison. A filter that cannot be broken selects the rows for which its condition is judged
TRUE, and so does a filter that was merged from two.
-/

namespace OpenDera.Compiler.Temporal

open FindComparisons FilterExpression RewriteNow Option BooleanExpression

variable {S Row TS : Type} [LinearOrder TS]

attribute [local simp] decomposeIntoTemporalFilters sealed
  implementTemporalFilters combineExpressions implementConjuncts
  isNonTemporalFilter

section

/-- The last conjunct takes in what follows. -/
def BooleanExpression.isLeftOver (expression : BooleanExpression S Row TS) : Bool :=
  expression.isNonTemporalFilter || expression.isNoNow

theorem isLeftOver_nonTemporal (expression : FilterExpression S Row TS) :
    (nonTemporal expression).isLeftOver = true := by
  rw [nonTemporal]
  split <;> rfl

variable {expression : FilterExpression S Row TS} {comparison : TemporalFilter S TS}

section

variable (temporal : expression.temporalFilter? = some comparison)

include temporal

theorem containsNow_of_temporalFilter : expression.containsNow = true := by
  unfold temporalFilter? at temporal
  split at temporal
  case h_1 => rfl
  case h_2 => rfl
  case h_3 => cases temporal

theorem isBinary_of_temporalFilter : expression.isBinary = true := by
  unfold temporalFilter? at temporal
  split at temporal
  case h_1 => rfl
  case h_2 => rfl
  case h_3 => cases temporal

end

variable [ScalarExpressions S Row TS]

section

variable (notAnd : ∀ left right, expression ≠ .and left right)

include notAnd

variable (comparisons : List (BooleanExpression S Row TS))

/-- What the analysis adds for an expression that is not an AND. -/
theorem analyzeConjunction_of_not_and : analyzeConjunction comparisons expression =
      some (expression.temporalFilter?.elim (expression.isBinary && !expression.containsNow,
          comparisons ++ [nonTemporal expression])
        fun comparison => (true, comparisons ++ [.temporalFilter comparison])) := by
  have unfolded : analyzeConjunction comparisons expression =
      if expression.isBinary then
        (findComparison expression).elim (some (false, comparisons ++ [nonTemporal expression]))
          fun found => some (true, comparisons ++ [found])
      else some (false, comparisons ++ [nonTemporal expression]) := by
    cases expression with
    | and left right => exact absurd rfl (notAnd left right)
    | _ => rfl
  rw [unfolded]
  cases temporal : expression.temporalFilter? with
  | some =>
    simp [isBinary_of_temporalFilter temporal, findComparison,
      containsNow_of_temporalFilter temporal, temporal]
  | none =>
    cases binary : expression.isBinary <;> cases withNow : expression.containsNow <;>
      simp [findComparison, nonTemporal, withNow, temporal]

/-- The analysis succeeds and adds conjuncts of which the last one takes in what follows unless
all have been found. It adds nothing but a comparison exactly for a comparison. -/
def Analyzes (expression : FilterExpression S Row TS)
    (comparisons : List (BooleanExpression S Row TS)) : Prop :=
  ∃ found rest last,
    analyzeConjunction comparisons expression =
        some (found, comparisons ++ rest ++ [last]) ∧
      (found = false → last.isLeftOver = true) ∧
      match expression.temporalFilter? with
      | some comparison => rest = [] ∧ last = .temporalFilter comparison
      | none => rest ≠ [] ∨ last.isLeftOver = true

theorem analyzes_of_not_and : Analyzes expression comparisons := by
  have analyzed := analyzeConjunction_of_not_and notAnd comparisons
  cases temporal : expression.temporalFilter? with
  | some comparison =>
    rw [temporal] at analyzed
    refine ⟨true, [], .temporalFilter comparison, by simpa using analyzed, by simp, ?_⟩
    rw [temporal]
    exact ⟨rfl, rfl⟩
  | none =>
    rw [temporal] at analyzed
    refine ⟨_, [], nonTemporal expression, by simpa using analyzed,
      fun _ => isLeftOver_nonTemporal expression, ?_⟩
    rw [temporal]
    exact .inr (isLeftOver_nonTemporal expression)

end

/-- Two conjuncts of which the first takes in the second. -/
theorem combine_nonTemporal {last : BooleanExpression S Row TS} (right : FilterExpression S Row TS)
    (takesIn : (last.isNonTemporalFilter ||
      (last.isNoNow && (nonTemporal right).isNoNow)) = true) :
    ∃ combined, last.combine (nonTemporal right) = some combined ∧
      combined.isLeftOver = true := by
  rw [nonTemporal] at takesIn ⊢
  cases last with
  | noNow =>
    split at takesIn
    case isTrue => simp [isNoNow] at takesIn
    case isFalse noNow =>
      rw [if_neg noNow]
      exact ⟨_, rfl, rfl⟩
  | nonTemporalFilter => split <;> exact ⟨_, rfl, rfl⟩
  | temporalFilter => cases takesIn
  | temporalFilterList => cases takesIn

theorem analyzes (expression : FilterExpression S Row TS)
    (comparisons : List (BooleanExpression S Row TS)) : Analyzes expression comparisons := by
  induction expression generalizing comparisons with
  | and _ right ihLeft ihRight =>
    obtain ⟨foundLeft, restLeft, lastLeft, analyzed, leftOver, -⟩ := ihLeft comparisons
    rw [Analyzes, analyzeConjunction, analyzed]
    cases foundLeft with
    | true =>
      obtain ⟨found, rest, last, analyzedRight, leftOverRight, -⟩ :=
        ihRight (comparisons ++ restLeft ++ [lastLeft])
      refine ⟨found, restLeft ++ [lastLeft] ++ rest, last, ?_, leftOverRight, .inl (by simp)⟩
      simpa using analyzedRight
    | false =>
      simp only [bind_eq_bind, bind_some, Bool.false_eq_true, if_false,
        List.getLast?_append, List.getLast?_singleton, some_or, List.dropLast_concat]
      split
      case isTrue takesIn =>
        obtain ⟨combined, isCombined, combinedLeftOver⟩ := combine_nonTemporal right takesIn
        refine ⟨false, restLeft, combined, ?_, fun _ => combinedLeftOver, .inr combinedLeftOver⟩
        rw [isCombined]
        rfl
      case isFalse =>
        refine ⟨false, restLeft ++ [lastLeft], nonTemporal right, by simp,
          fun _ => isLeftOver_nonTemporal right, .inl (by simp)⟩
  | _ => exact analyzes_of_not_and (by intro _ _ isAnd; cases isAnd) comparisons

/-- The decomposition succeeds, and is a single comparison exactly for a comparison. -/
theorem decompose_spec (function : FilterExpression S Row TS) :
    ∃ conjuncts, decomposeIntoTemporalFilters function = some conjuncts ∧
      ∀ comparison, conjuncts = [.temporalFilter comparison] ↔
        function.comparison? = some comparison := by
  obtain ⟨found, rest, last, analyzed, -, single⟩ := analyzes function.unwrapBool []
  refine ⟨rest ++ [last], by simp [analyzed], ?_⟩
  intro comparison
  rw [comparison?]
  split at single
  case h_1 _ isTemporal =>
    obtain ⟨rfl, rfl⟩ := single
    simp [isTemporal]
  case h_2 isNone =>
    simp only [isNone, reduceCtorEq, iff_false]
    intro same
    obtain ⟨isEmpty, isLast⟩ := (List.append_eq_singleton_iff.mp same).resolve_right (by simp)
    rcases single with nonempty | leftOver
    · exact nonempty isEmpty
    · rw [(List.cons.inj isLast).1] at leftOver
      cases leftOver

variable [DecidableEq S]

/-- Two filters are merged exactly if they are compatible comparisons. -/
theorem canBeMerged_eq (source filter : FilterExpression S Row TS) :
    MergeFilters.canBeMerged source filter = some (source.areMerged filter) := by
  obtain ⟨sourceConjuncts, sourceFound, sourceSingle⟩ := decompose_spec source
  obtain ⟨filterConjuncts, filterFound, filterSingle⟩ := decompose_spec filter
  rw [MergeFilters.canBeMerged, sourceFound, filterFound, areMerged]
  simp only [bind_eq_bind, bind_some]
  split
  case h_1 first second =>
    rw [(sourceSingle first).mp rfl, (filterSingle second).mp rfl]
    rfl
  case h_2 notBoth =>
    split
    case h_1 first second isFirst isSecond =>
      exact absurd ((filterSingle second).mpr isSecond) (notBoth _ _ ((sourceSingle first).mpr isFirst))
    case h_2 => rfl

end

section

theorem containsNow_unwrapBool (function : FilterExpression S Row TS) :
    function.unwrapBool.containsNow = function.containsNow := by
  cases function <;> rfl

variable {function : FilterExpression S Row TS} {comparison : TemporalFilter S TS}
  (temporal : function.comparison? = some comparison)

include temporal

theorem containsNow_of_comparison : function.containsNow = true := by
  rw [← containsNow_unwrapBool]
  exact containsNow_of_temporalFilter temporal

/-- A comparison is given as such or wrapped. -/
theorem temporalFilter_of_comparison : function.temporalFilter? = some comparison ∨
      function.temporalFilter? = none ∧ function.isBinary = false := by
  cases function with
  | wrapBool => exact .inr ⟨rfl, rfl⟩
  | _ => exact .inl temporal

theorem not_and_of_comparison (left right : FilterExpression S Row TS) :
    function ≠ .and left right := by
  rintro rfl
  cases temporal

omit temporal

variable [ScalarExpressions S Row TS]

/-- Only comparisons are misjudged. -/
theorem isJudgedTrue_of_comparison_none (notTemporal : function.comparison? = none) (row : Row)
    (now : TS) : function.isJudgedTrue row now = function.isTrue row now := by
  have judged : function.unwrapBool.isMisjudged row now = false := by
    rw [comparison?] at notTemporal
    generalize function.unwrapBool = expression at notTemporal
    unfold isMisjudged
    split
    case h_4 => rfl
    all_goals cases notTemporal
  rw [isJudgedTrue, judged, Bool.xor_false]

@[simp] theorem isTrue_and (left right : FilterExpression S Row TS) (row : Row) (now : TS) :
    (left.and right).isTrue row now = (left.isTrue row now && right.isTrue row now) := by
  simp [FilterExpression.isTrue, FilterExpression.value]

@[simp] theorem isTrue_or (left right : FilterExpression S Row TS) (row : Row) (now : TS) :
    (left.or right).isTrue row now = (left.isTrue row now || right.isTrue row now) := by
  simp [FilterExpression.isTrue, FilterExpression.value]

theorem isJudgedTrue_of_not_containsNow (noNow : function.containsNow = false) (row : Row)
    (now : TS) : function.isJudgedTrue row now = function.isTrue row now := by
  refine isJudgedTrue_of_comparison_none (eq_none_iff_forall_ne_some.mpr ?_) row now
  intro comparison temporal
  rw [containsNow_of_comparison temporal] at noNow
  cases noNow

variable [DecidableEq S] [BoundedOrder TS] [LinearOrder Row]

omit [DecidableEq S] in
/-- The window of one comparison selects the rows within its bound. -/
theorem selects_implementTemporalFilter_singleton (comparison : TemporalFilter S TS) :
    ∃ transformer : Transformer Row TS,
      implementTemporalFilter [comparison] = some transformer ∧
        transformer.Selects fun row now => (comparison.bounds row now).toInt := by
  obtain ⟨bounds, found, contains⟩ := @getWindowBounds_singleton S Row TS _ _ _ comparison
  obtain ⟨transformer, implemented, selects⟩ := selects_implementTemporalFilter found
  exact ⟨transformer, implemented, selects.congr fun row now => by rw [contains]⟩

/-- The filter for a condition that is not broken selects the rows for which the condition is
judged TRUE. -/
theorem selects_visitFilter (simple : BreakFilters.isBreakable function = false) :
    ∃ transformer, visitFilter function = some transformer ∧
      transformer.Selects fun row now => (function.isJudgedTrue row now).toInt := by
  cases withNow : function.containsNow with
  | false =>
    refine ⟨_, by rw [visitFilter, withNow]; rfl, ?_⟩
    refine (selects_filterRows function).congr fun row now => ?_
    rw [isJudgedTrue_of_not_containsNow withNow]
  | true =>
    have notAnd : ∀ left right, function.unwrapBool ≠ .and left right := by
      intro left right isAnd
      simp [BreakFilters.isBreakable, withNow, isAnd] at simple
    have analyzed := analyzeConjunction_of_not_and notAnd []
    cases temporal : function.unwrapBool.temporalFilter? with
    | some comparison =>
      obtain ⟨transformer, implemented, selects⟩ :=
        selects_implementTemporalFilter_singleton comparison
      rw [temporal] at analyzed
      refine ⟨transformer, ?_, selects.congr fun row now => ?_⟩
      · simp [visitFilter, withNow, analyzed, combineFrom, implemented]
      · rw [isJudgedTrue_eq temporal]
    | none =>
      rw [temporal] at analyzed
      refine ⟨implementLeftOver function.unwrapBool, ?_, ?_⟩
      · simp [visitFilter, withNow, analyzed, combineFrom, nonTemporal, containsNow_unwrapBool]
      · refine (selects_implementLeftOver _).congr fun row now => ?_
        rw [isJudgedTrue_of_comparison_none temporal, isTrue_unwrapBool]

attribute [local simp] visitFilter containsNow unwrapBool analyzeConjunction combineFrom
  compatible combine in
/-- The filter for two merged conditions. -/
theorem selects_visitFilter_and {first second : FilterExpression S Row TS}
    (merged : first.areMerged second = true) :
    ∃ transformer, visitFilter (first.and second) = some transformer ∧
      transformer.Selects fun row now => (first.areJudgedTrue second row now).toInt := by
  unfold areMerged at merged
  split at merged
  case h_2 => cases merged
  case h_1 firstBound _ firstTemporal secondTemporal =>
    have firstNow := containsNow_of_comparison firstTemporal
    have secondNow := containsNow_of_comparison secondTemporal
    have analyzedFirst := analyzeConjunction_of_not_and (not_and_of_comparison firstTemporal) []
    have analyzedSecond := analyzeConjunction_of_not_and (not_and_of_comparison secondTemporal)
    have firstLeftOver : nonTemporal first = .nonTemporalFilter first :=
      if_pos firstNow
    have leftOver : nonTemporal second = .nonTemporalFilter second := if_pos secondNow
    rcases temporalFilter_of_comparison firstTemporal with firstPlain | ⟨firstWrapped, firstUnary⟩
    · rcases temporalFilter_of_comparison secondTemporal with secondPlain | ⟨secondWrapped, secondUnary⟩
      · obtain ⟨bounds, found, contains⟩ := @getWindowBounds_pair S Row TS _ _ _ _ _ _ merged
        obtain ⟨transformer, implemented, selects⟩ := selects_implementTemporalFilter found
        refine ⟨transformer, ?_, selects.congr fun row now => ?_⟩
        · simp [firstNow, analyzedFirst, firstPlain, analyzedSecond, secondPlain, merged,
            implemented]
        · rw [contains, areJudgedTrue, firstPlain, secondPlain,
            isJudgedTrue_eq firstTemporal, isJudgedTrue_eq secondTemporal]
      · obtain ⟨transformer, implemented, selects⟩ :=
          selects_implementTemporalFilter_singleton firstBound
        refine ⟨fun clock input => implementLeftOver second clock (transformer clock input),
          ?_, ((selects_implementLeftOver second).comp selects).congr fun row now => ?_⟩
        · simp [firstNow, analyzedFirst, firstPlain, analyzedSecond,
            secondWrapped, leftOver, implemented]
        · rw [areJudgedTrue, firstPlain, secondWrapped, isJudgedTrue_eq firstTemporal]
          cases firstBound.bounds row now <;> simp
    · refine ⟨implementLeftOver (first.and second).wrapBoolIfNeeded, ?_,
        (selects_implementLeftOver _).congr fun row now => ?_⟩
      · simp [firstNow, analyzedFirst, firstWrapped, firstUnary, firstLeftOver, leftOver]
      · rw [areJudgedTrue, firstWrapped, isTrue_wrapBoolIfNeeded, isTrue_and]

end

end OpenDera.Compiler.Temporal
