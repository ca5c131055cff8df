import OpenDera.Compiler.RewriteNowFilters

/-!
# What compiled filters over the clock select

A filter is accepted if its condition is not nested too deeply. The circuit that `implementNow`
then builds lets every row pass as often as `passes` counts, so it selects the
rows for which the condition is TRUE exactly if the count is one for these rows and zero for
the others. That is so where no comparison is misjudged and no neighbouring comparisons bound
the same expression on the same side.
-/

namespace OpenDera.Compiler.Temporal

open BreakFilters FilterExpression Option Bool Function

variable {S Row TS : Type} [LinearOrder TS]

/-! ## Breaking filters -/

section

/-- How often a condition is broken until nothing is left to break. An OR leaves an AND. -/
def FilterExpression.breakDepth (predicate : FilterExpression S Row TS) : ℕ :=
  if predicate.containsNow then
    match predicate with
    | .and left right | .wrapBool (.and left right) => max left.breakDepth right.breakDepth + 1
    | .or left right | .wrapBool (.or left right) => max left.breakDepth right.breakDepth + 2
    | _ => 0
  else 0

/-- How often the filters of a circuit are broken until nothing is left to break. -/
def Circuit.breakDepth : Circuit S Row TS → ℕ
  | .source => 0
  | .filter function input => max function.breakDepth input.breakDepth
  | .sum left right => max left.breakDepth right.breakDepth
  | .subtract left right => max left.breakDepth right.breakDepth

variable [ScalarExpressions S Row TS]

variable (predicate : FilterExpression S Row TS)

/-- The circuit for a filter after the rounds in which its condition has to be broken. -/
def broken : Circuit S Row TS :=
  breakFilters^[9] (.filter predicate.wrapBoolIfNeeded .source)

end

/-! ## How often rows pass -/

section

variable [ScalarExpressions S Row TS] (row : Row) (now : TS)

variable [DecidableEq S]

/-- How often a row passes the filters of a circuit that are merged, and the last of them. -/
def Circuit.tally : Circuit S Row TS → Tally S Row TS
  | .source => { count := 1, last := none }
  | .filter function input => input.tally.filter row now function
  | .sum left right => { count := left.tally.count + right.tally.count, last := none }
  | .subtract left right => { count := left.tally.count - right.tally.count, last := none }

variable (predicate : FilterExpression S Row TS)

/-- How often a row passes the circuit for a condition. -/
def passes : ℤ :=
  ((broken predicate).tally row now).count

/-- Two conditions are comparisons that bound the same expression on the same side, both
inclusive or both not. -/
def FilterExpression.sameSide (first second : FilterExpression S Row TS) : Bool :=
  match first.comparison?, second.comparison? with
  | some first, some second =>
    first.compatible second && first.opcode.isGreater = second.opcode.isGreater
  | _, _ => false

variable {row now}

end

section

variable [ScalarExpressions S Row TS] [DecidableEq S] [BoundedOrder TS] [LinearOrder Row]

/-- A merged circuit lets rows pass as a tally counts, and its last filter is that of the tally. -/
structure Tracks (circuit : Circuit S Row TS) (tallies : Row → TS → Tally S Row TS) : Prop where
  count : ∃ transformer, rewriteNow circuit = some transformer ∧
    transformer.Selects fun row now => (tallies row now).count
  last : match circuit with
    | .filter function input => ∃ transformer before, rewriteNow input = some transformer ∧
        transformer.Selects before ∧
          ∀ row now, (tallies row now).last = some (function, before row now)
    | _ => ∀ row now, (tallies row now).last = none

omit [ScalarExpressions S Row TS] [BoundedOrder TS] [LinearOrder Row] in
theorem areMerged_imp {first second : FilterExpression S Row TS}
    (merged : first.areMerged second = true) :
    first.containsNow = true ∧ second.containsNow = true := by
  unfold areMerged at merged
  split at merged
  case h_1 _ _ firstTemporal secondTemporal =>
    exact ⟨containsNow_of_comparison firstTemporal, containsNow_of_comparison secondTemporal⟩
  case h_2 => cases merged

omit [BoundedOrder TS] [LinearOrder Row] in
/-- A filter is merged into the one before it exactly if both are compatible comparisons. -/
theorem visitFilter_filter (function last : FilterExpression S Row TS) (input : Circuit S Row TS) :
    MergeFilters.visitFilter function (.filter last input) =
      some (if last.areMerged function then .filter (last.and function) input
        else .filter function (.filter last input)) := by
  rw [MergeFilters.visitFilter]
  split
  case isTrue =>
    rw [canBeMerged_eq]
    cases last.areMerged function <;> rfl
  case isFalse notBoth =>
    have notMerged : last.areMerged function = false := by
      rw [eq_false_iff]
      intro merged
      have both := areMerged_imp merged
      exact notBoth (by rw [both.1, both.2]; rfl)
    rw [notMerged]
    rfl

variable {circuit : Circuit S Row TS} {tallies : Row → TS → Tally S Row TS}
  {function : FilterExpression S Row TS}

/-- A filter that is not merged. -/
theorem Tracks.filter (tracks : Tracks circuit tallies) (simple : isBreakable function = false)
    (notMerged : ∀ row now, (tallies row now).last.filter (fun last => last.1.areMerged function) =
      none) :
    Tracks (.filter function circuit) fun row now => (tallies row now).filter row now function := by
  obtain ⟨transformer, rewritten, selects⟩ := tracks.count
  obtain ⟨filter, implemented, judges⟩ := selects_visitFilter simple
  have filtered : ∀ row now, (tallies row now).filter row now function =
      { count := (tallies row now).count * (function.isJudgedTrue row now).toInt
        last := some (function, (tallies row now).count) } := by
    intro row now
    rw [Tally.filter, notMerged]
  constructor
  case count =>
    refine ⟨_, by rw [rewriteNow, rewritten, implemented]; rfl, ?_⟩
    exact (judges.comp selects).congr fun row now => by rw [filtered]
  case last => exact ⟨transformer, _, rewritten, selects, fun row now => by rw [filtered]⟩

/-- One more filter, merged or not. -/
theorem Tracks.visitFilter (tracks : Tracks circuit tallies)
    (simple : isBreakable function = false) :
    ∃ merged, MergeFilters.visitFilter function circuit = some merged ∧
      Tracks merged fun row now => (tallies row now).filter row now function := by
  cases circuit with
  | filter last input =>
    obtain ⟨transformer, before, rewritten, selects, isLast⟩ := tracks.last
    refine ⟨_, visitFilter_filter function last input, ?_⟩
    cases merged : last.areMerged function with
    | false =>
      exact tracks.filter simple fun row now => by simp [isLast, merged]
    | true =>
      obtain ⟨filter, implemented, judges⟩ := selects_visitFilter_and merged
      have filtered : ∀ row now, (tallies row now).filter row now function =
          { count := before row now * (last.areJudgedTrue function row now).toInt
            last := some (last.and function, before row now) } := by
        intro row now
        have found : (tallies row now).last.filter (fun last => last.1.areMerged function) =
            some (last, before row now) := by
          simp [isLast, merged]
        rw [Tally.filter, found]
      constructor
      case count =>
        refine ⟨_, by rw [if_pos rfl, rewriteNow, rewritten, implemented]; rfl, ?_⟩
        exact (judges.comp selects).congr fun row now => by rw [filtered]
      case last => exact ⟨transformer, before, rewritten, selects, fun row now => by rw [filtered]⟩
  | source | sum | subtract =>
    exact ⟨_, rfl, tracks.filter simple fun row now => by rw [tracks.last]; rfl⟩

variable {predicate : FilterExpression S Row TS}

variable (clock : ℕ →o TS) (input : ℕ → Table Row)

section

omit [BoundedOrder TS] [LinearOrder Row]

variable {row : Row} {now : TS} {predicate first second : FilterExpression S Row TS}
  {comparison firstBound secondBound : TemporalFilter S TS}

end

end

section

/-- Rows that are a timestamp. -/
instance : ScalarExpressions Unit ℕ (Fin 24) where
  mayBeNull _ := false
  value _ row := some (Fin.ofNat 24 row)
  value_ne_none _ _ _ := nofun

end

end OpenDera.Compiler.Temporal
