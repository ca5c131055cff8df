import OpenDera.Compiler.GroupingSets

/-!
# Grouping sets give the SQL result

What one grouping set contributes to the output of `visitAggregate`, and when
the sum of the contributions is the SQL result.
-/

namespace OpenDera.Compiler

open IndexedZSet AggregateCall ImmutableBitSet

variable {V : Type*} [LinearOrder V]

attribute [local simp] groupingArgs

/-- The rows of the input that agree with a row on some columns. -/
def rowsOfGroup (input : Rows V) (columns : List ℕ) (row : Row (Datum V)) : ZSet (Row (Datum V)) :=
  ((input.filter fun pair => decide (project columns pair.1 = project columns row)).map
    fun pair => ((), pair.1)).group ()

/-- The value of a call in SQL. -/
def AggregateCall.sqlValue (groups : ImmutableBitSet) (call : AggregateCall V)
    (rows : ZSet (Row (Datum V))) : Datum V :=
  match call with
  | grouping argList => .long (groupingNumber groups argList)
  | other function => function rows

omit [LinearOrder V] in
/-- The fields of a widened key are those of the padded key. -/
theorem evaluate_widening {set : ImmutableBitSet} {before columns : List ℕ} (row : Row (Datum V))
    (split : set.bits = before ++ columns.filter set.get) :
    (widening set columns before.length).map (·.evaluate (project set.bits row)) =
      columns.map fun column => if set.get column then row.getD column ⊥ else ⊥ := by
  induction columns generalizing before with
  | nil => rfl
  | cons column _ ih =>
    rw [widening, List.map_cons]
    cases isLocal : set.get column with
    | true =>
      rw [List.filter_cons_of_pos isLocal] at split
      have rest := @ih (before ++ [column]) (by simp [split])
      rw [List.length_append, List.length_singleton] at rest
      rw [if_pos rfl, if_pos rfl, List.map_cons, rest]
      congr 1
      simp [KeyField.evaluate, project, split]
    | false =>
      rw [List.filter_cons_of_neg (by simp [isLocal])] at split
      rw [if_neg Bool.false_ne_true, if_neg Bool.false_ne_true, List.map_cons, ih split]
      rfl

namespace LogicalAggregate

variable (aggregate : LogicalAggregate V) (input : Rows V) (set : ImmutableBitSet)
  (row : Row (Datum V))

/-- The group columns of a row, with NULL for those outside the grouping set. -/
def paddedKey : Row (Datum V) :=
  aggregate.groupSet.bits.map fun column => if set.get column then row.getD column ⊥ else ⊥

/-- A row of the output for a group of the input, given the values of the calls. -/
def Contributes (value : AggregateCall V → ZSet (Row (Datum V)) → Datum V)
    (set : ImmutableBitSet) (output : Row (Datum V)) : Prop :=
  ∃ row, input.weight row () ≠ 0 ∧ output = aggregate.paddedKey set row ++
    aggregate.aggCallList.map fun call => value call (rowsOfGroup input set.bits row)

variable (output : Row (Datum V))

/-- A row of the SQL result for one grouping set: one for every combination of
the values of its columns, and one for the empty set if there are no rows. -/
def GroupRow : Prop :=
  aggregate.Contributes input (sqlValue set) set output ∨
    (set.bits = [] ∧ input = 0 ∧ output = aggregate.groupSet.bits.map (fun _ => ⊥) ++
      aggregate.aggCallList.map (·.sqlValue set 0))

open Classical in
/-- How many of the grouping sets have a property. -/
noncomputable def countSets (property : ImmutableBitSet → Prop) (sets : List ImmutableBitSet) : ℤ :=
  (sets.map fun set => if property set then 1 else 0).sum

/-- How often a row occurs in the SQL result. -/
noncomputable def sqlWeight : ℤ :=
  countSets (aggregate.GroupRow input · output) aggregate.groupSets

/-- The compiled circuit outputs the SQL result. -/
def Correct : Prop :=
  ∃ result, aggregate.visitAggregate input = some result ∧
    ∀ output, result.weight output () = aggregate.sqlWeight input output

variable {aggregate input} {set}

/-! ### One grouping set -/

/-- The rows of a group are those of the index by its key. -/
theorem rowsOfGroup_eq (columns : List ℕ) (row : Row (Datum V)) :
    (input.map fun pair => (project columns pair.1, pair.1)).group (project columns row) =
      rowsOfGroup input columns row := by
  refine ZSet.ext fun other => ?_
  have indexed := weight_index input (project columns) (project columns row) other
  have filtered := weight_index
    (input.filter fun pair => decide (project columns pair.1 = project columns row))
    (fun _ => ()) () other
  rw [if_pos rfl, weight_filter] at filtered
  refine indexed.trans (Eq.trans ?_ filtered.symm)
  simp

theorem length_paddedKey : (aggregate.paddedKey set row).length = aggregate.groupSet.bits.length :=
  List.length_map _

/-- A table of at most one row, completed by another row if it is empty. -/
theorem lists_aggregateZero {table : Rows V} {member : Row (Datum V) → Prop}
    (lists : table.Lists fun output _ => member output)
    (unique : ∀ first second, member first → member second → first = second)
    (emptySetResult : Row (Datum V)) :
    (aggregateZero emptySetResult table).Lists fun output _ =>
      member output ∨ ((∀ other, ¬ member other) ∧ output = emptySetResult) := by
  by_cases inhabited : ∃ output, member output
  case pos =>
    obtain ⟨only, isMember⟩ := inhabited
    have single : table = single (only, ()) := by
      refine ext fun output _ => ?_
      rw [weight_single]
      split
      case isTrue same => exact (lists output ()).1 ((Prod.mk.inj same).1 ▸ isMember)
      case isFalse different =>
        refine (lists output ()).2 fun inside => different ?_
        rw [unique only output isMember inside]
    have kept : aggregateZero emptySetResult table = table := by
      rw [aggregateZero, single, map_eq_total, total_single_pair, add_neg_cancel, zero_add]
    rw [kept]
    refine lists.congr fun output _ => ⟨.inl, ?_⟩
    rintro (inside | ⟨none, -⟩)
    · exact inside
    · exact absurd isMember (none only)
  case neg =>
    push Not at inhabited
    have empty : table = 0 :=
      ext fun output _ => (lists output ()).2 (inhabited output)
    have zero : aggregateZero emptySetResult table = single (emptySetResult, ()) := by
      rw [aggregateZero, empty, IndexedZSet.map, flatMap_zero, neg_zero, add_zero, add_zero]
    rw [zero]
    intro output _
    rw [weight_single]
    constructor
    · rintro (inside | ⟨-, rfl⟩)
      · exact absurd inside (inhabited output)
      · exact if_pos rfl
    · intro absent
      refine if_neg fun same => absent (.inr ⟨inhabited, (Prod.mk.inj same).1.symm⟩)

variable (aggregate input) in
/-- A row of the compiled output for one grouping set. -/
def CodeRow (set : ImmutableBitSet) (output : Row (Datum V)) : Prop :=
  aggregate.Contributes input (evaluate set) set output ∨
    (aggregate.groupSet.bits = [] ∧ aggregate.aggCallList ≠ [] ∧ input = 0 ∧
      output = aggregate.aggCallList.map (·.emptySetResult))

variable {value : AggregateCall V → ZSet (Row (Datum V)) → Datum V} {first second : Row (Datum V)}

theorem contributes_unique (global : aggregate.groupSet.bits = []) (empty : set.bits = [])
    (isFirst : aggregate.Contributes input value set first)
    (isSecond : aggregate.Contributes input value set second) : first = second := by
  obtain ⟨_, -, rfl⟩ := isFirst
  obtain ⟨_, -, rfl⟩ := isSecond
  simp [paddedKey, global, rowsOfGroup, empty, project]

/-- There is a group unless there are no rows. -/
theorem no_contribution_iff :
    (∀ output, ¬ aggregate.Contributes input value set output) ↔ input = 0 := by
  constructor
  · intro none
    refine ext fun row _ => ?_
    by_contra present
    exact none _ ⟨row, present, rfl⟩
  · rintro rfl output ⟨row, present, -⟩
    exact present rfl

variable (contained : ∀ column ∈ set.bits, column ∈ aggregate.groupSet.bits)

include contained

/-- Whether there are aggregates or not, every group has one value. -/
theorem lists_implementLocal (nonneg : input.Nonneg) :
    (aggregate.implementLocal input set).Lists fun key values =>
      ∃ row, input.weight row () ≠ 0 ∧ key = project set.bits row ∧
        values = aggregate.aggCallList.map fun call =>
          call.evaluate set (rowsOfGroup input set.bits row) := by
  rw [implementLocal, generateKeyExpression_eq contained]
  cases listed : aggregate.aggCallList with
  | cons call calls =>
    have aggregated := lists_aggregate
      (fun rows => (call :: calls).map fun call => call.evaluate set rows)
      (input.map fun pair => (project set.bits pair.1, pair.1))
    refine aggregated.congr fun key values => ?_
    rw [group_index_ne_zero_iff]
    constructor
    · rintro ⟨⟨row, present, rfl⟩, rfl⟩
      exact ⟨row, present, rfl, by rw [rowsOfGroup_eq]⟩
    · rintro ⟨row, present, rfl, rfl⟩
      exact ⟨⟨row, present, rfl⟩, by rw [rowsOfGroup_eq]⟩
  | nil =>
    rw [List.isEmpty_nil, if_pos rfl, map_map]
    refine (lists_distinct _).congr ?_
    intro key values
    rw [map_pos_iff nonneg]
    constructor
    · rintro ⟨⟨row, ⟨⟩⟩, present, same⟩
      obtain ⟨rfl, rfl⟩ := Prod.mk.inj same
      exact ⟨row, present.ne', rfl, rfl⟩
    · rintro ⟨row, present, rfl, rfl⟩
      exact ⟨(row, ()), nonneg.pos_iff.mpr present, rfl⟩

/-- A key determines the padded key and is determined by it. -/
theorem paddedKey_inj (same : aggregate.paddedKey set first = aggregate.paddedKey set second) :
    project set.bits first = project set.bits second := by
  rw [paddedKey, paddedKey, List.map_inj_left] at same
  rw [project, project, List.map_inj_left]
  intro column member
  have isLocal := get_eq_true_iff.mpr member
  simpa [isLocal] using same column (contained column member)

/-- One grouping set with its keys widened: a row for every group. -/
theorem lists_widened (nonneg : input.Nonneg) {widen : Row (Datum V) → Row (Datum V)}
    (widens : ∀ row, widen (project set.bits row) = aggregate.paddedKey set row) :
    ((aggregate.implementLocal input set).map fun pair => (widen pair.1 ++ pair.2, ())).Lists
      fun output _ => aggregate.Contributes input (evaluate set) set output := by
  refine ((lists_implementLocal contained nonneg).map ?_).congr ?_
  · rintro ⟨_, _⟩ ⟨_, _⟩ ⟨first, -, rfl, rfl⟩ ⟨second, -, rfl, rfl⟩ same
    simp only [widens, Prod.mk.injEq, and_true] at same
    obtain ⟨sameKey, sameValues⟩ := List.append_inj same
      ((length_paddedKey first).trans (length_paddedKey second).symm)
    exact Prod.ext (paddedKey_inj contained sameKey) sameValues
  · rintro output ⟨⟩
    constructor
    · rintro ⟨⟨_, _⟩, ⟨row, present, rfl, rfl⟩, same⟩
      rw [widens] at same
      exact ⟨row, present, (Prod.mk.inj same).1.symm⟩
    · rintro ⟨row, present, rfl⟩
      exact ⟨(project set.bits row, _), ⟨row, present, rfl, rfl⟩, by simp only [widens]⟩

/-- Keys whose columns are in place are widened to the padded keys. -/
theorem adjustKey_of_aligned (aligned : set ≠ aggregate.groupSet → Aligned aggregate.groupSet set)
    (result : IndexedZSet (Row (Datum V)) (Row (Datum V))) :
    ∃ widen : Row (Datum V) → Row (Datum V),
      aggregate.adjustKey set result =
        some (result.map fun pair => (widen pair.1, pair.2)) ∧
      ∀ row, widen (project set.bits row) = aggregate.paddedKey set row := by
  by_cases same : set = aggregate.groupSet
  case pos =>
    refine ⟨id, ?_, fun row => ?_⟩
    · rw [adjustKey, if_pos same, map_eq_self fun _ _ _ => rfl]
    · rw [id, paddedKey, ← same, project, List.map_inj_left]
      intro column member
      rw [if_pos (get_eq_true_iff.mpr member)]
  case neg =>
    refine ⟨fun key => (widening set aggregate.groupSet.bits 0).map (·.evaluate key), ?_,
      fun row => ?_⟩
    · rw [adjustKey, if_neg same, reindexFields_of_aligned (aligned same), Option.map_some]
    · exact @evaluate_widening _ set [] _ row (generateKeyExpression_eq contained).symm

theorem bits_eq_nil (global : aggregate.groupSet.bits = []) : set.bits = [] := by
  rw [global] at contained
  exact List.eq_nil_iff_forall_not_mem.mpr fun column inside =>
    List.not_mem_nil (contained column inside)

/-- The result for one grouping set whose columns are in place. -/
theorem lists_implementAggregateList (nonneg : input.Nonneg)
    (aligned : set ≠ aggregate.groupSet → Aligned aggregate.groupSet set) :
    ∃ result, aggregate.implementAggregateList input set = some result ∧
      result.Lists fun output _ => aggregate.CodeRow input set output := by
  obtain ⟨widen, adjusted, widens⟩ :=
    adjustKey_of_aligned contained aligned (aggregate.implementLocal input set)
  have lists := lists_widened contained nonneg widens
  rw [← map_map (fun pair => (pair.1 ++ pair.2, ())) (fun pair => (widen pair.1, pair.2))] at lists
  simp only [implementAggregateList, adjusted, Option.bind_eq_bind, Option.bind_some]
  split
  case isTrue grouped =>
    refine ⟨_, rfl, lists.congr fun output _ => ⟨.inl, ?_⟩⟩
    rintro (contributes | ⟨global, calls, -⟩)
    · exact contributes
    · rcases grouped with columns | empty
      · exact absurd (by rw [cardinality, global]; rfl) columns
      · exact absurd (List.isEmpty_iff.mp empty) calls
  case isFalse ungrouped =>
    push Not at ungrouped
    have global : aggregate.groupSet.bits = [] := List.length_eq_zero_iff.mp ungrouped.1
    have calls : aggregate.aggCallList ≠ [] := by
      intro empty
      exact ungrouped.2 (List.isEmpty_iff.mpr empty)
    have empty := bits_eq_nil contained global
    refine ⟨_, rfl, (lists_aggregateZero lists
      (fun _ _ isFirst isSecond => contributes_unique global empty isFirst isSecond) _).congr ?_⟩
    intro output _
    rw [no_contribution_iff, CodeRow]
    simp [global, calls]

/-- The compiler fails for a grouping set whose columns are out of place. -/
theorem implementAggregateList_eq_none (different : set ≠ aggregate.groupSet)
    (misaligned : ¬ Aligned aggregate.groupSet set) :
    aggregate.implementAggregateList input set = none := by
  rw [implementAggregateList, adjustKey, if_neg different,
    reindexFields_of_not_aligned contained misaligned]
  rfl

omit contained

/-! ### All grouping sets -/

section

variable {property other : ImmutableBitSet → Prop} {sets : List ImmutableBitSet}

open Classical in
theorem countSets_eq_countP : countSets property sets = (sets.countP (property ·) : ℤ) := by
  induction sets with
  | nil => rfl
  | cons set _ ih =>
    rw [countSets] at ih
    by_cases holds : property set <;> simp [countSets, ih, holds, add_comm]

theorem countSets_pos_iff : 0 < countSets property sets ↔ ∃ set ∈ sets, property set := by
  classical
  simp [countSets_eq_countP]

theorem countSets_congr (same : ∀ set ∈ sets, (property set ↔ other set)) :
    countSets property sets = countSets other sets := by
  classical
  rw [countSets, countSets]
  congr 1
  exact List.map_congr_left fun set member => if_congr (same set member) rfl rfl

theorem planGroups_perm : (planGroups sets).Perm sets :=
  (List.reverse_perm _).trans (List.mergeSort_perm sets _)

end

/-- Where nothing but DISTINCT is asked for, the result is the distinct values of
the group columns. -/
def IsDistinct (aggregate : LogicalAggregate V) : Prop :=
  aggregate.aggCallList = [] ∧ aggregate.groupSets.length = 1

theorem visitAggregate_of_isDistinct (isDistinct : aggregate.IsDistinct) :
    aggregate.visitAggregate input =
      some (input.map fun pair => (project aggregate.groupSet.bits pair.1, ())).distinct := by
  exact if_pos ⟨List.isEmpty_iff.mpr isDistinct.1, planGroups_perm.length_eq.trans isDistinct.2⟩

theorem visitAggregate_of_not_isDistinct (others : ¬ aggregate.IsDistinct) :
    aggregate.visitAggregate input =
      ((planGroups aggregate.groupSets).mapM (aggregate.implementAggregateList input)).map
        List.sum := by
  refine if_neg fun isDistinct => others ⟨List.isEmpty_iff.mp isDistinct.1, ?_⟩
  exact planGroups_perm.length_eq.symm.trans isDistinct.2

/-- The compiled output is the sum over the grouping sets. -/
theorem visitAggregate_weight (nonneg : input.Nonneg) (others : ¬ aggregate.IsDistinct)
    (aligned : ∀ set ∈ aggregate.groupSets, set ≠ aggregate.groupSet →
      Aligned aggregate.groupSet set) :
    ∃ result, aggregate.visitAggregate input = some result ∧
      ∀ output, result.weight output () =
        countSets (aggregate.CodeRow input · output) aggregate.groupSets := by
  have compiled : ∀ set ∈ aggregate.groupSets, ∃ result,
      aggregate.implementAggregateList input set = some result ∧
        result.Lists fun output _ => aggregate.CodeRow input set output :=
    fun set member => lists_implementAggregateList (aggregate.contained set member) nonneg
      (aligned set member)
  have all : (planGroups aggregate.groupSets).mapM (aggregate.implementAggregateList input) =
      some ((planGroups aggregate.groupSets).map fun set =>
        (aggregate.implementAggregateList input set).getD 0) := by
    refine mapM_eq_some_map fun set member => ?_
    obtain ⟨result, isResult, -⟩ := compiled set (planGroups_perm.mem_iff.mp member)
    rw [isResult, Option.getD_some]
  refine ⟨_, by rw [visitAggregate_of_not_isDistinct others, all, Option.map_some], fun output => ?_⟩
  rw [weight_sum, List.map_map, countSets, ← ((@planGroups_perm aggregate.groupSets).map _).sum_eq]
  congr 1
  refine List.map_congr_left fun set member => ?_
  obtain ⟨result, isResult, lists⟩ := compiled set (planGroups_perm.mem_iff.mp member)
  rw [Function.comp_apply, isResult, Option.getD_some]
  split
  case isTrue inside => exact (lists output ()).1 inside
  case isFalse absent => exact (lists output ()).2 absent

/-- `DISTINCT` lists the values of the group columns. -/
theorem distinct_lists (nonneg : input.Nonneg) :
    (input.map fun pair => (project aggregate.groupSet.bits pair.1, ())).distinct.Lists
      fun output _ => ∃ row, input.weight row () ≠ 0 ∧ output = project aggregate.groupSet.bits row := by
  refine (lists_distinct _).congr fun output _ => ?_
  rw [map_pos_iff nonneg]
  constructor
  · rintro ⟨⟨row, ⟨⟩⟩, present, same⟩
    exact ⟨row, present.ne', (Prod.mk.inj same).1.symm⟩
  · rintro ⟨row, present, rfl⟩
    exact ⟨(row, ()), nonneg.pos_iff.mpr present, rfl⟩

variable (aggregate input) in
/-- When the compiled circuit gives the SQL result. -/
structure Suitable : Prop where
  /-- Every column of a grouping set that is not the whole group set has the same
  number in the input and among the group columns. -/
  aligned : ¬ aggregate.IsDistinct → ∀ set ∈ aggregate.groupSets, set ≠ aggregate.groupSet →
    Aligned aggregate.groupSet set
  /-- A single grouping set without aggregates has all group columns that are not
  NULL in every row. -/
  whole : aggregate.IsDistinct → ∀ set ∈ aggregate.groupSets, ∀ row, input.weight row () ≠ 0 →
    ∀ column ∈ aggregate.groupSet.bits, set.get column = false → row.getD column ⊥ = ⊥
  /-- The empty grouping set is only asked for if there are rows or if it is the
  whole group set and there are aggregates. -/
  global : input = 0 → (∃ set ∈ aggregate.groupSets, set.bits = []) →
    aggregate.groupSet.bits = [] ∧ aggregate.aggCallList ≠ []
  /-- The number of a `GROUPING` fits its type. -/
  fits : input ≠ 0 → ∀ set ∈ aggregate.groupSets, ∀ call ∈ aggregate.aggCallList,
    FitsLong set call.groupingArgs

variable {call : AggregateCall V}

/-- Calls have their SQL value if the number of a `GROUPING` fits its type. -/
theorem evaluate_eq_sqlValue (fits : FitsLong set call.groupingArgs)
    (rows : ZSet (Row (Datum V))) : call.evaluate set rows = call.sqlValue set rows := by
  cases call with
  | grouping argList =>
    rw [evaluate, sqlValue, (processGrouping_eq_iff set argList).mpr fits]
  | other => rfl

/-- Without group columns no `GROUPING` has arguments. -/
theorem emptySetResult_eq_sqlValue (global : aggregate.groupSet.bits = [])
    (member : call ∈ aggregate.aggCallList) : call.emptySetResult = call.sqlValue set 0 := by
  cases call with
  | grouping argList =>
    have arguments := aggregate.grouped _ member
    rw [global] at arguments
    have none : argList = [] := List.eq_nil_iff_forall_not_mem.mpr fun column isArg =>
      List.not_mem_nil (arguments column isArg)
    rw [none]
    rfl
  | other => rfl

/-- The compiled rows of a grouping set are the SQL rows. -/
theorem codeRow_iff_groupRow (suitable : aggregate.Suitable input)
    (member : set ∈ aggregate.groupSets) (output : Row (Datum V)) :
    aggregate.CodeRow input set output ↔ aggregate.GroupRow input set output := by
  by_cases empty : input = 0
  case pos =>
    rw [CodeRow, GroupRow, or_iff_right (no_contribution_iff.mpr empty output),
      or_iff_right (no_contribution_iff.mpr empty output)]
    constructor
    · rintro ⟨global, -, -, rfl⟩
      refine ⟨bits_eq_nil (aggregate.contained set member) global, empty, ?_⟩
      rw [global, List.map_nil, List.nil_append, List.map_inj_left]
      exact fun call isCall => emptySetResult_eq_sqlValue global isCall
    · rintro ⟨isEmpty, -, rfl⟩
      obtain ⟨global, calls⟩ := suitable.global empty ⟨set, member, isEmpty⟩
      refine ⟨global, calls, empty, ?_⟩
      rw [global, List.map_nil, List.nil_append, List.map_inj_left]
      exact fun call isCall => (emptySetResult_eq_sqlValue global isCall).symm
  case neg =>
    have values : ∀ rows, (aggregate.aggCallList.map fun call => call.evaluate set rows) =
        aggregate.aggCallList.map fun call => call.sqlValue set rows := by
      intro rows
      rw [List.map_inj_left]
      exact fun call isCall => evaluate_eq_sqlValue (suitable.fits empty set member call isCall) rows
    rw [CodeRow, GroupRow, or_iff_left fun zero => empty zero.2.2.1,
      or_iff_left fun zero => empty zero.2.1]
    simp only [Contributes, values]

/-- A suitable aggregation is compiled to the SQL result. -/
theorem correct_of_suitable (nonneg : input.Nonneg) (suitable : aggregate.Suitable input) :
    aggregate.Correct input := by
  by_cases isDistinct : aggregate.IsDistinct
  case pos =>
    obtain ⟨set, single⟩ := List.length_eq_one_iff.mp isDistinct.2
    have member : set ∈ aggregate.groupSets := by simp [single]
    have padded : ∀ row, input.weight row () ≠ 0 →
        aggregate.paddedKey set row = project aggregate.groupSet.bits row := by
      intro row present
      rw [paddedKey, project, List.map_inj_left]
      intro column grouped
      split
      case isTrue => rfl
      case isFalse outside =>
        exact (suitable.whole isDistinct set member row present column grouped
          (Bool.eq_false_iff.mpr outside)).symm
    refine ⟨_, visitAggregate_of_isDistinct isDistinct, fun output => ?_⟩
    have same : aggregate.GroupRow input set output ↔
        ∃ row, input.weight row () ≠ 0 ∧ output = project aggregate.groupSet.bits row := by
      rw [GroupRow, or_iff_left fun zero =>
        (suitable.global zero.2.1 ⟨set, member, zero.1⟩).2 isDistinct.1]
      simp only [Contributes, isDistinct.1, List.map_nil, List.append_nil]
      refine exists_congr fun row => and_congr_right fun present => ?_
      rw [padded row present]
    have counted : aggregate.sqlWeight input output =
        countSets (aggregate.GroupRow input · output) [set] := by
      rw [sqlWeight, single]
    rw [counted, countSets, List.map_singleton, List.sum_singleton]
    split
    case isTrue inside => exact (distinct_lists nonneg output ()).1 (same.mp inside)
    case isFalse absent => exact (distinct_lists nonneg output ()).2 (mt same.mpr absent)
  case neg =>
    obtain ⟨result, isResult, weights⟩ :=
      visitAggregate_weight nonneg isDistinct (suitable.aligned isDistinct)
    refine ⟨result, isResult, fun output => (weights output).trans ?_⟩
    exact countSets_congr fun set member => codeRow_iff_groupRow suitable member output

/-- Grouping sets that compile have their columns in place. -/
theorem aligned_of_correct (correct : aggregate.Correct input) (others : ¬ aggregate.IsDistinct)
    (member : set ∈ aggregate.groupSets) (different : set ≠ aggregate.groupSet) :
    Aligned aggregate.groupSet set := by
  obtain ⟨result, isResult, -⟩ := correct
  rw [visitAggregate_of_not_isDistinct others, Option.map_eq_some_iff] at isResult
  obtain ⟨results, traversed, -⟩ := isResult
  obtain ⟨one, isOne⟩ := exists_of_mapM_eq_some traversed (planGroups_perm.mem_iff.mpr member)
  by_contra misaligned
  rw [implementAggregateList_eq_none (aggregate.contained set member) different misaligned] at isOne
  exact nomatch isOne

variable {output : Row (Datum V)}

theorem sqlWeight_pos (member : set ∈ aggregate.groupSets)
    (isRow : aggregate.GroupRow input set output) : 0 < aggregate.sqlWeight input output :=
  countSets_pos_iff.mpr ⟨set, member, isRow⟩

/-- A row of the SQL result is a row of the compiled output. -/
theorem exists_codeRow (nonneg : input.Nonneg) (correct : aggregate.Correct input)
    (others : ¬ aggregate.IsDistinct) (member : set ∈ aggregate.groupSets)
    (isRow : aggregate.GroupRow input set output) :
    ∃ other ∈ aggregate.groupSets, aggregate.CodeRow input other output := by
  obtain ⟨result, isResult, weights⟩ :=
    visitAggregate_weight nonneg others fun _ inside => aligned_of_correct correct others inside
  obtain ⟨same, isSame, expected⟩ := correct
  obtain rfl := Option.some.inj (isSame.symm.trans isResult)
  have positive := sqlWeight_pos member isRow
  rw [← expected output, weights output, countSets_pos_iff] at positive
  exact positive

/-- A number that is equal to a compiled `GROUPING` fits its type. -/
theorem fitsLong_of_eq {other : ImmutableBitSet} {rows otherRows : ZSet (Row (Datum V))}
    (same : call.sqlValue set rows = call.evaluate other otherRows) :
    FitsLong set call.groupingArgs := by
  cases call with
  | other => simp [FitsLong]
  | grouping argList =>
    have number : groupingNumber set argList = (processGrouping other argList).toNat := by
      simpa [sqlValue, evaluate, Datum.long] using same
    intro n column listed high
    rw [groupingArgs] at listed
    have bit := testBit_processGrouping other argList n
    rw [← number, decide_eq_false (by omega), Bool.false_and, groupingNumber, testBit_absentBits,
      listed, Option.any_some] at bit
    simpa using bit

/-- An aggregation that is compiled to the SQL result is suitable. -/
theorem suitable_of_correct (nonneg : input.Nonneg) (correct : aggregate.Correct input) :
    aggregate.Suitable input := by
  constructor
  case aligned => exact fun others set member => aligned_of_correct correct others member
  case whole =>
    intro isDistinct set member row present column grouped outside
    obtain ⟨result, isResult, weights⟩ := correct
    obtain rfl := Option.some.inj ((visitAggregate_of_isDistinct isDistinct).symm.trans isResult)
    obtain ⟨only, single⟩ := List.length_eq_one_iff.mp isDistinct.2
    have positive : 0 < aggregate.sqlWeight input (project aggregate.groupSet.bits row) := by
      rw [← weights, (distinct_lists nonneg _ ()).1 ⟨row, present, rfl⟩]
      decide
    rw [sqlWeight, countSets_pos_iff] at positive
    obtain ⟨found, isFound, isRow⟩ := positive
    obtain rfl : found = set := by
      rw [single, List.mem_singleton] at isFound member
      rw [isFound, member]
    rcases isRow with ⟨other, -, same⟩ | ⟨-, empty, -⟩
    · rw [isDistinct.1, List.map_nil, List.append_nil, project, paddedKey, List.map_inj_left] at same
      rw [same column grouped, if_neg (Bool.eq_false_iff.mp outside)]
    · rw [empty] at present
      exact absurd rfl present
  case global =>
    intro empty
    rintro ⟨set, member, isEmpty⟩
    have isRow : aggregate.GroupRow input set (aggregate.groupSet.bits.map (fun _ => ⊥) ++
        aggregate.aggCallList.map (·.sqlValue set 0)) := .inr ⟨isEmpty, empty, rfl⟩
    by_cases isDistinct : aggregate.IsDistinct
    case pos =>
      obtain ⟨result, isResult, weights⟩ := correct
      obtain rfl := Option.some.inj ((visitAggregate_of_isDistinct isDistinct).symm.trans isResult)
      have positive := sqlWeight_pos member isRow
      rw [← weights, (distinct_lists nonneg _ ()).2] at positive
      · exact absurd positive (lt_irrefl 0)
      · rintro ⟨row, present, -⟩
        rw [empty] at present
        exact present rfl
    case neg =>
      obtain ⟨other, -, isCode⟩ := exists_codeRow nonneg correct isDistinct member isRow
      rcases isCode with contributes | ⟨global, calls, -⟩
      · exact absurd contributes (no_contribution_iff.mpr empty _)
      · exact ⟨global, calls⟩
  case fits =>
    intro nonempty set member call isCall
    by_cases isDistinct : aggregate.IsDistinct
    case pos =>
      rw [isDistinct.1] at isCall
      exact absurd isCall List.not_mem_nil
    case neg =>
      obtain ⟨_, contributes⟩ := not_forall_not.mp (mt no_contribution_iff.mp nonempty)
      obtain ⟨other, -, isCode⟩ := exists_codeRow nonneg correct isDistinct member (.inl contributes)
      obtain ⟨row, present, rfl⟩ := contributes
      rcases isCode with ⟨otherRow, -, same⟩ | ⟨-, -, empty, -⟩
      · obtain ⟨-, sameValues⟩ := List.append_inj same
          ((length_paddedKey row).trans (length_paddedKey otherRow).symm)
        rw [List.map_inj_left] at sameValues
        exact fitsLong_of_eq (sameValues call isCall)
      · exact absurd empty nonempty

end LogicalAggregate

/-- A multiset of rows. -/
structure InputRows (V : Type*) [LinearOrder V] where
  rows : Rows V
  nonneg : rows.Nonneg

/-- **Grouping sets.** The circuit of `visitAggregate` outputs the SQL result
exactly if every column of a grouping set other than the whole group set has the
same number in the input and among the group columns, the empty grouping set is
not asked for on an empty input beside group columns or without aggregates, and
every `GROUPING` fits its type. -/
theorem grouping_sets_correct_iff (aggregate : LogicalAggregate V) (input : InputRows V) :
    aggregate.Correct input.rows ↔ aggregate.Suitable input.rows :=
  ⟨LogicalAggregate.suitable_of_correct input.nonneg,
    LogicalAggregate.correct_of_suitable input.nonneg⟩

/-- `GROUP BY ROLLUP` of the second and the third of three columns. -/
def rollupLaterColumns : LogicalAggregate ℕ where
  groupSet := ⟨[1, 2], by decide⟩
  groupSets := [⟨[1, 2], by decide⟩, ⟨[1], by decide⟩, ⟨[], by decide⟩]
  aggCallList := [.grouping [1, 2]]
  nonempty := by decide
  contained := by decide
  grouped := by simp

/-- `GROUP BY ROLLUP` of the first column. -/
def rollupFirstColumn : LogicalAggregate ℕ where
  groupSet := ⟨[0], by decide⟩
  groupSets := [⟨[0], by decide⟩, ⟨[], by decide⟩]
  aggCallList := [.grouping [0]]
  nonempty := by decide
  contained := by decide
  grouped := by simp

/-- The compiler fails on the first aggregation, because the second column of the
input is the first group column, and for an empty input the second has no row for
the empty grouping set. -/
theorem rollup_fails :
    (∀ input, ¬ rollupLaterColumns.Correct input) ∧ ¬ rollupFirstColumn.Correct 0 := by
  constructor
  · intro input correct
    have aligned : Aligned rollupLaterColumns.groupSet ⟨[1], by decide⟩ :=
      LogicalAggregate.aligned_of_correct correct (fun isDistinct => nomatch isDistinct.1)
        (by decide) (by decide)
    exact absurd (aligned 1 (by decide)) (by decide)
  · intro correct
    have suitable := LogicalAggregate.suitable_of_correct nonneg_zero correct
    obtain ⟨global, -⟩ := suitable.global rfl ⟨⟨[], by decide⟩, by decide, rfl⟩
    exact nomatch global

end OpenDera.Compiler
