import Mathlib.Data.Nat.Bits
import Mathlib.Data.Sum.Order
import OpenDera.Compiler.ClosureExpression
import OpenDera.Std.Grouping

/-!
# Compiling grouping sets

`visitAggregate` compiles an aggregation over several grouping sets: one
aggregation for every set, whose keys are then widened to all group columns, and
the sum of the results. Columns are numbered in three ways, as columns of the
input, among the group columns and among the columns of one grouping set. A
global aggregation gets a row for the empty input from `DBSPAggregateZero`.
-/

namespace OpenDera.Compiler

open List

/-- A field of a row: NULL, an integer given by its bits, or another value. -/
abbrev Datum (V : Type*) := WithBot (Lex (ℕ ⊕ V))

/-- An integer as a field. -/
def Datum.long {V : Type*} (bits : ℕ) : Datum V :=
  ((toLex (Sum.inl bits) : Lex (ℕ ⊕ V)) : WithBot _)

/-- A set of columns, iterated in increasing order. -/
structure ImmutableBitSet where
  bits : List ℕ
  sorted : bits.Pairwise (· < ·)
  deriving DecidableEq

namespace ImmutableBitSet

variable (set : ImmutableBitSet)

/-- `ImmutableBitSet.get`. -/
def get (bit : ℕ) : Bool :=
  decide (bit ∈ set.bits)

/-- `ImmutableBitSet.cardinality`. -/
def cardinality : ℕ :=
  set.bits.length

end ImmutableBitSet

section

variable {V : Type*} [LinearOrder V]

/-- Rows with their multiplicities. -/
abbrev Rows (V : Type*) [LinearOrder V] := IndexedZSet (Row (Datum V)) Unit

/-- An aggregate function call: `GROUPING` of some columns, or a function of the
rows of a group. -/
inductive AggregateCall (V : Type*) [LinearOrder V] where
  | grouping (argList : List ℕ)
  | other (function : ZSet (Row (Datum V)) → Datum V)

/-- `processGrouping`: the loop over the arguments in reverse order, with a mask
that moves left. -/
def processGrouping (groups : ImmutableBitSet) (argList : List ℕ) : BitVec 64 :=
  (argList.reverse.foldl
    (fun (state : BitVec 64 × BitVec 64) field =>
      (if !groups.get field then state.1 ||| state.2 else state.1, state.2 <<< 1))
    (0, 1)).1

namespace AggregateCall

/-- The value of a call over the rows of a nonempty group. -/
def evaluate (groups : ImmutableBitSet) (call : AggregateCall V)
    (rows : ZSet (Row (Datum V))) : Datum V :=
  match call with
  | grouping argList => .long (processGrouping groups argList).toNat
  | other function => function rows

variable (call : AggregateCall V)

/-- The value of a call over no rows. -/
def emptySetResult : Datum V :=
  match call with
  | grouping _ => .long 0
  | other function => function 0

/-- The columns a `GROUPING` is about. -/
def groupingArgs : List ℕ :=
  match call with
  | grouping argList => argList
  | other _ => []

end AggregateCall

/-- `LogicalAggregate`. Grouping sets and the arguments of `GROUPING` consist of
group columns. -/
structure LogicalAggregate (V : Type*) [LinearOrder V] where
  groupSet : ImmutableBitSet
  groupSets : List ImmutableBitSet
  aggCallList : List (AggregateCall V)
  nonempty : groupSets ≠ []
  contained : ∀ set ∈ groupSets, ∀ column ∈ set.bits, column ∈ groupSet.bits
  grouped : ∀ call ∈ aggCallList, ∀ column ∈ call.groupingArgs, column ∈ groupSet.bits

/-- Fields of a row. -/
def project (columns : List ℕ) (row : Row (Datum V)) : Row (Datum V) :=
  columns.map fun column => row.getD column ⊥

/-- `planGroups`: the grouping sets in decreasing order of cardinality. -/
def planGroups (groupSets : List ImmutableBitSet) : List ImmutableBitSet :=
  (groupSets.mergeSort fun first second =>
    decide (first.cardinality ≤ second.cardinality)).reverse

/-- `generateKeyExpression`: the columns of the input that make up the key, found
in the order of the group columns. -/
def generateKeyExpression (keyFields groupSet : ImmutableBitSet) : List ℕ :=
  groupSet.bits.filter keyFields.get

/-- A field of a widened key: a field of the key of one grouping set, or NULL. -/
inductive KeyField where
  | field (index : ℕ)
  | null
  deriving DecidableEq, Repr

/-- A field of a widened key for a given key. -/
def KeyField.evaluate (key : Row (Datum V)) : KeyField → Datum V
  | .field index => key.getD index ⊥
  | .null => ⊥

/-- The loop over the group columns that fills the array `reindexFields`; `none`
where an index is out of bounds. -/
def reindexLoop (localKeys : ImmutableBitSet) :
    List ℕ → ℕ → ℕ → List (Option KeyField) → Option (List (Option KeyField))
  | [], _, _, reindexFields => some reindexFields
  | globalIndex :: rest, localIndex, i, reindexFields =>
    if localKeys.get globalIndex then
      if globalIndex < reindexFields.length then
        reindexLoop localKeys rest (localIndex + 1) (i + 1)
          (reindexFields.set globalIndex (some (.field localIndex)))
      else none
    else if i < reindexFields.length then
      reindexLoop localKeys rest localIndex (i + 1) (reindexFields.set i (some .null))
    else none

/-- The fields of the widened key. A tuple cannot be made of an array with an
entry that was never set. -/
def reindexFields (groupSet localKeys : ImmutableBitSet) : Option (List KeyField) :=
  (reindexLoop localKeys groupSet.bits 0 0 (replicate groupSet.cardinality none)).bind
    fun fields => fields.mapM id

namespace LogicalAggregate

variable (aggregate : LogicalAggregate V) (input : Rows V) (localKeys : ImmutableBitSet)

/-- The aggregates of every group of one grouping set, indexed by its key. -/
def implementLocal : IndexedZSet (Row (Datum V)) (Row (Datum V)) :=
  let localKeyExpression := generateKeyExpression localKeys aggregate.groupSet
  let indexedInput := input.map fun pair => (project localKeyExpression pair.1, pair.1)
  if aggregate.aggCallList.isEmpty then
    -- no aggregations: just apply distinct
    (indexedInput.map fun pair => (pair.1, [])).distinct
  else
    indexedInput.aggregate fun rows =>
      some (aggregate.aggCallList.map (·.evaluate localKeys rows))

/-- Adjust the keys of one grouping set such that they are the same as those of
the whole group set; `none` where the compiler fails. -/
def adjustKey (result : IndexedZSet (Row (Datum V)) (Row (Datum V))) :
    Option (IndexedZSet (Row (Datum V)) (Row (Datum V))) :=
  if localKeys = aggregate.groupSet then some result
  else
    (reindexFields aggregate.groupSet localKeys).map fun fields =>
      result.map fun pair => (fields.map (·.evaluate pair.1), pair.2)

/-- `DBSPAggregateZero` as `ExpandAggregateZeros` expands it: the input, or the
result for the empty set if the input is empty. -/
def aggregateZero (emptySetResult : Row (Datum V)) (input : Rows V) : Rows V :=
  IndexedZSet.single (emptySetResult, ()) + -(input.map fun _ => (emptySetResult, ())) + input

/-- `implementAggregateList` for one grouping set; `none` where the compiler
fails. -/
def implementAggregateList : Option (Rows V) := do
  let result ← aggregate.adjustKey localKeys (aggregate.implementLocal input localKeys)
  let map := result.map fun pair => (pair.1 ++ pair.2, ())
  if aggregate.groupSet.cardinality ≠ 0 ∨ aggregate.aggCallList.isEmpty then some map
  else some (aggregateZero (aggregate.aggCallList.map (·.emptySetResult)) map)

/-- `visitAggregate`. -/
def visitAggregate : Option (Rows V) := let plan := planGroups aggregate.groupSets
  if aggregate.aggCallList.isEmpty ∧ plan.length = 1 then
    -- this is how DISTINCT is represented
    some (input.map fun pair => (project aggregate.groupSet.bits pair.1, ())).distinct
  else
    (plan.mapM (aggregate.implementAggregateList input)).map sum

end LogicalAggregate

end

/-! ## Keys of a grouping set -/

/-! ### Columns -/

namespace ImmutableBitSet

theorem get_eq_true_iff {set : ImmutableBitSet} {bit : ℕ} : set.get bit = true ↔ bit ∈ set.bits := by
  simp [get]

end ImmutableBitSet

open ImmutableBitSet

/-- The key of a grouping set has its columns in increasing order. -/
theorem generateKeyExpression_eq {keyFields groupSet : ImmutableBitSet}
    (contained : ∀ column ∈ keyFields.bits, column ∈ groupSet.bits) :
    generateKeyExpression keyFields groupSet = keyFields.bits := by
  have filtered := groupSet.sorted.filter keyFields.get
  apply List.Perm.eq_of_pairwise' (r := (· < ·)) filtered keyFields.sorted
  rw [perm_ext_iff_of_nodup (filtered.imp ne_of_lt) (keyFields.sorted.imp ne_of_lt)]
  intro column
  rw [mem_filter, get_eq_true_iff]
  exact ⟨fun member => member.2, fun member => ⟨contained column member, member⟩⟩

/-! ### Widened keys -/

section

variable {localKeys groupSet : ImmutableBitSet}

/-- A column has the same number in the input and among the group columns. -/
def Aligned (groupSet localKeys : ImmutableBitSet) : Prop :=
  ∀ column ∈ localKeys.bits, groupSet.bits.idxOf column = column

/-- The fields that widen a key: for every group column its place in the key. -/
def widening (localKeys : ImmutableBitSet) : List ℕ → ℕ → List KeyField
  | [], _ => []
  | globalIndex :: rest, localIndex =>
    if localKeys.get globalIndex then .field localIndex :: widening localKeys rest (localIndex + 1)
    else .null :: widening localKeys rest localIndex

variable {columns : List ℕ}

/-- Where every column of the key has its own number among the group columns, the
loop fills the array from left to right. -/
theorem reindexLoop_eq {i : ℕ}
    (aligned : ∀ offset column, columns[offset]? = some column → localKeys.get column = true →
      column = i + offset) (filled : List KeyField) (length : filled.length = i) (localIndex : ℕ) :
    reindexLoop localKeys columns localIndex i
        (filled.map some ++ replicate columns.length none) =
      some ((filled ++ widening localKeys columns localIndex).map some) := by
  induction columns generalizing i filled localIndex with
  | nil => simp [reindexLoop, widening]
  | cons column columns ih =>
    have rest : ∀ offset found, columns[offset]? = some found → localKeys.get found = true →
        found = (i + 1) + offset := by
      intro offset found listed isLocal
      have := aligned (offset + 1) found (by simpa using listed) isLocal
      omega
    have room : i < (filled.map some ++
        replicate (column :: columns).length (none : Option KeyField)).length := by
      simp [length]
    have write : ∀ field : KeyField,
        (filled.map some ++ replicate (column :: columns).length none).set i (some field) =
          (filled ++ [field]).map some ++ replicate columns.length none := by
      intro field
      subst length
      simp [replicate_succ]
    rw [reindexLoop, widening]
    split
    case isTrue isLocal =>
      have place : column = i := by
        have := aligned 0 column rfl isLocal
        omega
      subst place
      rw [if_pos room, write, ih rest _ (by simp [length])]
      simp
    case isFalse =>
      rw [write, ih rest _ (by simp [length])]
      simp

/-- A position that the loop does not write keeps its entry. -/
theorem reindexLoop_keeps {position localIndex i : ℕ} {before after : List (Option KeyField)}
    (unwritten : ∀ offset column, columns[offset]? = some column →
      (if localKeys.get column then column else i + offset) ≠ position)
    (looped : reindexLoop localKeys columns localIndex i before = some after) :
    after[position]? = before[position]? := by
  induction columns generalizing localIndex i before with
  | nil => rw [reindexLoop, Option.some.injEq] at looped; rw [looped]
  | cons column columns ih =>
    have here := unwritten 0 column rfl
    have rest : ∀ offset found, columns[offset]? = some found →
        (if localKeys.get found then found else (i + 1) + offset) ≠ position := by
      intro offset found listed
      have := unwritten (offset + 1) found (by simpa using listed)
      split at this <;> simp_all
      omega
    rw [reindexLoop] at looped
    split at looped
    case isTrue isLocal =>
      rw [if_pos isLocal] at here
      split at looped
      case isTrue => rw [ih rest looped, getElem?_set_ne here]
      case isFalse => exact nomatch looped
    case isFalse notLocal =>
      rw [if_neg notLocal] at here
      split at looped
      case isTrue => rw [ih rest looped, getElem?_set_ne (by omega)]
      case isFalse => exact nomatch looped

theorem position_le_getElem (sorted : columns.Pairwise (· < ·)) {position : ℕ}
    (inside : position < columns.length) : position ≤ columns[position] := by
  induction position with
  | zero => exact Nat.zero_le _
  | succ position ih =>
    have before := ih (by omega)
    have less := pairwise_iff_getElem.mp sorted position (position + 1) (by omega) inside (by omega)
    omega

/-- A tuple cannot be made of an array with an unset entry. -/
theorem mapM_id_eq_none {fields : List (Option KeyField)} (unset : none ∈ fields) :
    fields.mapM id = none := by
  induction fields with
  | nil => exact nomatch unset
  | cons field _ ih =>
    rw [mapM_cons]
    rcases mem_cons.mp unset with rfl | later
    · rfl
    · rw [ih later]
      cases field <;> rfl

/-- The compiler widens keys whose columns have the same numbers in the input and
among the group columns. -/
theorem reindexFields_of_aligned (aligned : Aligned groupSet localKeys) :
    reindexFields groupSet localKeys = some (widening localKeys groupSet.bits 0) := by
  have places : ∀ offset column, groupSet.bits[offset]? = some column →
      localKeys.get column = true → column = 0 + offset := by
    intro offset column listed isLocal
    obtain ⟨inside, rfl⟩ := List.getElem?_eq_some_iff.mp listed
    have place := aligned _ (get_eq_true_iff.mp isLocal)
    rw [List.Nodup.idxOf_getElem (groupSet.sorted.imp ne_of_lt)] at place
    omega
  have looped := reindexLoop_eq places [] rfl 0
  simp only [map_nil, nil_append] at looped
  rw [reindexFields, cardinality, looped, Option.bind_some]
  have all : ((widening localKeys groupSet.bits 0).map some).mapM id =
      some (((widening localKeys groupSet.bits 0).map some).map fun field => field.getD .null) := by
    refine mapM_eq_some_map fun field member => ?_
    obtain ⟨found, -, rfl⟩ := mem_map.mp member
    rfl
  rw [all, map_map]
  simp [Function.comp_def]

/-- The compiler fails for all other keys: the first column that is out of place
leaves its own place unset. -/
theorem reindexFields_of_not_aligned (contained : ∀ column ∈ localKeys.bits, column ∈ groupSet.bits)
    (misaligned : ¬ Aligned groupSet localKeys) : reindexFields groupSet localKeys = none := by
  have displaced : ∃ position, ∃ inside : position < groupSet.bits.length,
      localKeys.get groupSet.bits[position] = true ∧ groupSet.bits[position] ≠ position := by
    simp only [Aligned] at misaligned
    push Not at misaligned
    obtain ⟨column, isLocal, different⟩ := misaligned
    have inside := idxOf_lt_length_of_mem (contained column isLocal)
    refine ⟨groupSet.bits.idxOf column, inside, ?_, ?_⟩
    · rw [getElem_idxOf inside]
      exact get_eq_true_iff.mpr isLocal
    · rw [getElem_idxOf inside]
      exact different.symm
  obtain ⟨inside, isLocal, different⟩ := Nat.find_spec displaced
  have earlier : ∀ other < Nat.find displaced, ∀ within : other < groupSet.bits.length,
      localKeys.get groupSet.bits[other] = true → groupSet.bits[other] = other := by
    intro other less within otherLocal
    by_contra moved
    exact Nat.find_min displaced less ⟨within, otherLocal, moved⟩
  set position := Nat.find displaced
  have unwritten : ∀ offset column, groupSet.bits[offset]? = some column →
      (if localKeys.get column then column else 0 + offset) ≠ position := by
    intro offset column listed
    obtain ⟨within, rfl⟩ := List.getElem?_eq_some_iff.mp listed
    rcases lt_trichotomy offset position with less | rfl | more
    · split
      case isTrue otherLocal =>
        rw [earlier offset less within otherLocal]
        omega
      case isFalse => omega
    · rw [if_pos isLocal]
      exact different
    · have bound := position_le_getElem groupSet.sorted inside
      have greater := pairwise_iff_getElem.mp groupSet.sorted position offset inside within more
      split <;> omega
  rw [reindexFields]
  cases looped : reindexLoop localKeys groupSet.bits 0 0
      (replicate groupSet.cardinality none) with
  | none => rfl
  | some =>
    have kept := reindexLoop_keeps unwritten looped
    rw [cardinality, getElem?_replicate, if_pos inside] at kept
    exact mapM_id_eq_none (mem_of_getElem? kept)

end

/-! ### `GROUPING` -/

section

variable (groups : ImmutableBitSet)

/-- The number whose bit `n` says whether the `n`-th column is not in the set. -/
def absentBits : List ℕ → ℕ
  | [] => 0
  | column :: columns => (absentBits columns).bit (!groups.get column)

variable (argList : List ℕ)

/-- `GROUPING` in SQL: the last argument has the lowest bit. -/
def groupingNumber : ℕ :=
  absentBits groups argList.reverse

variable (columns : List ℕ)

theorem testBit_absentBits (n : ℕ) :
    (absentBits groups columns).testBit n = columns[n]?.any fun column => !groups.get column := by
  induction columns generalizing n with
  | nil => simp [absentBits]
  | cons _ _ ih =>
    cases n with
    | zero => simp [absentBits]
    | succ => simp [absentBits, Nat.testBit_bit_succ, ih]

/-- The loop sets the bits of the arguments that are not in the set, as far as
there are bits. -/
theorem getLsbD_groupingLoop (result : BitVec 64) (position n : ℕ) : (columns.foldl
      (fun (state : BitVec 64 × BitVec 64) field =>
        (if !groups.get field then state.1 ||| state.2 else state.1, state.2 <<< 1))
      (result, BitVec.twoPow 64 position)).1.getLsbD n =
      (result.getLsbD n || (decide (n < 64) && decide (position ≤ n) &&
        columns[n - position]?.any fun column => !groups.get column)) := by
  induction columns generalizing result position with
  | nil => simp
  | cons column _ ih =>
    have shifted : BitVec.twoPow 64 position <<< 1 = BitVec.twoPow 64 (position + 1) := by
      simp [BitVec.twoPow, BitVec.shiftLeft_add]
    rw [foldl_cons, shifted, ih]
    rcases lt_trichotomy n position with less | rfl | more
    · have before : ¬ position ≤ n := by omega
      have beforeNext : ¬ position + 1 ≤ n := by omega
      have different : position ≠ n := by omega
      cases groups.get column <;> simp [before, beforeNext, different]
    · cases isLocal : groups.get column <;> simp [isLocal]
    · have different : position ≠ n := by omega
      have next : n - position = n - (position + 1) + 1 := by omega
      have reached : position + 1 ≤ n := more
      cases groups.get column <;> simp [different, next, reached, more.le]

/-- The compiled `GROUPING` has the bits of the SQL number, as far as there are
bits. -/
theorem testBit_processGrouping (n : ℕ) : (processGrouping groups argList).toNat.testBit n =
      (decide (n < 64) && (groupingNumber groups argList).testBit n) := by
  have looped := getLsbD_groupingLoop groups argList.reverse 0 0 n
  have first : BitVec.twoPow 64 0 = 1 := rfl
  rw [groupingNumber, testBit_absentBits, BitVec.testBit_toNat]
  simpa [processGrouping, first] using looped

/-- Arguments beyond the width of the result are in the set. -/
def FitsLong : Prop :=
  ∀ n column, argList.reverse[n]? = some column → 64 ≤ n → groups.get column = true

theorem processGrouping_eq_iff :
    (processGrouping groups argList).toNat = groupingNumber groups argList ↔
      FitsLong groups argList := by
  constructor
  · intro same n column listed high
    have bit := testBit_processGrouping groups argList n
    rw [same, decide_eq_false (by omega), Bool.false_and, groupingNumber, testBit_absentBits, listed,
      Option.any_some] at bit
    simpa using bit
  · intro fits
    refine Nat.eq_of_testBit_eq fun n => ?_
    rw [testBit_processGrouping]
    by_cases low : n < 64
    · simp [low]
    · rw [decide_eq_false low, Bool.false_and, groupingNumber, testBit_absentBits]
      cases listed : argList.reverse[n]? with
      | none => rfl
      | some column => simp [fits n column listed (by omega)]

end

end OpenDera.Compiler
