import Mathlib.Data.Prod.Lex
import OpenDera.Std.ChunkBuffer
import OpenDera.Std.Relational
import OpenDera.TimeSeries.Ranges

/-!
# The rolling aggregate operator

`PartitionedRollingAggregate` extends every timestamp of a partitioned time series
with an aggregate over a range of timestamps relative to it. For every partition
that a batch of updates mentions it retracts the outputs at the affected
timestamps and computes them anew from the trace of the input and from a tree of
the aggregates of the single timestamps.

A partitioned batch is indexed by partition; its values are pairs of a timestamp
and a value, ordered by the timestamp first.
-/

namespace OpenDera.TimeSeries

open IndexedZSet List

variable {PK V A Out : Type*} [LinearOrder PK] [LinearOrder V] [LinearOrder Out]

/-- An aggregator: it returns `none` for the empty group and for no other one. -/
structure RollingAggregator (V A Out : Type*) [LinearOrder V] where
  aggregate : ZSet V → Option A
  combine : A → A → A
  finalize : A → Out
  aggregate_eq_none : ∀ values, aggregate values = none ↔ values = 0

/-- A batch that is indexed by partition and by timestamp within a partition. -/
abbrev Partitioned (PK V : Type*) [LinearOrder PK] [LinearOrder V] :=
  IndexedZSet PK (ℤ ×ₗ V)

variable (partition : ZSet (ℤ ×ₗ V))

/-- `PartitionCursor`: a partition as a batch indexed by timestamp. -/
def partitionCursor : IndexedZSet ℤ V :=
  ofTuples (partition.entries.map fun entry => (ofLex entry.1, entry.2))

variable (aggregator : RollingAggregator V A Out)

/-- The leaves of the radix tree over a partition: the aggregates of its
timestamps. -/
def treeOf (partition : IndexedZSet ℤ V) : List (ℤ × A) :=
  partition.groups.filterMap fun entry =>
    (aggregator.aggregate entry.2).map fun accumulator => (entry.1, accumulator)

variable (combine : A → A → A)

/-- Combine aggregates from left to right. -/
def combineAll : List A → Option A
  | [] => none
  | first :: rest => some (rest.foldl combine first)

/-- `aggregate_range`: the combined aggregates of the timestamps in a range. -/
def aggregateRange (tree : List (ℤ × A)) (range : Range) : Option A :=
  combineAll combine ((tree.filter fun leaf => decide (range.Contains leaf.1)).map Prod.snd)

/-- The builders of retractions and insertions and the batches already handed out,
each flagged with whether it completes the output. -/
structure RollingOutput (K V : Type*) [LinearOrder K] [LinearOrder V] where
  retractions : List ((K × V) × ℤ) := []
  insertions : List ((K × V) × ℤ) := []
  yielded : List (IndexedZSet K V × Bool) := []

namespace RollingOutput

variable {K V : Type*} [LinearOrder K] [LinearOrder V]

/-- Push a retraction, and hand out the retractions once there are enough. -/
def retract (chunkSize : Nat) (output : RollingOutput K V) (tuple : (K × V) × ℤ) :
    RollingOutput K V :=
  let retractions := output.retractions ++ [tuple]
  if chunkSize ≤ retractions.length then
    { output with
      retractions := []
      yielded := output.yielded ++ [(ofTuples retractions, false)] }
  else
    { output with retractions }

/-- Push an insertion, and hand out the insertions once there are enough. -/
def insert (chunkSize : Nat) (output : RollingOutput K V) (tuple : (K × V) × ℤ) :
    RollingOutput K V :=
  let insertions := output.insertions ++ [tuple]
  if chunkSize ≤ insertions.length then
    { output with
      insertions := []
      yielded := output.yielded ++ [(ofTuples insertions, false)] }
  else
    { output with insertions }

variable (output : RollingOutput K V)

/-- Hand out what is left, merged into one batch. -/
def finish : List (IndexedZSet K V × Bool) := output.yielded ++
    [(ofTuples output.insertions + ofTuples output.retractions, true)]

/-- Everything handed out so far together with what is in the builders. -/
def total : IndexedZSet K V := ChunkBuffer.sumOf output.yielded +
    (ofTuples output.insertions + ofTuples output.retractions)

@[simp] theorem total_empty : total ({} : RollingOutput K V) = 0 := by
  simp [total, ChunkBuffer.sumOf, ofTuples]

@[simp] theorem total_retract (chunkSize : Nat) (tuple : (K × V) × ℤ) :
    (output.retract chunkSize tuple).total = output.total + ofTuples [tuple] := by
  ext key value
  simp only [retract]
  split <;> simp [total, ChunkBuffer.sumOf] <;> omega

@[simp] theorem total_insert (chunkSize : Nat) (tuple : (K × V) × ℤ) :
    (output.insert chunkSize tuple).total = output.total + ofTuples [tuple] := by
  ext key value
  simp only [insert]
  split <;> simp [total, ChunkBuffer.sumOf] <;> omega

/-- The chunks handed out add up to everything that was pushed. -/
@[simp] theorem sumOf_finish : ChunkBuffer.sumOf output.finish = output.total := by
  simp [finish, total, ChunkBuffer.sumOf]

end RollingOutput

/-! ### The operator -/

/-- The relative range and the aggregator of the operator, and the type of its
timestamps. -/
structure RollingAggregate (V A Out : Type*) [LinearOrder V] where
  type : PrimInt
  range : RelRange
  aggregator : RollingAggregator V A Out

namespace RollingAggregate

variable (operator : RollingAggregate V A Out)

/-- The aggregate at a timestamp, read from a tree. -/
def aggregateAt (tree : List (ℤ × A)) (timestamp : ℤ) : WithBot Out :=
  ((operator.range.rangeOf operator.type timestamp).bind
      (aggregateRange operator.aggregator.combine tree)).elim ⊥
    fun accumulator => (operator.aggregator.finalize accumulator : WithBot Out)

variable (chunkSize : Nat)

/-- Clear old outputs: retract what is stored under the given timestamps. -/
def retractOutputs (partition : PK) (entries : List (ℤ × ZSet (WithBot Out)))
    (output : RollingOutput PK (ℤ ×ₗ WithBot Out)) :
    RollingOutput PK (ℤ ×ₗ WithBot Out) :=
  entries.foldl (fun output entry =>
    entry.2.entries.foldl (fun output value =>
      output.retract chunkSize ((partition, toLex (entry.1, value.1)), -value.2)) output) output

/-- Compute new outputs for the given timestamps that have a value of positive
weight. -/
def insertOutputs (partition : PK) (tree : List (ℤ × A)) (entries : List (ℤ × ZSet V))
    (output : RollingOutput PK (ℤ ×ₗ WithBot Out)) :
    RollingOutput PK (ℤ ×ₗ WithBot Out) :=
  entries.foldl (fun output entry =>
    if entry.2.entries.any fun value => decide (0 < value.2) then
      output.insert chunkSize ((partition, toLex (entry.1, operator.aggregateAt tree entry.1)), 1)
    else output) output

/-- The affected ranges of the updates to one partition. -/
def rangesOf (updates : ZSet (ℤ ×ₗ V)) : List Range :=
  operator.range.affectedRanges operator.type ((partitionCursor updates).groups.map Prod.fst)

/-- The part of the loop that treats one partition. -/
def evalPartition (inputTrace : Partitioned PK V) (tree : PK → List (ℤ × A))
    (outputTrace : Partitioned PK (WithBot Out)) (output : RollingOutput PK (ℤ ×ₗ WithBot Out))
    (entry : PK × ZSet (ℤ ×ₗ V)) :
    RollingOutput PK (ℤ ×ₗ WithBot Out) :=
  let (partition, updates) := entry
  let ranges := operator.rangesOf updates
  let output := retractOutputs chunkSize partition
    (rangeCursor ranges (partitionCursor (outputTrace.group partition)).groups) output
  -- the partition may be in the input trace but no longer in the tree
  if inputTrace.group partition ≠ 0 ∧ tree partition ≠ [] then
    operator.insertOutputs chunkSize partition (tree partition)
      (rangeCursor ranges (partitionCursor (inputTrace.group partition)).groups) output
  else output

/-- `PartitionedRollingAggregate::eval` in the step in which it is flushed. -/
def eval (inputDelta inputTrace : Partitioned PK V) (tree : PK → List (ℤ × A))
    (outputTrace : Partitioned PK (WithBot Out)) :
    List (Partitioned PK (WithBot Out) × Bool) :=
  (inputDelta.groups.foldl (operator.evalPartition chunkSize inputTrace tree outputTrace) {}).finish

end RollingAggregate

/-! ### The circuit around the operator -/

/-- A batch indexed by timestamps of a type. -/
structure TimeSeriesBatch (type : PrimInt) (Row : Type*) [LinearOrder Row] where
  batch : IndexedZSet ℤ Row
  inside : ∀ timestamp, ¬ type.Contains timestamp → batch.group timestamp = 0

/-- Re-index a batch by partition. -/
def partitionBy {Row : Type*} [LinearOrder Row] (partitionFunc : Row → PK × V)
    (batch : IndexedZSet ℤ Row) : Partitioned PK V :=
  batch.map fun pair =>
    ((partitionFunc pair.2).1, toLex (pair.1, (partitionFunc pair.2).2))

/-- The tree over a partitioned batch, one for every partition. -/
def partitionedTree (batch : Partitioned PK V) (partition : PK) : List (ℤ × A) :=
  treeOf aggregator (partitionCursor (batch.group partition))

/-- The traces of the input and of the output, and the chunks emitted in every step. -/
structure RollingCircuit (PK V Out : Type*)
    [LinearOrder PK] [LinearOrder V] [LinearOrder Out] where
  inputTrace : Partitioned PK V := 0
  outputTrace : Partitioned PK (WithBot Out) := 0
  outputs : List (List (Partitioned PK (WithBot Out) × Bool)) := []

/-- One step of the circuit of `dyn_partitioned_rolling_aggregate`. -/
def RollingCircuit.step (operator : RollingAggregate V A Out) {Row : Type*}
    [LinearOrder Row] (partitionFunc : Row → PK × V)
    (circuit : RollingCircuit PK V Out) (input : IndexedZSet ℤ Row × Nat) :
    RollingCircuit PK V Out :=
  let delta := partitionBy partitionFunc input.1
  let inputTrace := circuit.inputTrace + delta
  let chunks := operator.eval input.2 delta inputTrace
    (partitionedTree operator.aggregator inputTrace) circuit.outputTrace
  { inputTrace
    outputTrace := circuit.outputTrace + ChunkBuffer.sumOf chunks
    outputs := circuit.outputs ++ [chunks] }

/-! ## What a step emits -/

/-- A partition cursor shows the weights of the partition. -/
@[simp] theorem weight_partitionCursor (timestamp : ℤ) (value : V) :
    (partitionCursor partition).weight timestamp value =
      partition.weight (toLex (timestamp, value)) := by
  rw [partitionCursor, weight_ofTuples, ZSet.weight]
  induction partition.entries with
  | nil => rfl
  | cons _ _ ih =>
    rw [map_cons, weightOf_cons, weightOf_cons, ih]
    rfl

/-- A timestamp has a value of positive weight. -/
def Present (partition : IndexedZSet ℤ V) (timestamp : ℤ) : Prop :=
  ∃ value, 0 < partition.weight timestamp value

theorem present_filterKeys {partition : IndexedZSet ℤ V} {keep : ℤ → Bool} {timestamp : ℤ} :
    Present (partition.filterKeys keep) timestamp ↔
      keep timestamp = true ∧ Present partition timestamp := by
  simp only [Present, weight_filterKeys]
  split_ifs with kept <;> simp [kept]

/-- The loop over the values of a timestamp finds one of positive weight. -/
theorem any_pos_iff (values : ZSet V) :
    (values.entries.any fun value => decide (0 < value.2)) = true ↔
      ∃ value, 0 < values.weight value := by
  simp only [any_eq_true, decide_eq_true_eq]
  constructor
  · rintro ⟨⟨value, weight⟩, member, positive⟩
    obtain ⟨rfl, -⟩ := ZSet.mem_entries.mp member
    exact ⟨value, positive⟩
  · rintro ⟨value, positive⟩
    exact ⟨(value, values.weight value), ZSet.mem_entries.mpr ⟨rfl, positive.ne'⟩, positive⟩

instance (partition : IndexedZSet ℤ V) (timestamp : ℤ) : Decidable (Present partition timestamp) :=
  decidable_of_iff _ (any_pos_iff (partition.group timestamp))

namespace RollingOutput

variable {K V : Type*} [LinearOrder K] [LinearOrder V]

/-- Steps that each push some tuples push all of them. -/
theorem total_foldl {I : Type*} {push : RollingOutput K V → I → RollingOutput K V}
    {tuples : I → List ((K × V) × ℤ)}
    (adds : ∀ output item, (push output item).total =
      output.total + ofTuples (tuples item)) (items : List I) (output : RollingOutput K V) :
    (items.foldl push output).total =
      output.total + ofTuples (items.flatMap tuples) := by
  induction items generalizing output with
  | nil => simp [ofTuples]
  | cons _ _ ih =>
    rw [foldl_cons, ih, adds, add_assoc, ← ofTuples_append, flatMap_cons]

end RollingOutput

namespace RollingAggregate

variable (operator : RollingAggregate V A Out)

/-- The tuples that clear old outputs. -/
def retractionsOf (partition : PK) (entries : List (ℤ × ZSet (WithBot Out))) :
    List ((PK × (ℤ ×ₗ WithBot Out)) × ℤ) :=
  entries.flatMap fun entry =>
    entry.2.entries.map fun value => ((partition, toLex (entry.1, value.1)), -value.2)

/-- The tuples of the new outputs. -/
def insertionsOf (partition : PK) (tree : List (ℤ × A))
    (entries : List (ℤ × ZSet V)) : List ((PK × (ℤ ×ₗ WithBot Out)) × ℤ) :=
  entries.flatMap fun entry =>
    if entry.2.entries.any fun value => decide (0 < value.2) then
      [((partition, toLex (entry.1, operator.aggregateAt tree entry.1)), 1)]
    else []

variable (chunkSize : Nat) (partition : PK) (output : RollingOutput PK (ℤ ×ₗ WithBot Out))

open RollingOutput

theorem total_retractOutputs (entries : List (ℤ × ZSet (WithBot Out))) :
    (retractOutputs chunkSize partition entries output).total =
      output.total + ofTuples (retractionsOf partition entries) := by
  refine total_foldl (fun output entry => ?_) entries output
  rw [map_eq_flatMap]
  refine total_foldl ?_ entry.2.entries output
  exact fun output value => total_retract _ _ _

theorem total_insertOutputs (tree : List (ℤ × A)) (entries : List (ℤ × ZSet V)) :
    (operator.insertOutputs chunkSize partition tree entries output).total =
      output.total + ofTuples (operator.insertionsOf partition tree entries) := by
  refine total_foldl (fun output entry => ?_) entries output
  split_ifs
  · exact total_insert _ _ _
  · simp [ofTuples]

/-- Clearing old outputs subtracts what the cursor shows. -/
theorem weightOf_retractionsOf (other : PK)
    (entries : IndexedZSet ℤ (WithBot Out)) (timestamp : ℤ) (result : WithBot Out) :
    weightOf (retractionsOf partition entries.groups) (other, toLex (timestamp, result)) =
      if partition = other then -entries.weight timestamp result else 0 := by
  have single : ∀ (time : ℤ) (values : ZSet (WithBot Out)),
      weightOf (values.entries.map fun value => ((partition, toLex (time, value.1)), -value.2))
        (other, toLex (timestamp, result)) =
      if partition = other ∧ time = timestamp then -values.weight result else 0 := by
    intro time values
    rw [ZSet.weight]
    induction values.entries with
    | nil => simp
    | cons _ _ ih =>
      rw [map_cons, weightOf_cons, weightOf_cons, ih]
      simp only [Prod.mk.injEq, toLex_inj]
      split_ifs <;> simp_all
      omega
  rw [retractionsOf, weightOf_flatMap]
  simp only [single]
  rw [@sum_groups_at _ _ _ _
    (fun time values => if partition = other ∧ time = timestamp then -values.weight result else 0)
    timestamp (fun time values different => if_neg fun both => different both.2) (by simp)]
  simp only [and_true]
  rfl

/-- The new outputs have weight one at the timestamps that are present. -/
theorem weightOf_insertionsOf (other : PK) (tree : List (ℤ × A))
    (entries : IndexedZSet ℤ V) (timestamp : ℤ) (result : WithBot Out) :
    weightOf (operator.insertionsOf partition tree entries.groups)
        (other, toLex (timestamp, result)) =
      if partition = other ∧ Present entries timestamp ∧
        operator.aggregateAt tree timestamp = result then 1 else 0 := by
  have single : ∀ (time : ℤ) (values : ZSet V),
      weightOf (if values.entries.any fun value => decide (0 < value.2) then
          [((partition, toLex (time, operator.aggregateAt tree time)), (1 : ℤ))] else [])
        (other, toLex (timestamp, result)) =
      if time = timestamp ∧ partition = other ∧
        (values.entries.any fun value => decide (0 < value.2)) = true ∧
        operator.aggregateAt tree timestamp = result then 1 else 0 := by
    intro time values
    split_ifs <;> simp_all
  rw [insertionsOf, weightOf_flatMap]
  simp only [single]
  rw [@sum_groups_at _ _ _ _ (fun time values => if time = timestamp ∧ partition = other ∧
        (values.entries.any fun value => decide (0 < value.2)) = true ∧
        operator.aggregateAt tree timestamp = result then 1 else 0)
    timestamp (fun time values different => if_neg fun both => different both.1) (by simp)]
  refine if_congr ?_ rfl rfl
  rw [any_pos_iff]
  exact and_iff_right rfl

variable (inputTrace : Partitioned PK V) (tree : PK → List (ℤ × A))
  (outputTrace : Partitioned PK (WithBot Out))

/-- The tuples that one partition contributes. -/
def tuplesOf (partition : PK) (updates : ZSet (ℤ ×ₗ V)) : List ((PK × (ℤ ×ₗ WithBot Out)) × ℤ) :=
  retractionsOf partition (rangeCursor (operator.rangesOf updates)
        (partitionCursor (outputTrace.group partition)).groups) ++
    if inputTrace.group partition ≠ 0 ∧ tree partition ≠ [] then
      operator.insertionsOf partition (tree partition) (rangeCursor (operator.rangesOf updates)
          (partitionCursor (inputTrace.group partition)).groups)
    else []

theorem total_evalPartition (entry : PK × ZSet (ℤ ×ₗ V)) :
    (operator.evalPartition chunkSize inputTrace tree outputTrace output entry).total =
      output.total +
        ofTuples (operator.tuplesOf inputTrace tree outputTrace entry.1 entry.2) := by
  rw [tuplesOf, ofTuples_append, ← add_assoc, ← total_retractOutputs chunkSize]
  simp only [evalPartition]
  split_ifs
  · exact operator.total_insertOutputs _ _ _ _ _
  · simp [ofTuples]

variable (updates : ZSet (ℤ ×ₗ V))

omit [LinearOrder Out] in
/-- The affected ranges are in order. -/
theorem ascending_rangesOf : Ranges.Ascending (operator.rangesOf updates) := by
  refine (operator.range.affectedRanges_spec ?_).1
  exact pairwise_map.mpr (partitionCursor updates).sorted

omit [LinearOrder Out] in
/-- A cursor restricted to the affected ranges shows the affected timestamps. -/
theorem rangeCursor_rangesOf {Group : Type*} [LinearOrder Group] (batch : IndexedZSet ℤ Group) :
    rangeCursor (operator.rangesOf updates) batch.groups =
      (batch.filterKeys fun timestamp =>
        decide (Ranges.Member (operator.rangesOf updates) timestamp)).groups :=
  rangeCursor_eq_filter (operator.ascending_rangesOf updates) batch.sorted

/-- The outputs of a partition after its part of the loop, as far as they change. -/
def changeOf (partition : PK) (timestamp : ℤ) (result : WithBot Out) : ℤ :=
  (if (inputTrace.group partition ≠ 0 ∧ tree partition ≠ []) ∧
      Present (partitionCursor (inputTrace.group partition)) timestamp ∧
      operator.aggregateAt (tree partition) timestamp = result then 1 else 0) -
    outputTrace.weight partition (toLex (timestamp, result))

theorem weightOf_tuplesOf (other : PK) (timestamp : ℤ) (result : WithBot Out) :
    weightOf (operator.tuplesOf inputTrace tree outputTrace partition updates)
        (other, toLex (timestamp, result)) =
      if partition = other ∧ Ranges.Member (operator.rangesOf updates) timestamp then
        operator.changeOf inputTrace tree outputTrace partition timestamp result
      else 0 := by
  have inserted : weightOf (if inputTrace.group partition ≠ 0 ∧ tree partition ≠ [] then
        operator.insertionsOf partition (tree partition) (rangeCursor (operator.rangesOf updates)
            (partitionCursor (inputTrace.group partition)).groups)
        else []) (other, toLex (timestamp, result)) =
      if partition = other ∧ Ranges.Member (operator.rangesOf updates) timestamp then
        (if (inputTrace.group partition ≠ 0 ∧ tree partition ≠ []) ∧
          Present (partitionCursor (inputTrace.group partition)) timestamp ∧
          operator.aggregateAt (tree partition) timestamp = result then 1 else 0)
      else 0 := by
    rw [rangeCursor_rangesOf, ← ite_and]
    split
    case isTrue =>
      rw [weightOf_insertionsOf]
      refine if_congr ?_ rfl rfl
      rw [present_filterKeys, decide_eq_true_eq]
      tauto
    case isFalse gate =>
      rw [if_neg fun all => gate all.2.1, weightOf_nil]
  rw [tuplesOf, weightOf_append, inserted, rangeCursor_rangesOf, weightOf_retractionsOf,
    weight_filterKeys, weight_partitionCursor, changeOf, ite_and, ite_and]
  by_cases same : partition = other
  case neg => simp [same]
  case pos =>
    simp only [same, if_true, true_and, decide_eq_true_eq, weight]
    split_ifs <;> omega

/-- One evaluation replaces the outputs at the affected timestamps. -/
theorem weight_eval (inputDelta : Partitioned PK V) (timestamp : ℤ) (result : WithBot Out) :
    (ChunkBuffer.sumOf (operator.eval chunkSize inputDelta inputTrace tree outputTrace)).weight
        partition (toLex (timestamp, result)) =
      if Ranges.Member (operator.rangesOf (inputDelta.group partition)) timestamp then
        operator.changeOf inputTrace tree outputTrace partition timestamp result
      else 0 := by
  rw [eval, sumOf_finish, total_foldl
    (fun output entry => operator.total_evalPartition _ output _ _ _ entry),
    total_empty, zero_add, weight_ofTuples, weightOf_flatMap]
  simp only [weightOf_tuplesOf]
  rw [@sum_groups_at _ _ _ _ (fun other updates =>
      if other = partition ∧ Ranges.Member (operator.rangesOf updates) timestamp then
        operator.changeOf inputTrace tree outputTrace other timestamp result else 0)
    partition (fun other updates different => if_neg fun both => different both.1)
    (if_neg fun both => ?_)]
  · simp only [true_and]
  · have none : operator.rangesOf (0 : ZSet (ℤ ×ₗ V)) = [] := by
      simp [rangesOf, partitionCursor, ofTuples, RelRange.affectedRanges, Ranges.merge,
        show (0 : IndexedZSet ℤ V).groups = [] from rfl]
    simp [none, Ranges.Member] at both

end RollingAggregate

end OpenDera.TimeSeries
