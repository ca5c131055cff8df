import OpenDera.Std.Grouping
import OpenDera.TimeSeries.RollingAggregate

/-!
# The incremental rolling aggregate is the recomputed one

After every step the outputs emitted so far add up to one tuple for every
timestamp that a partition currently has, extended with the aggregate of the
values whose timestamps are within the offsets from it.
-/

namespace OpenDera.TimeSeries

open IndexedZSet List RollingAggregate RollingCircuit

variable {PK V A Out : Type*} [LinearOrder PK] [LinearOrder V]

/-- An unsigned type of timestamps and a relative range over it that does not end
before it begins. -/
structure RollingFrame where
  type : PrimInt
  unsigned : type.minValue = 0
  range : RelRange
  startFits : type.Contains range.start.amount
  stopFits : type.Contains range.stop.amount
  ordered : range.start.displacement ≤ range.stop.displacement

variable (frame : RollingFrame)

/-- The offsets of a frame are not negative. -/
theorem RollingFrame.nonneg : frame.range.Nonneg := by
  have unsigned := frame.unsigned
  have startFits := frame.startFits.1
  have stopFits := frame.stopFits.1
  constructor <;> omega

variable (aggregator : RollingAggregator V A Out)

/-- The operator for a frame. -/
def RollingFrame.operator : RollingAggregate V A Out where
  type := frame.type
  range := frame.range
  aggregator

/-- The aggregate of the values whose timestamps are within the offsets. -/
def rollingResult (range : RelRange) (partition : IndexedZSet ℤ V) (timestamp : ℤ) : WithBot Out :=
  (combineAll aggregator.combine
    ((partition.filterKeys fun other => decide (range.Covers timestamp other)).groups.filterMap
      fun entry => aggregator.aggregate entry.2)).elim ⊥
    fun accumulator => (aggregator.finalize accumulator : WithBot Out)

variable {timestamp : ℤ}

/-- The result depends only on the values within the offsets. -/
theorem rollingResult_congr {aggregator : RollingAggregator V A Out}
    {range : RelRange} {first second : IndexedZSet ℤ V}
    (same : ∀ other, range.Covers timestamp other → first.group other = second.group other) :
    rollingResult aggregator range first timestamp =
      rollingResult aggregator range second timestamp := by
  have window : (first.filterKeys fun other => decide (range.Covers timestamp other)) =
      second.filterKeys fun other => decide (range.Covers timestamp other) :=
    filterKeys_congr fun other covers => same other (of_decide_eq_true covers)
  rw [rollingResult, window, rollingResult]

section

variable (aggregator : RollingAggregator V A Out)

/-- A range of the tree holds the aggregates of the timestamps in the range. -/
theorem aggregateRange_treeOf (combine : A → A → A) (partition : IndexedZSet ℤ V) (range : Range) :
    aggregateRange combine (treeOf aggregator partition) range =
      combineAll combine ((partition.filterKeys fun other =>
        decide (range.Contains other)).groups.filterMap fun entry =>
          aggregator.aggregate entry.2) := by
  rw [aggregateRange, treeOf, filterKeys]
  congr 1
  dsimp only
  induction partition.groups with
  | nil => rfl
  | cons entry =>
    by_cases contained : range.Contains entry.1 <;>
      cases found : aggregator.aggregate entry.2 <;>
        simp_all

variable {partition : IndexedZSet ℤ V}

theorem Present.group_ne_zero (present : Present partition timestamp) :
    partition.group timestamp ≠ 0 := by
  intro zero
  obtain ⟨value, positive⟩ := present
  simp [weight, zero] at positive

/-- The tree of a partition in which a timestamp is present is not empty. -/
theorem treeOf_ne_nil (present : Present partition timestamp) :
    treeOf aggregator partition ≠ [] := by
  have nonzero := present.group_ne_zero
  have member : (timestamp, partition.group timestamp) ∈ partition.groups :=
    mem_groups.mpr ⟨rfl, nonzero⟩
  obtain ⟨accumulator, found⟩ := Option.ne_none_iff_exists'.mp
    (mt (aggregator.aggregate_eq_none _).mp nonzero)
  have leaf : (timestamp, accumulator) ∈ treeOf aggregator partition :=
    mem_filterMap.mpr ⟨_, member, by simp [found]⟩
  exact ne_nil_of_mem leaf

/-- Reading the tree over the range of a timestamp gives the aggregate of the values
within the offsets. -/
theorem aggregateAt_treeOf (frame : RollingFrame)
    (inside : ∀ timestamp, ¬ frame.type.Contains timestamp → partition.group timestamp = 0)
    (now : frame.type.Contains timestamp) :
    (frame.operator aggregator).aggregateAt (treeOf aggregator partition) timestamp =
      rollingResult aggregator frame.range partition timestamp := by
  have same : ∀ {keep other : ℤ → Bool}, (∀ time, frame.type.Contains time → keep time = other time) →
      partition.filterKeys keep = partition.filterKeys other := by
    intro keep other agree
    refine ext_group fun time => ?_
    rw [group_filterKeys, group_filterKeys]
    by_cases contains : frame.type.Contains time
    · rw [agree time contains]
    · rw [inside time contains, ite_self, ite_self]
  have covers : ∀ time, frame.type.Contains time →
      ((∃ found ∈ frame.range.rangeOf frame.type timestamp, found.Contains time) ↔
        frame.range.Covers timestamp time) := fun time contains =>
    frame.range.mem_rangeOf_iff frame.nonneg now contains
  rw [aggregateAt, rollingResult]
  simp only [RollingFrame.operator]
  cases computed : frame.range.rangeOf frame.type timestamp with
  | some =>
    rw [Option.bind_some, aggregateRange_treeOf, same fun time contains => ?_]
    rw [decide_eq_decide, ← covers time contains]
    simp [computed]
  | none =>
    have nothing : (partition.filterKeys fun other =>
        decide (frame.range.Covers timestamp other)) = partition.filterKeys fun _ => false := by
      refine same fun time contains => ?_
      rw [decide_eq_false_iff_not, ← covers time contains]
      simp [computed]
    rw [nothing]
    simp [filterKeys, combineAll]

end

/-! ### Partitions of a batch -/

section

variable {Row : Type*} [LinearOrder Row] (partitionFunc : Row → PK × V) (batch : IndexedZSet ℤ Row)
  (partition : PK)

/-- One partition of a batch. -/
def partitionOf : IndexedZSet ℤ V :=
  partitionCursor ((partitionBy partitionFunc batch).group partition)

/-- The values of a partition at a timestamp come from the rows at that timestamp. -/
theorem weight_partitionOf (timestamp : ℤ) (value : V) :
    (partitionOf partitionFunc batch partition).weight timestamp value =
      ZSet.total (fun row => if partitionFunc row = (partition, value) then (1 : ℤ) else 0)
        (batch.group timestamp) := by
  rw [partitionOf, weight_partitionCursor, ← total_ite]
  change weightHom (partition, toLex (timestamp, value)) (partitionBy partitionFunc batch) = _
  rw [partitionBy, map_eq_total, map_total]
  refine total_congr fun time row _ => ?_
  change (single _).weight partition (toLex (timestamp, value)) = _
  rw [weight_single, ← ite_and]
  refine if_congr ?_ rfl rfl
  simp only [Prod.ext_iff, toLex_inj]
  tauto

variable (first second : IndexedZSet ℤ Row)

theorem partitionBy_add : partitionBy partitionFunc (first + second) =
      partitionBy partitionFunc first + partitionBy partitionFunc second :=
  flatMap_add _ first second

theorem partitionOf_filterKeys (keep : ℤ → Bool) :
    partitionOf partitionFunc (batch.filterKeys keep) partition =
      (partitionOf partitionFunc batch partition).filterKeys keep := by
  ext timestamp value
  rw [weight_filterKeys, weight_partitionOf, weight_partitionOf, group_filterKeys]
  split_ifs
  · rfl
  · exact map_zero _

theorem partitionOf_add : partitionOf partitionFunc (first + second) partition =
      partitionOf partitionFunc first partition + partitionOf partitionFunc second partition := by
  ext timestamp value
  rw [weight_add, weight_partitionOf, weight_partitionOf, weight_partitionOf, group_add, map_add]

theorem group_partitionOf_eq_zero {batch : IndexedZSet ℤ Row}
    (zero : batch.group timestamp = 0) (partition : PK) :
    (partitionOf partitionFunc batch partition).group timestamp = 0 := by
  ext value
  change (partitionOf partitionFunc batch partition).weight timestamp value = 0
  rw [weight_partitionOf, zero, map_zero]

end

/-- The sum of two batches of a type. -/
def TimeSeriesBatch.add {type : PrimInt} {Row : Type*} [LinearOrder Row]
    (first second : TimeSeriesBatch type Row) : TimeSeriesBatch type Row where
  batch := first.batch + second.batch
  inside := fun timestamp outside => by
    rw [group_add, first.inside timestamp outside, second.inside timestamp outside, add_zero]

/-! ### Steps and runs -/

section

variable [LinearOrder Out] {Row : Type*} [LinearOrder Row] {frame : RollingFrame}
  {aggregator : RollingAggregator V A Out}
  {partitionFunc : Row → PK × V}

variable (frame aggregator partitionFunc) in
/-- The tuples that the output should hold when the rows received are `current`. -/
def Extended (current : IndexedZSet ℤ Row) (partition : PK) (entry : ℤ ×ₗ WithBot Out) : Prop :=
  Present (partitionOf partitionFunc current partition) (ofLex entry).1 ∧
    rollingResult aggregator frame.range (partitionOf partitionFunc current partition)
      (ofLex entry).1 = (ofLex entry).2

instance (current : IndexedZSet ℤ Row) (partition : PK) (entry : ℤ ×ₗ WithBot Out) :
    Decidable (Extended frame aggregator partitionFunc current partition entry) :=
  inferInstanceAs (Decidable (_ ∧ _))

variable (current delta : TimeSeriesBatch frame.type Row)

/-- A timestamp that is present belongs to the type. -/
theorem contains_of_present {partition : PK}
    (present : Present (partitionOf partitionFunc current.batch partition) timestamp) :
    frame.type.Contains timestamp := by
  by_contra outside
  exact present.group_ne_zero
    (group_partitionOf_eq_zero partitionFunc (current.inside timestamp outside) partition)

/-- What an evaluation puts in the place of the old outputs are the extended
timestamps. -/
theorem changeOf_eq (outputTrace : Partitioned PK (WithBot Out)) (partition : PK)
    (timestamp : ℤ) (result : WithBot Out) :
    (frame.operator aggregator).changeOf (partitionBy partitionFunc current.batch)
        (partitionedTree aggregator (partitionBy partitionFunc current.batch)) outputTrace partition
        timestamp result =
      (if Extended frame aggregator partitionFunc current.batch partition
        (toLex (timestamp, result)) then 1 else 0) -
        outputTrace.weight partition (toLex (timestamp, result)) := by
  rw [changeOf]
  congr 1
  refine if_congr ?_ rfl rfl
  have read : frame.type.Contains timestamp →
      (frame.operator aggregator).aggregateAt
          (partitionedTree aggregator (partitionBy partitionFunc current.batch) partition)
          timestamp =
        rollingResult aggregator frame.range (partitionOf partitionFunc current.batch partition)
          timestamp :=
    aggregateAt_treeOf aggregator frame fun time outside =>
      group_partitionOf_eq_zero partitionFunc (current.inside time outside) partition
  constructor
  · rintro ⟨-, present, computed⟩
    exact ⟨present, (read (contains_of_present current present)).symm.trans computed⟩
  · rintro ⟨present, computed⟩
    refine ⟨⟨fun zero => ?_, treeOf_ne_nil aggregator present⟩, present,
      (read (contains_of_present current present)).trans computed⟩
    obtain ⟨value, positive⟩ := present
    rw [partitionOf, weight_partitionCursor, zero, ZSet.weight_zero] at positive
    exact lt_irrefl 0 positive

omit [LinearOrder Out] in
/-- The affected ranges of the updates to a partition hold the affected timestamps. -/
theorem member_rangesOf_iff (partition : PK) (contains : frame.type.Contains timestamp) :
    Ranges.Member ((frame.operator aggregator).rangesOf
        ((partitionBy partitionFunc delta.batch).group partition)) timestamp ↔
      frame.range.Affects ((partitionOf partitionFunc delta.batch partition).groups.map Prod.fst)
        timestamp := by
  refine frame.range.member_affectedRanges_iff frame.nonneg
    (pairwise_map.mpr (partitionOf partitionFunc delta.batch partition).sorted)
    (fun time member => ?_) contains
  obtain ⟨⟨_, values⟩, entry, rfl⟩ := mem_map.mp member
  obtain ⟨rfl, nonzero⟩ := mem_groups.mp entry
  by_contra outside
  exact nonzero (group_partitionOf_eq_zero partitionFunc (delta.inside _ outside) partition)

omit [LinearOrder Out] in
/-- A timestamp outside the affected ranges keeps its extension. -/
theorem extended_iff_of_not_member {partition : PK} {result : WithBot Out}
    (unaffected : ¬ Ranges.Member ((frame.operator aggregator).rangesOf
      ((partitionBy partitionFunc delta.batch).group partition)) timestamp) :
    Extended frame aggregator partitionFunc (current.batch + delta.batch) partition
        (toLex (timestamp, result)) ↔
      Extended frame aggregator partitionFunc current.batch partition
        (toLex (timestamp, result)) := by
  by_cases contains : frame.type.Contains timestamp
  case neg =>
    exact iff_of_false (fun extended => contains (contains_of_present (current.add delta) extended.1))
      fun extended => contains (contains_of_present current extended.1)
  case pos =>
    have quiet : ∀ time, time = timestamp ∨ frame.range.Covers timestamp time →
        (partitionOf partitionFunc delta.batch partition).group time = 0 := by
      intro time near
      by_contra nonzero
      have listed : time ∈ (partitionOf partitionFunc delta.batch partition).groups.map Prod.fst :=
        mem_map_of_mem (mem_groups.mpr ⟨rfl, nonzero⟩)
      refine unaffected ((member_rangesOf_iff delta partition contains).mpr ?_)
      rcases near with rfl | covers
      · exact .inl listed
      · exact .inr ⟨time, listed, covers⟩
    have same : ∀ time, time = timestamp ∨ frame.range.Covers timestamp time →
        (partitionOf partitionFunc (current.batch + delta.batch) partition).group time =
          (partitionOf partitionFunc current.batch partition).group time := by
      intro time near
      rw [partitionOf_add, group_add, quiet time near, add_zero]
    refine and_congr ?_ ?_
    · simp only [Present, weight, ofLex_toLex, same timestamp (.inl rfl)]
    · rw [ofLex_toLex, rollingResult_congr fun time covers => same time (.inr covers)]

/-- One step keeps the outputs those of the rows received. -/
theorem RollingCircuit.step_lists {current delta : TimeSeriesBatch frame.type Row}
    {circuit : RollingCircuit PK V Out} (chunkSize : Nat)
    (input : circuit.inputTrace = partitionBy partitionFunc current.batch)
    (output : circuit.outputTrace.Lists (Extended frame aggregator partitionFunc current.batch)) :
    let next := circuit.step (frame.operator aggregator) partitionFunc (delta.batch, chunkSize)
    next.inputTrace = partitionBy partitionFunc (current.add delta).batch ∧
      next.outputTrace.Lists
        (Extended frame aggregator partitionFunc (current.add delta).batch) := by
  have sum : circuit.inputTrace + partitionBy partitionFunc delta.batch =
      partitionBy partitionFunc (current.add delta).batch := by
    rw [input, TimeSeriesBatch.add, partitionBy_add]
  refine ⟨sum, fun partition entry => ?_⟩
  obtain ⟨⟨timestamp, result⟩, rfl⟩ := toLex.surjective entry
  have before := output partition (toLex (timestamp, result))
  simp only [step, sum, weight_add, weight_eval]
  split_ifs with affected
  · rw [show (frame.operator aggregator).aggregator = aggregator from rfl, changeOf_eq]
    constructor <;> intro holds <;> simp [holds]
  · rw [add_zero]
    have same : Extended frame aggregator partitionFunc (current.add delta).batch partition
          (toLex (timestamp, result)) ↔
        Extended frame aggregator partitionFunc current.batch partition
          (toLex (timestamp, result)) :=
      extended_iff_of_not_member current delta affected
    exact ⟨fun holds => before.1 (same.mp holds),
      fun fails => before.2 fun holds => fails (same.mpr holds)⟩

variable (inputs : List (TimeSeriesBatch frame.type Row × Nat))

/-- The rows received in a sequence of steps. -/
def receivedRows : TimeSeriesBatch frame.type Row :=
  inputs.foldl (fun current input => current.add input.1) ⟨0, fun _ _ => rfl⟩

variable (frame aggregator partitionFunc) in
/-- The circuit after a sequence of steps. -/
def rollingRun : RollingCircuit PK V Out :=
  inputs.foldl (fun circuit input =>
    circuit.step (frame.operator aggregator) partitionFunc (input.1.batch, input.2)) {}

variable (inputs : List (TimeSeriesBatch frame.type Row × Nat))
  (input : TimeSeriesBatch frame.type Row × Nat)

theorem receivedRows_append_singleton :
    receivedRows (inputs ++ [input]) = (receivedRows inputs).add input.1 := by
  simp [receivedRows]

theorem rollingRun_append_singleton :
    rollingRun frame aggregator partitionFunc (inputs ++ [input]) =
      (rollingRun frame aggregator partitionFunc inputs).step (frame.operator aggregator)
        partitionFunc (input.1.batch, input.2) := by
  simp [rollingRun]

/-- After every run the traces are those of the rows received and the outputs add up
to the output trace. -/
theorem rollingRun_spec : let circuit := rollingRun frame aggregator partitionFunc inputs
    circuit.inputTrace = partitionBy partitionFunc (receivedRows inputs).batch ∧
      circuit.outputTrace.Lists
        (Extended frame aggregator partitionFunc (receivedRows inputs).batch) ∧
      (circuit.outputs.map ChunkBuffer.sumOf).sum = circuit.outputTrace := by
  induction inputs using List.reverseRecOn with
  | nil =>
    refine ⟨rfl, fun partition entry => ⟨fun extended => ?_, fun _ => rfl⟩, rfl⟩
    obtain ⟨value, positive⟩ := extended.1
    exact absurd positive (lt_irrefl 0)
  | append_singleton _ input ih =>
    obtain ⟨inputTrace, outputTrace, sum⟩ := ih
    rw [rollingRun_append_singleton, receivedRows_append_singleton]
    obtain ⟨nextInput, nextOutput⟩ :=
      @step_lists _ _ _ _ _ _ _ _ _ _ _ _ _ input.1 _ input.2 inputTrace outputTrace
    refine ⟨nextInput, nextOutput, ?_⟩
    simp [step, sum]

omit [LinearOrder Out] in
/-- The cursors of an evaluation stop at every affected timestamp, once and in
order. -/
theorem rangeCursor_visits {Group : Type*} [LinearOrder Group]
    (trace : TimeSeriesBatch frame.type Group) (partition : PK) :
    rangeCursor ((frame.operator aggregator).rangesOf
        ((partitionBy partitionFunc delta.batch).group partition)) trace.batch.groups =
      trace.batch.groups.filter fun entry => decide (frame.range.Affects
        ((partitionOf partitionFunc delta.batch partition).groups.map Prod.fst) entry.1) := by
  rw [rangeCursor_rangesOf, filterKeys]
  refine filter_congr fun entry member => ?_
  have contains : frame.type.Contains entry.1 := by
    obtain ⟨same, nonzero⟩ := mem_groups.mp member
    by_contra outside
    exact nonzero (same.symm.trans (trace.inside _ outside))
  rw [decide_eq_decide, member_rangesOf_iff delta partition contains]

end

/-- The outputs of the rolling aggregate add up to the recomputed ones after every
run; ranges and affected ranges are converses of each other, and the cursors of an
evaluation stop exactly at the affected timestamps. -/
theorem rolling_aggregate_recomputed [LinearOrder Out] {Row : Type*} [LinearOrder Row]
    (frame : RollingFrame) (aggregator : RollingAggregator V A Out)
    (partitionFunc : Row → PK × V) :
    (∀ inputs : List (TimeSeriesBatch frame.type Row × Nat),
      ((rollingRun frame aggregator partitionFunc inputs).outputs.map ChunkBuffer.sumOf).sum.Lists
        (Extended frame aggregator partitionFunc (receivedRows inputs).batch)) ∧
    (∀ ts timestamp, frame.type.Contains ts → frame.type.Contains timestamp →
      ((∃ range ∈ frame.range.rangeOf frame.type timestamp, range.Contains ts) ↔
        frame.range.Covers timestamp ts) ∧
      ((∃ range ∈ frame.range.affectedRangeOf frame.type ts, range.Contains timestamp) ↔
        frame.range.Covers timestamp ts)) ∧
    ∀ (delta : TimeSeriesBatch frame.type Row) (trace : TimeSeriesBatch frame.type V)
      (partition : PK),
      rangeCursor ((frame.operator aggregator).rangesOf
          ((partitionBy partitionFunc delta.batch).group partition)) trace.batch.groups =
        trace.batch.groups.filter fun entry => decide (frame.range.Affects
          ((partitionOf partitionFunc delta.batch partition).groups.map Prod.fst) entry.1) := by
  refine ⟨fun inputs => ?_, fun ts timestamp now contains => ⟨?_, ?_⟩,
    fun delta => rangeCursor_visits delta⟩
  · obtain ⟨-, outputs, sum⟩ :=
      @rollingRun_spec _ _ _ _ _ _ _ _ _ frame aggregator partitionFunc inputs
    rw [sum]
    exact outputs
  · exact frame.range.mem_rangeOf_iff frame.nonneg contains now
  · exact frame.range.mem_affectedRangeOf_iff frame.nonneg now contains

/-- An aggregator that says whether there is a row. -/
def existsRow : RollingAggregator Unit Unit Unit where
  aggregate := fun values => if values = 0 then none else some ()
  combine := fun _ _ => ()
  finalize := fun _ => ()
  aggregate_eq_none := fun values => by simp

theorem group_single_of_ne {timestamp other : ℤ} (different : other ≠ timestamp) :
    (single (timestamp, ()) : IndexedZSet ℤ Unit).group other = 0 := by
  ext value
  change (single (timestamp, ())).weight other value = 0
  rw [weight_single, if_neg fun same => different (Prod.ext_iff.mp same).1.symm]

/-- A batch with one row. -/
def rowAt (frame : RollingFrame) {timestamp : ℤ} (contains : frame.type.Contains timestamp) :
    TimeSeriesBatch frame.type Unit where
  batch := single (timestamp, ())
  inside := fun _ outside => group_single_of_ne fun same => outside (same ▸ contains)

/-- A window from five to three microseconds before the current row. -/
def precedingFrame : RollingFrame where
  type := ⟨0, 2 ^ 64 - 1, le_rfl, by decide⟩
  unsigned := rfl
  range := ⟨.before 5, .before 3⟩
  startFits := by decide
  stopFits := by decide
  ordered := by decide

/-- The row at 5 has a result because of the row at 0, which comes in a later step. -/
theorem rolling_aggregate_recomputed_two_rows :
    (((rollingRun precedingFrame existsRow fun _ => ((), ()))
      [(rowAt precedingFrame (show precedingFrame.type.Contains 5 by decide), 100),
        (rowAt precedingFrame (show precedingFrame.type.Contains 0 by decide), 100)]).outputs.map
          ChunkBuffer.sumOf).sum.weight () (toLex (5, (() : WithBot Unit))) = 1 :=
  ((rolling_aggregate_recomputed precedingFrame existsRow fun _ => ((), ())).1 _ () _).1
    (by decide +kernel)

end OpenDera.TimeSeries
