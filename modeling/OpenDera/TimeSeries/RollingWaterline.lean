import OpenDera.TimeSeries.RollingAggregateCorrect
import OpenDera.TimeSeries.Window

/-!
# Rolling aggregates with a waterline

`partitioned_rolling_aggregate_with_waterline` keeps only the rows from a lower bound on,
computed from the waterline and the length of the window, and lets the trace of the output
be collected below the same bound. The length is the right distance when the window contains
the current row: an older row may then be computed anew and reads that far back. When the
window lies before the current row, a new row reads further back, and when it lies after it,
a new row reaches older ones further back.
-/

namespace OpenDera.TimeSeries

open IndexedZSet ChunkBuffer List Option PrimInt RollingAggregate RelOffset WindowCircuit

variable {PK V A Out Row : Type*} [LinearOrder PK] [LinearOrder V] [LinearOrder Out]
  [LinearOrder Row]

namespace RelOffset

variable (type : PrimInt)

/-- `RelOffset::add`. -/
def add : RelOffset → RelOffset → RelOffset
  | before first, before second => before (type.saturating (first + second))
  | after first, after second => after (type.saturating (first + second))
  | after first, before second =>
    if second ≤ first then after (type.saturating (first - second))
    else before (type.saturating (second - first))
  | before first, after second =>
    if second ≤ first then before (type.saturating (first - second))
    else after (type.saturating (second - first))

/-- `RelOffset::sub`. -/
def sub (first second : RelOffset) : RelOffset :=
  add type first second.neg

end RelOffset

variable (type : PrimInt)

/-- The lower bound on the timestamps that are kept: the start of the window
shifted so that its right end is at the waterline. -/
def lowerBound (range : RelRange) (waterline : ℤ) : ℤ :=
  let shifted := RelRange.mk (range.start.sub type range.stop) (.before 0)
  ((shifted.rangeOf type waterline).map Range.start).getD type.minValue

variable {waterline : ℤ} (frame : RollingFrame)

/-- The shifted window begins at the waterline minus the length of the window, but
not below zero. -/
theorem RelOffset.startFrom_sub (contains : frame.type.Contains waterline) :
    (frame.range.start.sub frame.type frame.range.stop).startFrom frame.type waterline =
      some (max 0 (waterline -
        (frame.range.stop.displacement - frame.range.start.displacement))) := by
  have unsigned := frame.unsigned
  have ordered := frame.ordered
  have startFits := frame.startFits
  have stopFits := frame.stopFits
  simp only [PrimInt.Contains] at contains startFits stopFits
  generalize frame.range.start = start at *
  generalize frame.range.stop = stop at *
  cases start <;> cases stop <;>
    simp only [displacement, amount, sub, neg, add] at ordered startFits stopFits ⊢
  case before.before =>
    rw [if_pos (by omega)]
    simp only [startFrom, saturating, some.injEq]
    omega
  case before.after =>
    simp only [startFrom, saturating, some.injEq]
    omega
  case after.before =>
    simp only [startFrom, saturating]
    rw [checked_of_contains (by simp only [PrimInt.Contains]; omega), some.injEq]
    omega
  case after.after =>
    split_ifs
    · simp only [startFrom, saturating]
      rw [checked_of_contains (by simp only [PrimInt.Contains]; omega), some.injEq]
      omega
    · simp only [startFrom, saturating, some.injEq]
      omega

/-- The lower bound for a frame. -/
abbrev RollingFrame.bound : ℤ → ℤ := lowerBound frame.type frame.range

/-- The lower bound is the waterline minus the length of the window, but not less
than zero. -/
theorem RollingFrame.bound_eq (contains : frame.type.Contains waterline) : frame.bound waterline =
      max 0 (waterline - (frame.range.stop.displacement - frame.range.start.displacement)) := by
  have stop : (before 0).stopFrom frame.type waterline = some waterline := by
    rw [stopFrom, sub_zero, checked_of_contains contains]
  simp [bound, lowerBound, RelRange.rangeOf, startFrom_sub frame contains, stop]

/-- What the circuit receives in one step: a batch, the waterline, the chunk size in
force and what the merger leaves of the two traces below the bound. -/
structure WaterlineStep (PK Out Row : Type*)
    [LinearOrder PK] [LinearOrder Out] [LinearOrder Row] where
  delta : TimeSeriesBatch type Row
  waterline : ℤ
  contains : type.Contains waterline
  onTime : ∀ timestamp, timestamp < waterline → delta.batch.group timestamp = 0
  chunkSize : Nat
  windowResidue : IndexedZSet ℤ Row
  outputResidue : Partitioned PK (WithBot Out)

/-- Steps whose waterline never decreases. -/
structure WaterlineSchedule (PK Out Row : Type*)
    [LinearOrder PK] [LinearOrder Out] [LinearOrder Row] where
  steps : List (WaterlineStep type PK Out Row)
  grow : steps.Pairwise fun earlier later => earlier.waterline ≤ later.waterline

/-- The window operator over the input, the trace of the output and the chunks
emitted in every step. -/
structure WaterlineCircuit (PK Out Row : Type*)
    [LinearOrder PK] [LinearOrder Out] [LinearOrder Row] where
  window : WindowCircuit ℤ Row := { operator := Window.new (true, true) }
  outputTrace : Partitioned PK (WithBot Out) := 0
  outputs : List (List (Partitioned PK (WithBot Out) × Bool)) := []

namespace WaterlineCircuit

/-- Values from `(bound, None)` on are retained; a collector may do anything to
smaller ones. -/
def retainValues (bound : ℤ) (residue trace : Partitioned PK (WithBot Out)) :
    Partitioned PK (WithBot Out) :=
  trace.filter (fun pair => decide (toLex (bound, ⊥) ≤ pair.2)) +
    residue.filter fun pair => decide (pair.2 < toLex (bound, ⊥))

/-- The window that the circuit maintains over its input. -/
def windowStep (range : RelRange) {type : PrimInt}
    (input : WaterlineStep type PK Out Row) : WindowStep ℤ Row where
  delta := input.delta.batch
  bounds := (lowerBound type range input.waterline, type.maxValue)
  chunkSize := input.chunkSize
  residue := input.windowResidue

/-- One step of the circuit of `dyn_partitioned_rolling_aggregate_with_waterline`. -/
def step (frame : RollingFrame) (aggregator : RollingAggregator V A Out)
    (partitionFunc : Row → PK × V) (circuit : WaterlineCircuit PK Out Row)
    (input : WaterlineStep frame.type PK Out Row) :
    Option (WaterlineCircuit PK Out Row) :=
  (circuit.window.step (windowStep frame.range input)).map fun window =>
    let inputTrace := partitionBy partitionFunc window.emitted
    let chunks := (frame.operator aggregator).eval input.chunkSize
      (partitionBy partitionFunc input.delta.batch) inputTrace
      (partitionedTree aggregator inputTrace) circuit.outputTrace
    { window
      outputTrace := retainValues (lowerBound frame.type frame.range input.waterline)
        input.outputResidue (circuit.outputTrace + sumOf chunks)
      outputs := circuit.outputs ++ [chunks] }

end WaterlineCircuit

open WaterlineCircuit

/-- Over the schedule, the circuit with a waterline emits in every step what the
circuit without one emits. -/
def WaterlineSchedule.Agrees {frame : RollingFrame}
    (schedule : WaterlineSchedule frame.type PK Out Row) (aggregator : RollingAggregator V A Out)
    (partitionFunc : Row → PK × V) : Prop :=
  ∃ circuit, Run.run (step frame aggregator partitionFunc) {} schedule.steps =
      some circuit ∧
    circuit.outputs.map sumOf =
      (rollingRun frame aggregator partitionFunc
        (schedule.steps.map fun step => (step.delta, step.chunkSize))).outputs.map sumOf

/-- With the frame the circuits agree, whatever is aggregated and whatever is
collected. -/
def RollingFrame.WaterlineAgrees : Prop :=
  ∀ (PK V A Out Row : Type) [LinearOrder PK] [LinearOrder V] [LinearOrder Out] [LinearOrder Row]
    (aggregator : RollingAggregator V A Out)
    (partitionFunc : Row → PK × V)
    (schedule : WaterlineSchedule frame.type PK Out Row),
    schedule.Agrees aggregator partitionFunc

/-- The window contains the current row. -/
def RollingFrame.ContainsCurrentRow : Prop :=
  frame.range.start.displacement ≤ 0 ∧ 0 ≤ frame.range.stop.displacement

/-! ## Agreement with the circuit without a waterline -/

/-! ### Windows that contain the current row -/

section

variable {frame : RollingFrame} {aggregator : RollingAggregator V A Out}
  {partitionFunc : Row → PK × V} {partition : PK} {timestamp : ℤ}

/-- The updates to a partition are timestamps of the batch. -/
theorem group_ne_zero_of_listed {batch : IndexedZSet ℤ Row}
    (listed : timestamp ∈ (partitionOf partitionFunc batch partition).groups.map Prod.fst) :
    batch.group timestamp ≠ 0 := by
  obtain ⟨⟨_, values⟩, entry, rfl⟩ := mem_map.mp listed
  obtain ⟨rfl, nonzero⟩ := mem_groups.mp entry
  exact fun zero => nonzero (group_partitionOf_eq_zero partitionFunc zero partition)

/-- An update that is on time is a timestamp of the type from the waterline on. -/
theorem WaterlineStep.le_of_listed (step : WaterlineStep frame.type PK Out Row)
    (listed : timestamp ∈
      (partitionOf partitionFunc step.delta.batch partition).groups.map Prod.fst) :
    step.waterline ≤ timestamp ∧ frame.type.Contains timestamp := by
  have nonzero := group_ne_zero_of_listed listed
  constructor
  · exact not_lt.mp fun late => nonzero (step.onTime timestamp late)
  · by_contra outside
    exact nonzero (step.delta.inside timestamp outside)

/-- The rows that the window keeps. -/
def inBounds (frame : RollingFrame) (waterline timestamp : ℤ) : Bool :=
  inWindow (true, true) (lowerBound frame.type frame.range waterline, frame.type.maxValue) timestamp

theorem inBounds_iff {timestamp : ℤ} : inBounds frame waterline timestamp = true ↔
      frame.bound waterline ≤ timestamp ∧
        timestamp ≤ frame.type.maxValue := by
  simp [inBounds, inWindow, beforeStart, beforeEnd]

variable (batch : TimeSeriesBatch frame.type Row)

/-- The part of a batch that the window keeps. -/
def TimeSeriesBatch.kept (waterline : ℤ) : TimeSeriesBatch frame.type Row where
  batch := batch.batch.filterKeys (inBounds frame waterline)
  inside := fun timestamp outside => by
    rw [group_filterKeys, batch.inside timestamp outside, ite_self]

/-- From the lower bound on nothing is missing. -/
theorem group_partitionOf_kept {timestamp : ℤ}
    (above : frame.bound waterline ≤ timestamp) (partition : PK) :
    (partitionOf partitionFunc (batch.kept waterline).batch partition).group timestamp =
      (partitionOf partitionFunc batch.batch partition).group timestamp := by
  rw [TimeSeriesBatch.kept, partitionOf_filterKeys, group_filterKeys]
  split_ifs with kept
  · rfl
  · refine (group_partitionOf_eq_zero partitionFunc (batch.inside timestamp fun contains => kept ?_)
      partition).symm
    exact inBounds_iff.mpr ⟨above, contains.2⟩

section

variable (current : frame.ContainsCurrentRow) {step : WaterlineStep frame.type PK Out Row}

include current

section

variable (affected : Ranges.Member ((frame.operator aggregator).rangesOf
  ((partitionBy partitionFunc step.delta.batch).group partition)) timestamp)

include affected

/-- Updates that are on time affect only timestamps from the lower bound on. -/
theorem bound_le_of_member : frame.bound step.waterline ≤ timestamp := by
  have unsigned := frame.unsigned
  have bound := frame.bound_eq step.contains
  have contains := step.contains
  obtain ⟨startBelow, stopAbove⟩ := current
  rcases ((frame.range.affectedRanges_spec (pairwise_map.mpr
    (partitionOf partitionFunc step.delta.batch partition).sorted)).2 timestamp).mp affected with
    updated | ⟨ts, listed, found, computed, inside⟩
  · have order := step.le_of_listed updated
    simp only [PrimInt.Contains] at *
    omega
  · obtain ⟨order, tsContains⟩ := step.le_of_listed listed
    have start : frame.bound step.waterline ≤ found.start := by
      rw [RelRange.affectedRangeOf_eq, RelRange.rangeOf] at computed
      simp only [mem_def, bind_eq_bind, bind_eq_some_iff, some.injEq] at computed
      obtain ⟨start, startComputed, _, _, rfl⟩ := computed
      have startContains : frame.type.Contains start := contains_startFrom startComputed
      have reach := (startFrom_le_iff (by simpa using frame.nonneg.2) tsContains
        startContains).mp ⟨start, startComputed, le_rfl⟩
      rw [displacement_neg] at reach
      simp only [PrimInt.Contains] at *
      omega
    exact start.trans inside.1

/-- A timestamp that is affected and present reads only rows from the lower bound on. -/
theorem bound_le_of_covers {other : ℤ} (contains : frame.type.Contains timestamp)
    (otherContains : frame.type.Contains other) (covers : frame.range.Covers timestamp other) :
    frame.bound step.waterline ≤ other := by
  have unsigned := frame.unsigned
  have bound := frame.bound_eq step.contains
  obtain ⟨startBelow, stopAbove⟩ := current
  simp only [RelRange.Covers, PrimInt.Contains] at covers otherContains
  rcases (member_rangesOf_iff step.delta partition contains).mp affected with
    updated | ⟨ts, listed, reaches⟩
  · have order := (step.le_of_listed updated).1
    omega
  · have order := (step.le_of_listed listed).1
    simp only [RelRange.Covers] at reaches
    omega

/-- The rows that are kept and all rows extend an affected timestamp alike. -/
theorem extended_kept_iff (rows : TimeSeriesBatch frame.type Row) (result : WithBot Out) :
    Extended frame aggregator partitionFunc (rows.kept step.waterline).batch partition
        (toLex (timestamp, result)) ↔
      Extended frame aggregator partitionFunc rows.batch partition (toLex (timestamp, result)) := by
  have above := bound_le_of_member current affected
  simp only [Extended, Present, weight, ofLex_toLex, group_partitionOf_kept rows above]
  refine and_congr_right fun present => ?_
  have contains := contains_of_present rows present
  rw [rollingResult_congr fun other covers => ?_]
  by_cases otherContains : frame.type.Contains other
  · exact group_partitionOf_kept rows
      (bound_le_of_covers current affected contains otherContains covers) partition
  · rw [group_partitionOf_eq_zero _ (rows.inside other otherContains),
      group_partitionOf_eq_zero _ ((rows.kept step.waterline).inside other otherContains)]

end

omit current

variable (aggregator partitionFunc)

/-- What the operator emits in a step when it has received the rows. -/
def WaterlineStep.chunks (step : WaterlineStep frame.type PK Out Row)
    (rows : TimeSeriesBatch frame.type Row) (outputTrace : Partitioned PK (WithBot Out)) :
    List (Partitioned PK (WithBot Out) × Bool) :=
  (frame.operator aggregator).eval step.chunkSize (partitionBy partitionFunc step.delta.batch)
    (partitionBy partitionFunc rows.batch)
    (partitionedTree aggregator (partitionBy partitionFunc rows.batch)) outputTrace

include current

/-- An evaluation with a waterline emits what the one without emits. -/
theorem sumOf_chunks_kept (rows : TimeSeriesBatch frame.type Row)
    {firstOutputs secondOutputs : Partitioned PK (WithBot Out)}
    (outputs : ∀ partition timestamp result,
      frame.bound step.waterline ≤ timestamp →
      firstOutputs.weight partition (toLex (timestamp, result)) =
        secondOutputs.weight partition (toLex (timestamp, result))) :
    sumOf (step.chunks aggregator partitionFunc (rows.kept step.waterline) firstOutputs) =
      sumOf (step.chunks aggregator partitionFunc rows secondOutputs) := by
  ext partition entry
  obtain ⟨⟨timestamp, result⟩, rfl⟩ := toLex.surjective entry
  rw [WaterlineStep.chunks, WaterlineStep.chunks, weight_eval,
    weight_eval]
  refine if_ctx_congr Iff.rfl (fun affected => ?_) fun _ => rfl
  rw [changeOf_eq, changeOf_eq, outputs partition timestamp result
    (bound_le_of_member current affected)]
  congr 1
  exact if_congr (extended_kept_iff current affected rows result) rfl rfl

end

/-! ### Steps and runs -/

variable (steps : List (WaterlineStep frame.type PK Out Row))

/-- The inputs of the circuit without a waterline. -/
def plainInputs : List (TimeSeriesBatch frame.type Row × Nat) :=
  steps.map fun step => (step.delta, step.chunkSize)

/-- The circuit is where the circuit without a waterline is, apart from what lies
below the lower bound. -/
structure Follows (frame : RollingFrame) (aggregator : RollingAggregator V A Out)
    (partitionFunc : Row → PK × V) (steps : List (WaterlineStep frame.type PK Out Row))
    (circuit : WaterlineCircuit PK Out Row) : Prop where
  window : WindowCircuit.Invariant (true, true)
    (steps.map (windowStep frame.range)) circuit.window
  outputTrace : ∀ partition timestamp result,
    (∀ last ∈ steps.getLast?, lowerBound frame.type frame.range last.waterline ≤ timestamp) →
    circuit.outputTrace.weight partition (toLex (timestamp, result)) =
      (rollingRun frame aggregator partitionFunc (plainInputs steps)).outputTrace.weight partition
        (toLex (timestamp, result))
  outputs : circuit.outputs.map sumOf =
    (rollingRun frame aggregator partitionFunc (plainInputs steps)).outputs.map sumOf

/-- A later waterline has no smaller lower bound. -/
theorem bound_mono {earlier later : ℤ} (earlierContains : frame.type.Contains earlier)
    (laterContains : frame.type.Contains later) (order : earlier ≤ later) :
    frame.bound earlier ≤ frame.bound later := by
  rw [frame.bound_eq earlierContains, frame.bound_eq laterContains]
  omega

/-- The window operator receives the rows of the circuit without a waterline. -/
theorem integral_windowStep :
    integral (steps.map (windowStep frame.range)) =
      (receivedRows (plainInputs steps)).batch := by
  induction steps using reverseRecOn with
  | nil => rfl
  | append_singleton _ _ ih =>
    rw [map_append, map_singleton, integral_append_singleton,
      ih, plainInputs, plainInputs, map_append, map_singleton,
      receivedRows_append_singleton]
    rfl

/-- Collecting values leaves those from the bound on. -/
theorem weight_retainValues {bound timestamp : ℤ} (retained : bound ≤ timestamp)
    (residue trace : Partitioned PK (WithBot Out)) (partition : PK) (result : WithBot Out) :
    (retainValues bound residue trace).weight partition
        (toLex (timestamp, result)) =
      trace.weight partition (toLex (timestamp, result)) := by
  have order : toLex (bound, (⊥ : WithBot Out)) ≤ toLex (timestamp, result) := by
    rw [Prod.Lex.toLex_le_toLex]
    rcases retained.lt_or_eq with below | rfl
    · exact .inl below
    · exact .inr ⟨rfl, bot_le⟩
  rw [retainValues, weight_add, weight_filter,
    weight_filter, decide_eq_true order, decide_eq_false (not_lt.mpr order)]
  simp

variable (aggregator partitionFunc) {steps} {input : WaterlineStep frame.type PK Out Row}
  {circuit : WaterlineCircuit PK Out Row}

/-- One step evaluates the operator on the rows that the window keeps. -/
theorem WaterlineCircuit.step_spec
    (grow : (steps ++ [input]).Pairwise fun earlier later => earlier.waterline ≤ later.waterline)
    (before : WindowCircuit.Invariant (true, true)
      (steps.map (windowStep frame.range)) circuit.window) :
    let rows := ((receivedRows (plainInputs steps)).add input.delta).kept input.waterline
    let chunks := input.chunks aggregator partitionFunc rows circuit.outputTrace
    ∃ next, circuit.step frame aggregator partitionFunc input = some next ∧
      WindowCircuit.Invariant (true, true)
        ((steps ++ [input]).map (windowStep frame.range)) next.window ∧
      next.outputTrace = retainValues (frame.bound input.waterline)
        input.outputResidue (circuit.outputTrace + sumOf chunks) ∧
      next.outputs = circuit.outputs ++ [chunks] := by
  intro rows chunks
  have boundsGrow : WindowCircuit.LowerBoundsGrow
      (steps.map (windowStep frame.range) ++ [windowStep frame.range input]) := by
    rw [← map_singleton, ← map_append]
    refine pairwise_map.mpr (grow.imp fun {earlier later} order => ?_)
    exact bound_mono earlier.contains later.contains order
  obtain ⟨window, stepped, invariant⟩ := step_invariant boundsGrow before
  have emitted : window.emitted = rows.batch := by
    have whole := invariant.emitted
    rw [integral_append_singleton, integral_windowStep,
      getLast?_append, getLast?_singleton, some_or] at whole
    exact whole
  rw [step, stepped, map_some, emitted, map_append, map_singleton]
  exact ⟨_, rfl, invariant, rfl, rfl⟩

/-- One step of the circuit without a waterline evaluates the operator on all rows
received. -/
theorem rollingRun_plainInputs (steps : List (WaterlineStep frame.type PK Out Row))
    (input : WaterlineStep frame.type PK Out Row) :
    let before := rollingRun frame aggregator partitionFunc (plainInputs steps)
    let rows := (receivedRows (plainInputs steps)).add input.delta
    let chunks := input.chunks aggregator partitionFunc rows before.outputTrace
    rollingRun frame aggregator partitionFunc (plainInputs (steps ++ [input])) =
      { inputTrace := partitionBy partitionFunc rows.batch
        outputTrace := before.outputTrace + sumOf chunks
        outputs := before.outputs ++ [chunks] } := by
  intro before rows chunks
  have inputTrace : before.inputTrace + partitionBy partitionFunc input.delta.batch =
      partitionBy partitionFunc rows.batch := by
    rw [(rollingRun_spec (plainInputs steps)).1, ← partitionBy_add]
    rfl
  rw [plainInputs, map_append, map_singleton, rollingRun_append_singleton]
  change before.step _ _ _ = _
  rw [RollingCircuit.step]
  simp only [inputTrace]
  rfl

variable {aggregator partitionFunc}

/-- One step keeps the circuits together. -/
theorem Follows.step (current : frame.ContainsCurrentRow)
    (grow : (steps ++ [input]).Pairwise fun earlier later => earlier.waterline ≤ later.waterline)
    (follows : Follows frame aggregator partitionFunc steps circuit) :
    ∃ next, circuit.step frame aggregator partitionFunc input = some next ∧
      Follows frame aggregator partitionFunc (steps ++ [input]) next := by
  obtain ⟨next, stepped, invariant, traced, emits⟩ :=
    step_spec aggregator partitionFunc grow follows.window
  have lastBelow : ∀ last ∈ steps.getLast?, frame.bound last.waterline ≤
      frame.bound input.waterline := fun last member =>
    bound_mono last.contains input.contains ((pairwise_append.mp grow).2.2 last
      (mem_of_getLast? member) input (mem_singleton_self _))
  have emitted := sumOf_chunks_kept aggregator partitionFunc current
    ((receivedRows (plainInputs steps)).add input.delta) fun partition timestamp result above => follows.outputTrace partition
      timestamp result fun last member => (lastBelow last member).trans above
  refine ⟨_, stepped, ?_⟩
  constructor
  case window => exact invariant
  case outputTrace =>
    intro partition timestamp result above
    have retained := above input (by simp)
    rw [traced, weight_retainValues retained, weight_add, rollingRun_plainInputs,
      weight_add, emitted, follows.outputTrace partition timestamp result fun last member =>
        (lastBelow last member).trans retained]
  case outputs =>
    rw [emits, rollingRun_plainInputs, map_append, map_append, follows.outputs,
      map_singleton, map_singleton, emitted]

theorem Follows.initial : Follows frame aggregator partitionFunc [] ({} : WaterlineCircuit _ _ _) where
  window := ⟨rfl, rfl, rfl, fun _ _ => rfl, rfl⟩
  outputTrace := fun _ _ _ _ => rfl
  outputs := rfl

end

/-- If the window contains the current row, the waterline does not change the
output. -/
theorem RollingFrame.waterlineAgrees_of_containsCurrentRow {frame : RollingFrame}
    (current : frame.ContainsCurrentRow) : frame.WaterlineAgrees := by
  intro PK V A Out Row _ _ _ _ aggregator partitionFunc schedule
  obtain ⟨circuit, reached, follows⟩ := Run.invariant
    (fun steps : List (WaterlineStep frame.type PK Out Row) =>
      steps.Pairwise fun earlier later => earlier.waterline ≤ later.waterline)
    (Follows frame aggregator partitionFunc)
    (fun steps input grow => (pairwise_append.mp grow).1) Follows.initial
    (fun steps input circuit grow follows => follows.step current grow) schedule.steps schedule.grow
  exact ⟨circuit, reached, follows.outputs⟩

/-! ### Windows that do not contain the current row -/

section

variable {PK V A Out Row : Type} [LinearOrder PK]
  [LinearOrder V] [LinearOrder Out] [LinearOrder Row] {frame : RollingFrame}

/-- If the outputs of two steps agree, the second step extends the same timestamps
from the rows that the window keeps and from all rows. -/
theorem extended_kept_iff_of_agrees {aggregator : RollingAggregator V A Out}
    {partitionFunc : Row → PK × V} {first second : WaterlineStep frame.type PK Out Row}
    {grow : ([first] ++ [second]).Pairwise fun earlier later => earlier.waterline ≤ later.waterline}
    (agrees : WaterlineSchedule.Agrees ⟨[first] ++ [second], grow⟩ aggregator partitionFunc)
    {partition : PK} {timestamp : ℤ} (above : frame.bound first.waterline ≤ timestamp)
    (affected : Ranges.Member ((frame.operator aggregator).rangesOf
      ((partitionBy partitionFunc second.delta.batch).group partition)) timestamp)
    (result : WithBot Out) :
    Extended frame aggregator partitionFunc
        (((receivedRows (plainInputs [first])).add second.delta).kept second.waterline).batch
        partition (toLex (timestamp, result)) ↔
      Extended frame aggregator partitionFunc
        ((receivedRows (plainInputs [first])).add second.delta).batch
        partition (toLex (timestamp, result)) := by
  obtain ⟨circuit, reached, same⟩ := agrees
  obtain ⟨middle, firstStepped, invariant, traced, isFirst⟩ :=
    step_spec aggregator partitionFunc (pairwise_singleton _ first)
      (@Follows.initial _ _ _ _ _ _ _ _ _ frame aggregator partitionFunc).window
  obtain ⟨_, secondStepped, -, -, isSecond⟩ :=
    step_spec aggregator partitionFunc grow invariant
  rw [Run.run_append_singleton, ← nil_append [first], Run.run_append_singleton, Run.run_nil,
    bind_some, firstStepped, bind_some, secondStepped] at reached
  obtain rfl := some.inj reached
  let before := rollingRun frame aggregator partitionFunc (plainInputs [first])
  have sum : (before.outputs.map sumOf).sum = before.outputTrace :=
    (@rollingRun_spec _ _ _ _ _ _ _ _ _ frame aggregator partitionFunc (plainInputs [first])).2.2
  change _ = (rollingRun frame aggregator partitionFunc
    (plainInputs ([first] ++ [second]))).outputs.map sumOf at same
  rw [isSecond, rollingRun_plainInputs, map_append, map_append] at same
  obtain ⟨firstSame, secondSame⟩ := append_inj' same (by simp)
  have tracesAgree : middle.outputTrace.weight partition (toLex (timestamp, result)) =
      before.outputTrace.weight partition (toLex (timestamp, result)) := by
    rw [traced, weight_retainValues above, ← sum, ← firstSame, isFirst]
    simp
  have weights := congrArg (weight · partition (toLex (timestamp, result)))
    (singleton_inj.mp secondSame)
  simp only [WaterlineStep.chunks] at weights
  rw [weight_eval, weight_eval, if_pos affected, if_pos affected,
    changeOf_eq, changeOf_eq, tracesAgree, sub_left_inj] at weights
  split_ifs at weights with kept all all <;> simp_all

omit [LinearOrder Out] in
/-- There is no result exactly when no row is within the offsets. -/
theorem rollingResult_eq_bot_iff (aggregator : RollingAggregator V A Out)
    (range : RelRange) (partition : IndexedZSet ℤ V) (timestamp : ℤ) :
    rollingResult aggregator range partition timestamp = ⊥ ↔
      ∀ other, range.Covers timestamp other → partition.group other = 0 := by
  rw [rollingResult]
  constructor
  · intro none other covers
    by_contra nonzero
    have member : (other, partition.group other) ∈
        (partition.filterKeys fun other => decide (range.Covers timestamp other)).groups :=
      mem_filter.mpr ⟨mem_groups.mpr ⟨rfl, nonzero⟩, decide_eq_true covers⟩
    obtain ⟨accumulator, found⟩ := ne_none_iff_exists'.mp
      (mt (aggregator.aggregate_eq_none _).mp nonzero)
    have leaf : accumulator ∈ (partition.filterKeys fun other =>
        decide (range.Covers timestamp other)).groups.filterMap fun entry =>
          aggregator.aggregate entry.2 := mem_filterMap.mpr ⟨_, member, found⟩
    obtain ⟨first, rest, split⟩ := exists_cons_of_ne_nil (ne_nil_of_mem leaf)
    rw [split] at none
    exact WithBot.coe_ne_bot none
  · intro empty
    have nothing : (partition.filterKeys fun other =>
        decide (range.Covers timestamp other)) = 0 := by
      refine ext_group fun other => ?_
      rw [group_filterKeys]
      split_ifs with covers
      · exact empty other (of_decide_eq_true covers)
      · rfl
    rw [nothing]
    rfl

end

section

variable {frame : RollingFrame}

/-- A step with one row, at the waterline. -/
def rowStep (frame : RollingFrame) (timestamp : ℤ) (contains : frame.type.Contains timestamp) :
    WaterlineStep frame.type Unit Unit Unit where
  delta := rowAt frame contains
  waterline := timestamp
  contains := contains
  onTime := fun _ late => group_single_of_ne late.ne
  chunkSize := 100
  windowResidue := 0
  outputResidue := 0

variable (frame) {first second : ℤ} (firstContains : frame.type.Contains first)
  (secondContains : frame.type.Contains second)

/-- Two steps with one row each. -/
def twoRowSchedule (order : first ≤ second) : WaterlineSchedule frame.type Unit Unit Unit where
  steps := [rowStep frame first firstContains] ++ [rowStep frame second secondContains]
  grow := by simpa [rowStep] using order

/-- All rows are in one partition. -/
theorem partitionOf_unit (batch : IndexedZSet ℤ Unit) :
    partitionOf (fun _ => ((), ())) batch () = batch := by
  ext timestamp value
  rw [weight_partitionOf, ZSet.total_unique]
  simp [weight]

/-- The rows of two steps with one row each. -/
def twoRows : TimeSeriesBatch frame.type Unit :=
  (receivedRows (plainInputs [rowStep frame first firstContains])).add
    (rowStep frame second secondContains).delta

variable {frame}

theorem weight_twoRows (timestamp : ℤ) :
    (twoRows frame firstContains secondContains).batch.weight timestamp () =
      (if first = timestamp then 1 else 0) + if second = timestamp then 1 else 0 := by
  simp [twoRows, TimeSeriesBatch.add, receivedRows, plainInputs, rowStep, rowAt]

/-- Two steps tell the circuits apart if the second row affects a timestamp that has
a result among all rows and none among those that are kept. -/
theorem not_agrees_of_probe {timestamp : ℤ} (order : first ≤ second) (contains : frame.type.Contains timestamp)
    (above : frame.bound first ≤ timestamp)
    (affected : timestamp = second ∨ frame.range.Covers timestamp second)
    (present : timestamp = first ∨ timestamp = second)
    (covered : frame.range.Covers timestamp first ∨ frame.range.Covers timestamp second)
    (lost : timestamp < frame.bound second ∨
      ∀ row, row = first ∨ row = second → frame.range.Covers timestamp row →
        row < frame.bound second) :
    ¬ (twoRowSchedule frame firstContains secondContains order).Agrees existsRow
      fun _ => ((), ()) := by
  intro agrees
  let rows := twoRows frame firstContains secondContains
  have weight := weight_twoRows firstContains secondContains
  have nonzero : ∀ row, row = first ∨ row = second → rows.batch.group row ≠ 0 := by
    refine fun row isRow => ne_of_apply_ne (ZSet.weight · ()) ?_
    change rows.batch.weight row () ≠ 0
    rw [weight]
    split_ifs <;> omega
  have listed : second ∈ (partitionOf (fun _ => ((), ()))
      (rowStep frame second secondContains).delta.batch ()).groups.map Prod.fst := by
    rw [partitionOf_unit]
    refine mem_map_of_mem (mem_groups.mpr ⟨rfl, ne_of_apply_ne (ZSet.weight · ()) ?_⟩)
    change (single (second, ())).weight second () ≠ 0
    simp
  have member : Ranges.Member ((frame.operator existsRow).rangesOf
      ((partitionBy (fun _ => ((), ())) (rowStep frame second secondContains).delta.batch).group ()))
      timestamp := by
    refine (member_rangesOf_iff _ () contains).mpr ?_
    rcases affected with rfl | covers
    · exact .inl listed
    · exact .inr ⟨second, listed, covers⟩
  have same := extended_kept_iff_of_agrees agrees above member ((() : Unit) : WithBot Unit)
  simp only [Extended, partitionOf_unit, ofLex_toLex] at same
  have found : Present rows.batch timestamp ∧
      rollingResult existsRow frame.range rows.batch timestamp = ((() : Unit) : WithBot Unit) := by
    constructor
    · refine ⟨(), ?_⟩
      rw [weight]
      split_ifs <;> omega
    · have some : rollingResult existsRow frame.range rows.batch timestamp ≠ ⊥ := by
        rw [Ne, rollingResult_eq_bot_iff]
        intro empty
        rcases covered with covers | covers
        · exact nonzero first (.inl rfl) (empty first covers)
        · exact nonzero second (.inr rfl) (empty second covers)
      obtain ⟨⟨⟩, result⟩ := WithBot.ne_bot_iff_exists.mp some
      exact result.symm
  obtain ⟨kept, result⟩ := same.mpr found
  have dropped : ∀ row, row < frame.bound second →
      (rows.kept second).batch.group row = 0 := by
    intro row below
    rw [TimeSeriesBatch.kept, group_filterKeys, if_neg]
    exact fun kept => absurd (inBounds_iff.mp kept).1 (not_le.mpr below)
  rcases lost with below | unread
  · exact kept.group_ne_zero (dropped timestamp below)
  · have none : rollingResult existsRow frame.range (rows.kept second).batch timestamp = ⊥ := by
      rw [rollingResult_eq_bot_iff]
      intro row covers
      by_cases isRow : row = first ∨ row = second
      · exact dropped row (unread row isRow covers)
      · have zero : rows.batch.group row = 0 := by
          ext ⟨⟩
          change rows.batch.weight row () = 0
          rw [weight]
          split_ifs <;> omega
        rw [TimeSeriesBatch.kept, group_filterKeys, zero, ite_self]
    exact WithBot.coe_ne_bot (result.symm.trans none)

end

theorem RelOffset.displacement_eq_or (offset : RelOffset) :
    offset.displacement = offset.amount ∨ offset.displacement = -offset.amount := by
  cases offset <;> simp [displacement, amount]

/-- If the window does not contain the current row, the waterline changes the
output: of a new row if the window lies before it, of an old one if it lies after. -/
theorem RollingFrame.containsCurrentRow_of_waterlineAgrees {frame : RollingFrame}
    (agrees : frame.WaterlineAgrees) : frame.ContainsCurrentRow := by
  have unsigned := frame.unsigned
  have ordered := frame.ordered
  have zeroContains : frame.type.Contains 0 := ⟨unsigned.le, frame.type.maxValue_nonneg⟩
  have zeroBound : frame.bound 0 = 0 := by
    rw [frame.bound_eq zeroContains]
    omega
  by_contra outside
  rw [ContainsCurrentRow, not_and_or, not_le, not_le] at outside
  rcases outside with after | before
  · -- the second row is at the end of the window of the first one
    have contains : frame.type.Contains frame.range.stop.displacement := by
      have fits := frame.stopFits
      have distance := frame.range.stop.displacement_eq_or
      simp only [PrimInt.Contains] at *
      omega
    have bound := frame.bound_eq contains
    refine not_agrees_of_probe zeroContains contains (by omega) zeroContains zeroBound.le
      (.inr ?_) (.inl rfl) (.inr ?_) (.inl (by omega)) (agrees _ _ _ _ _ _ _ _) <;>
      simp only [RelRange.Covers] <;> omega
  · -- the first row is at the start of the window of the second one
    have contains : frame.type.Contains (-frame.range.start.displacement) := by
      have fits := frame.startFits
      have distance := frame.range.start.displacement_eq_or
      simp only [PrimInt.Contains] at *
      omega
    have bound := frame.bound_eq contains
    refine not_agrees_of_probe zeroContains contains (by omega) contains (by omega)
      (.inl rfl) (.inr rfl) (.inl ?_) (.inr fun row isRow covers => ?_) (agrees _ _ _ _ _ _ _ _)
    · simp only [RelRange.Covers]
      omega
    · simp only [RelRange.Covers] at covers
      omega

/-- A rolling aggregate with a waterline emits what the one without emits if, and
only if, the window contains the current row. -/
theorem RollingFrame.waterlineAgrees_iff (frame : RollingFrame) :
    frame.WaterlineAgrees ↔ frame.ContainsCurrentRow :=
  ⟨containsCurrentRow_of_waterlineAgrees, waterlineAgrees_of_containsCurrentRow⟩

/-- A row at 5 reads the row at 0, but with a waterline of 5 the rows before 3 are
gone. -/
theorem precedingFrame_disagrees :
    ¬ (twoRowSchedule precedingFrame (show precedingFrame.type.Contains 0 by decide)
      (show precedingFrame.type.Contains 5 by decide) (by decide)).Agrees existsRow
        fun _ => ((), ()) := by
  have bound : precedingFrame.bound 5 = 3 := by decide
  refine not_agrees_of_probe _ _ _ (show precedingFrame.type.Contains 5 by decide)
    (by decide) (.inl rfl) (.inr rfl) (.inl (by decide)) (.inr ?_)
  rintro row (rfl | rfl) covers
  · rw [bound]
    decide
  · exact absurd covers (by decide)

end OpenDera.TimeSeries
