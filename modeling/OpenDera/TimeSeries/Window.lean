import Mathlib.Tactic.Abel
import OpenDera.Std.ChunkBuffer
import OpenDera.Std.Run
import OpenDera.Trace.Cursor

/-!
# The window operator

`Window` restricts a stream of keyed batches to the keys inside a moving interval. On every
step it retracts what slid out of the previous interval, inserts what slid into the new one
and passes on the part of the new batch that falls inside, all read by one forward-only
cursor over the trace of earlier batches, which is garbage collected below the lower bound.
The batches emitted so far always add up to the input received so far, restricted to the
current interval.
-/

namespace OpenDera.TimeSeries

open IndexedZSet List Bool ChunkBuffer

variable {K V : Type*} [LinearOrder K] [LinearOrder V]

/-- `true` if `key` lies to the left of an interval that begins at `start`. -/
def beforeStart (key start : K) (inclusive : Bool) : Bool :=
  if inclusive then key < start else key ≤ start

/-- `true` if `key` does not lie to the right of an interval that ends at `stop`. -/
def beforeEnd (key stop : K) (inclusive : Bool) : Bool :=
  if inclusive then key ≤ stop else key < stop

variable (cursor : List (K × ZSet V))

/-- Seek to the first location after the end of the interval. -/
def seekAfterEnd (stop : K) (inclusive : Bool) : List (K × ZSet V) :=
  if inclusive then Cursor.seekKeyWith (fun key => stop < key) cursor
  else Cursor.seekKey stop cursor

/-- Seek to the first location within the interval. -/
def seekStart (start : K) (inclusive : Bool) : List (K × ZSet V) :=
  if inclusive then Cursor.seekKey start cursor
  else Cursor.seekKeyWith (fun key => start < key) cursor

/-- The inner loop over the values of one key: push every value with its weight
changed by `weigh`, cutting a chunk whenever the buffer is full. -/
def copyVals (chunkSize : Nat) (weigh : ℤ → ℤ) (key : K) (values : List (V × ℤ))
    (buffer : ChunkBuffer K V) : ChunkBuffer K V :=
  values.foldl
    (fun buffer value => (buffer.pushVal ((key, value.1), weigh value.2)).yieldFull chunkSize)
    buffer

/-- The four outer loops: copy groups while the cursor's key satisfies
`continues`, and return the cursor where it stopped. -/
def copyWhile (chunkSize : Nat) (weigh : ℤ → ℤ) (continues : K → Bool) :
    List (K × ZSet V) → ChunkBuffer K V → List (K × ZSet V) × ChunkBuffer K V
  | [], buffer => ([], buffer)
  | (key, values) :: cursor, buffer =>
    if continues key then
      copyWhile chunkSize weigh continues cursor
        (copyVals chunkSize weigh key values.entries buffer)
    else
      ((key, values) :: cursor, buffer)

/-- Operator state. `window` is `none` until the first bounds arrive and `delta`
holds the batch received since the last flush. -/
structure Window (K V : Type*) [LinearOrder K] [LinearOrder V] where
  leftInclusive : Bool
  rightInclusive : Bool
  window : Option (K × K) := none
  delta : Option (IndexedZSet K V) := none
  flush : Bool := false

namespace Window

variable (operator : Window K V)

/-- Which ends of the interval belong to it. -/
def inclusive : Bool × Bool :=
  (operator.leftInclusive, operator.rightInclusive)

/-- `Window::new`. -/
def new (inclusive : Bool × Bool) : Window K V :=
  { leftInclusive := inclusive.1, rightInclusive := inclusive.2 }

/-- All inputs of the current step have arrived. -/
def flushed : Window K V :=
  { operator with flush := true }

variable (chunkSize : Nat)

/-- Retract and insert the parts of `trace` that the move from `bounds0` to
`bounds1` takes out of and into the window. -/
def slide (trace : IndexedZSet K V)
    (bounds0 bounds1 : K × K) (buffer : ChunkBuffer K V) : ChunkBuffer K V :=
  let (start0, end0) := bounds0
  let (start1, end1) := bounds1
  -- Region 1: tuples that slid out on the left.
  let cursor := seekStart trace.groups start0 operator.leftInclusive
  let (cursor, buffer) := copyWhile chunkSize (-·)
    (fun key => beforeStart key start1 operator.leftInclusive &&
      beforeEnd key end0 operator.rightInclusive) cursor buffer
  -- The window shrunk: tuples that dropped off the right end.
  let (cursor, buffer) :=
    if end1 < end0 then
      copyWhile chunkSize (-·) (fun key => beforeEnd key end0 operator.rightInclusive)
        (seekAfterEnd cursor end1 operator.rightInclusive) buffer
    else
      (cursor, buffer)
  -- Region 3: tuples that slid in on the right.
  let cursor := seekAfterEnd cursor end0 operator.rightInclusive
  let cursor := seekStart cursor start1 operator.leftInclusive
  (copyWhile chunkSize id (fun key => beforeEnd key end1 operator.rightInclusive) cursor buffer).2

/-- `Window::eval`: the next state and the chunks it yields, or a failed
assertion. Nothing but an empty batch is produced before the flush. -/
def eval (trace : IndexedZSet K V) (delta : Option (IndexedZSet K V)) (bounds : K × K) :
    Option (Window K V × List (IndexedZSet K V × Bool)) := do
  let operator ← match delta with
    | some batch =>
      if operator.delta.isNone then some { operator with delta := some batch } else none
    | none => some operator
  if operator.flush then
    let batch ← operator.delta
    let buffer := match operator.window with
      | some bounds0 => operator.slide chunkSize trace bounds0 bounds {}
      | none => {}
    let cursor := seekStart batch.groups bounds.1 operator.leftInclusive
    let buffer := (copyWhile chunkSize id
      (fun key => beforeEnd key bounds.2 operator.rightInclusive) cursor buffer).2
    return ({ operator with window := some bounds, delta := none, flush := false }, buffer.finish)
  else
    return (operator, [(0, true)])

end Window

/-- The keys inside the interval. -/
def inWindow (inclusive : Bool × Bool) (bounds : K × K) (key : K) : Bool :=
  !beforeStart key bounds.1 inclusive.1 && beforeEnd key bounds.2 inclusive.2

/-- What one step of the circuit around the operator receives: the new batch, the
bounds, the chunk size in force and what garbage collection leaves in the trace
below the lower bound. -/
structure WindowStep (K V : Type*) [LinearOrder K] [LinearOrder V] where
  delta : IndexedZSet K V
  bounds : K × K
  chunkSize : Nat
  residue : IndexedZSet K V

/-- The operator, the delayed trace of its input and the sum of its output. -/
structure WindowCircuit (K V : Type*) [LinearOrder K] [LinearOrder V] where
  operator : Window K V
  trace : IndexedZSet K V := 0
  emitted : IndexedZSet K V := 0

namespace WindowCircuit

/-- Keys from `bound` on are retained; a collector may do anything to smaller ones,
which is what `residue` stands for. -/
def retainKeys (bound : K) (residue trace : IndexedZSet K V) : IndexedZSet K V :=
  trace.filterKeys (fun key => bound ≤ key) + residue.filterKeys fun key => key < bound

/-- `dyn_window`: flush the operator, evaluate it on the delayed trace, then add the
new batch to the trace under the lower bound as retention bound. -/
def step (circuit : WindowCircuit K V) (input : WindowStep K V) : Option (WindowCircuit K V) := do
  let (operator, chunks) ← circuit.operator.flushed.eval input.chunkSize circuit.trace
    (some input.delta) input.bounds
  return {
    operator
    trace := retainKeys input.bounds.1 input.residue (circuit.trace + input.delta)
    emitted := circuit.emitted + sumOf chunks }

variable (inputs : List (WindowStep K V))

/-- The sum of all batches received. -/
def integral : IndexedZSet K V := (inputs.map WindowStep.delta).sum

/-- The lower bound never decreases. -/
def LowerBoundsGrow : Prop :=
  inputs.Pairwise fun earlier later => earlier.bounds.1 ≤ later.bounds.1

end WindowCircuit

/-! ## The operator computes a filter of its input

The seeks and scans of `Window::eval` are read as filters of the batch they run over,
which turns one step into a statement about single keys: the key was inside the old
interval or not and is inside the new one or not. -/

/-- A key is before the start just if it is before an end at the same place that
the interval excludes. -/
theorem beforeStart_eq (key start : K) (inclusive : Bool) :
    beforeStart key start inclusive = beforeEnd key start !inclusive := by
  cases inclusive <;> rfl

theorem seekStart_eq (start : K) (inclusive : Bool) :
    seekStart cursor start inclusive = seekAfterEnd cursor start !inclusive := by
  cases inclusive <;> rfl

theorem beforeEnd_of_lt {first second stop : K} {inclusive : Bool} (below : first < second)
    (before : beforeEnd second stop inclusive) : beforeEnd first stop inclusive := by
  cases inclusive <;> simp only [beforeEnd, false_eq_true, if_false, if_true,
    decide_eq_true_iff] at before ⊢
  · exact below.trans before
  · exact below.le.trans before

theorem beforeEnd_mono {key stop later : K} {inclusive : Bool} (order : stop ≤ later)
    (before : beforeEnd key stop inclusive) : beforeEnd key later inclusive := by
  cases inclusive <;> simp only [beforeEnd, false_eq_true, if_false, if_true,
    decide_eq_true_iff] at before ⊢
  · exact lt_of_lt_of_le before order
  · exact before.trans order

theorem seekAfterEnd_eq_filter {cursor : List (K × ZSet V)}
    (sorted : SortedMap.Sorted cursor) (stop : K) (inclusive : Bool) :
    seekAfterEnd cursor stop inclusive =
      cursor.filter fun entry => !beforeEnd entry.1 stop inclusive := by
  cases inclusive
  · simp only [seekAfterEnd, beforeEnd, false_eq_true, if_false]
    rw [Cursor.seekKey_eq_filter sorted]
    simp only [← decide_not, not_lt]
  · simp only [seekAfterEnd, beforeEnd, if_true]
    rw [Cursor.seekKeyWith_eq_filter sorted fun first second below found => by
      simp only [decide_eq_true_iff] at found ⊢; exact found.trans below]
    simp only [← decide_not, not_le]

variable (chunkSize : Nat)

section

variable (buffer : ChunkBuffer K V) (weigh : ℤ → ℤ)

/-- The inner loop adds the group with its weights changed by `weigh`. -/
theorem total_copyVals (key : K) (values : List (V × ℤ)) :
    (copyVals chunkSize weigh key values buffer).total = buffer.total +
      ofTuples (values.map fun value => ((key, value.1), weigh value.2)) := by
  have pushed : ∀ (buffer : ChunkBuffer K V) tuple,
      ((buffer.pushVal tuple).yieldFull chunkSize).total =
        buffer.total + ofTuples [tuple] := by simp
  rw [← total_foldl pushed, foldl_map]
  rfl

variable (continues : K → Bool) (cursor : List (K × ZSet V))

theorem copyWhile_fst :
    (copyWhile chunkSize weigh continues cursor buffer).1 =
      cursor.dropWhile fun entry => continues entry.1 := by
  induction cursor generalizing buffer with
  | nil => rfl
  | cons entry _ ih =>
    obtain ⟨key, values⟩ := entry
    by_cases continued : continues key <;>
      simp [copyWhile, continued, ih]

theorem total_copyWhile :
    (copyWhile chunkSize weigh continues cursor buffer).2.total = buffer.total +
      ofTuples ((cursor.takeWhile fun entry => continues entry.1).flatMap fun entry =>
        entry.2.entries.map fun value => ((entry.1, value.1), weigh value.2)) := by
  induction cursor generalizing buffer with
  | nil => simp [copyWhile, ofTuples]
  | cons entry _ ih =>
    obtain ⟨key, values⟩ := entry
    by_cases continued : continues key
    · rw [copyWhile, if_pos continued, ih, total_copyVals,
        takeWhile_cons_of_pos (by simpa using continued), flatMap_cons,
        ofTuples_append, add_assoc]
    · simp [copyWhile, continued, ofTuples]

end

section

variable (batch : IndexedZSet K V) (remaining : K → Bool)
  (buffer : ChunkBuffer K V) {continues : K → Bool}

theorem seekAfterEnd_filter (stop : K) (inclusive : Bool) :
    seekAfterEnd (batch.filterKeys remaining).groups stop inclusive =
      (batch.filterKeys fun key => remaining key && !beforeEnd key stop inclusive).groups := by
  rw [seekAfterEnd_eq_filter (batch.filterKeys remaining).sorted]
  simp only [filterKeys, filter_filter, Bool.and_comm]

theorem seekStart_filter (start : K) (inclusive : Bool) :
    seekStart (batch.filterKeys remaining).groups start inclusive =
      (batch.filterKeys fun key => remaining key && !beforeStart key start inclusive).groups := by
  simp only [seekStart_eq, beforeStart_eq, seekAfterEnd_filter]

variable (weigh : ℤ → ℤ)
  (closed : ∀ first second, first < second → continues second → continues first)

include closed

/-- A scan that stops at the first key past an end leaves the keys past that end. -/
theorem copyWhile_fst_filter :
    (copyWhile chunkSize weigh continues (batch.filterKeys remaining).groups buffer).1 =
      (batch.filterKeys fun key => remaining key && !continues key).groups := by
  rw [copyWhile_fst, SortedMap.dropWhile_eq_filter (batch.filterKeys remaining).sorted
    fun first second => closed first.1 second.1]
  simp only [filterKeys, filter_filter]
  exact filter_congr fun entry _ => and_comm _ _

private theorem total_copyWhile_filter :
    (copyWhile chunkSize weigh continues (batch.filterKeys remaining).groups buffer).2.total =
      buffer.total + ofTuples
        ((batch.filterKeys fun key => remaining key && continues key).tuples.map
          fun tuple => (tuple.1, weigh tuple.2)) := by
  rw [total_copyWhile, SortedMap.takeWhile_eq_filter (batch.filterKeys remaining).sorted
    fun first second => closed first.1 second.1]
  simp only [filterKeys, tuples, filter_filter, map_flatMap,
    map_map, Function.comp_def, Bool.and_comm]

/-- A retracting scan subtracts the keys it passes. -/
theorem total_retract :
    (copyWhile chunkSize (-·) continues (batch.filterKeys remaining).groups buffer).2.total =
      buffer.total - batch.filterKeys fun key => remaining key && continues key := by
  rw [total_copyWhile_filter chunkSize batch remaining buffer _ closed,
    ofTuples_map_neg, sub_eq_add_neg]

/-- An inserting scan adds the keys it passes. -/
theorem total_insert :
    (copyWhile chunkSize id continues (batch.filterKeys remaining).groups buffer).2.total =
      buffer.total + batch.filterKeys fun key => remaining key && continues key := by
  rw [total_copyWhile_filter chunkSize batch remaining buffer _ closed]
  simp

end

namespace Window

variable (operator : Window K V) (chunkSize : Nat)

/-- Moving the window adds the trace inside the new bounds and removes the trace
inside the old ones. -/
theorem total_slide (trace : IndexedZSet K V) (buffer : ChunkBuffer K V)
    {bounds0 bounds1 : K × K} (order : bounds0.1 ≤ bounds1.1) :
    (operator.slide chunkSize trace bounds0 bounds1 buffer).total =
      buffer.total - trace.filterKeys (inWindow operator.inclusive bounds0) +
        trace.filterKeys (inWindow operator.inclusive bounds1) := by
  obtain ⟨start0, end0⟩ := bounds0
  obtain ⟨start1, end1⟩ := bounds1
  have closedEnd : ∀ stop first second : K, first < second →
      beforeEnd second stop operator.rightInclusive →
      beforeEnd first stop operator.rightInclusive := fun _ _ _ => beforeEnd_of_lt
  have closedRegion : ∀ first second : K, first < second →
      (beforeStart second start1 operator.leftInclusive &&
        beforeEnd second end0 operator.rightInclusive) →
      (beforeStart first start1 operator.leftInclusive &&
        beforeEnd first end0 operator.rightInclusive) := by
    intro first second below
    rw [and_eq_true, and_eq_true, beforeStart_eq, beforeStart_eq]
    exact And.imp (beforeEnd_of_lt below) (beforeEnd_of_lt below)
  have wholeTrace : trace.groups = (trace.filterKeys fun _ => true).groups := by
    simp [filterKeys]
  unfold slide
  rw [wholeTrace]
  -- Which scans a key takes part in depends only on its side of the four bounds.
  have sides : ∀ key, beforeStart key start0 operator.leftInclusive →
      beforeStart key start1 operator.leftInclusive := by
    simp only [beforeStart_eq]
    exact fun key => beforeEnd_mono order
  by_cases shrunk : end1 < end0
  · simp only [shrunk, if_true]
    rw [seekStart_filter, copyWhile_fst_filter _ _ _ _ _ closedRegion, seekAfterEnd_filter,
      copyWhile_fst_filter _ _ _ _ _ (closedEnd end0), seekAfterEnd_filter, seekStart_filter,
      total_insert _ _ _ _ (closedEnd end1), total_retract _ _ _ _ (closedEnd end0),
      total_retract _ _ _ _ closedRegion]
    ext key value
    have sides := sides key
    have ends : beforeEnd key end1 operator.rightInclusive →
        beforeEnd key end0 operator.rightInclusive := beforeEnd_mono shrunk.le
    simp only [weight_add, weight_sub, weight_filterKeys, inWindow, inclusive]
    grind
  · simp only [shrunk, if_false]
    rw [seekStart_filter, copyWhile_fst_filter _ _ _ _ _ closedRegion, seekAfterEnd_filter,
      seekStart_filter, total_insert _ _ _ _ (closedEnd end1), total_retract _ _ _ _ closedRegion]
    ext key value
    have sides := sides key
    have ends : beforeEnd key end0 operator.rightInclusive →
        beforeEnd key end1 operator.rightInclusive := beforeEnd_mono (not_lt.mp shrunk)
    simp only [weight_add, weight_sub, weight_filterKeys, inWindow, inclusive]
    grind

/-- Before the flush an evaluation without a new batch emits nothing and changes nothing. -/
theorem eval_before_flush (waiting : operator.flush = false) (trace : IndexedZSet K V)
    (bounds : K × K) :
    operator.eval chunkSize trace none bounds = some (operator, [(0, true)]) := by
  simp [eval, waiting]

/-- The evaluation after a flush never fails; its chunks add up to the part of the
new batch inside the new bounds and the move of the window over the trace. -/
theorem eval_flushed (idle : operator.delta = none) (trace delta : IndexedZSet K V)
    (bounds : K × K) (order : ∀ bounds0 ∈ operator.window, bounds0.1 ≤ bounds.1) :
    ∃ chunks, operator.flushed.eval chunkSize trace (some delta) bounds =
        some ({ operator with window := some bounds, flush := false }, chunks) ∧
      sumOf chunks = delta.filterKeys (inWindow operator.inclusive bounds) +
        match operator.window with
        | some bounds0 => trace.filterKeys (inWindow operator.inclusive bounds) -
            trace.filterKeys (inWindow operator.inclusive bounds0)
        | none => 0 := by
  have wholeDelta : delta.groups = (delta.filterKeys fun _ => true).groups := by
    simp [filterKeys]
  have insertDelta : ∀ buffer : ChunkBuffer K V,
      (copyWhile chunkSize id (fun key => beforeEnd key bounds.2 operator.rightInclusive)
        (seekStart delta.groups bounds.1 operator.leftInclusive) buffer).2.total =
      buffer.total + delta.filterKeys (inWindow operator.inclusive bounds) := by
    intro buffer
    rw [wholeDelta, seekStart_filter, total_insert _ _ _ _ fun _ _ => beforeEnd_of_lt]
    simp only [Bool.true_and]
    rfl
  refine ⟨_, by simp [eval, flushed, idle]; rfl, ?_⟩
  rw [sumOf_finish, insertDelta]
  cases before : operator.window with
  | none => simp
  | some bounds0 =>
    have slid : ∀ window, (slide { operator with window, delta := some delta, flush := true }
        chunkSize trace bounds0 bounds {}).total =
        (0 : IndexedZSet K V) - trace.filterKeys (inWindow operator.inclusive bounds0) +
          trace.filterKeys (inWindow operator.inclusive bounds) :=
      fun window => total_slide { operator with window, delta := some delta, flush := true }
        chunkSize trace {} (order bounds0 before)
    simp only [slid]
    abel

end Window

namespace WindowCircuit

/-- After some inputs: the operator is idle and remembers the last bounds, the trace
agrees with the input from the last lower bound on, and the output is the input
inside the last bounds. -/
structure Invariant (inclusive : Bool × Bool) (inputs : List (WindowStep K V))
    (circuit : WindowCircuit K V) : Prop where
  ends : circuit.operator.inclusive = inclusive
  idle : circuit.operator.delta = none
  window : circuit.operator.window = inputs.getLast?.map WindowStep.bounds
  trace : ∀ key, (∀ input ∈ inputs.getLast?, input.bounds.1 ≤ key) →
    circuit.trace.group key = (integral inputs).group key
  emitted : circuit.emitted = match inputs.getLast? with
    | some input => (integral inputs).filterKeys (inWindow inclusive input.bounds)
    | none => 0

variable {inclusive : Bool × Bool}

/-- A key inside a window is not below its lower bound. -/
theorem le_of_inWindow {bounds : K × K} {key : K}
    (inside : inWindow inclusive bounds key) : bounds.1 ≤ key := by
  rw [inWindow, and_eq_true] at inside
  have after := inside.1
  unfold beforeStart at after
  split_ifs at after
  · simpa using after
  · exact le_of_lt (by simpa using after)

theorem group_retainKeys {bound key : K} (residue trace : IndexedZSet K V)
    (retained : bound ≤ key) : (retainKeys bound residue trace).group key = trace.group key := by
  simp [retainKeys, retained, not_lt.mpr retained]

theorem integral_append_singleton (inputs : List (WindowStep K V)) (input : WindowStep K V) :
    integral (inputs ++ [input]) = integral inputs + input.delta := by
  simp [integral]

/-- One step keeps the invariant. -/
theorem step_invariant {inputs : List (WindowStep K V)}
    {input : WindowStep K V} {circuit : WindowCircuit K V}
    (grow : LowerBoundsGrow (inputs ++ [input])) (invariant : Invariant inclusive inputs circuit) :
    ∃ next, step circuit input = some next ∧ Invariant inclusive (inputs ++ [input]) next := by
  have order : ∀ last ∈ inputs.getLast?, last.bounds.1 ≤ input.bounds.1 := fun last member =>
    (pairwise_append.mp grow).2.2 last (mem_of_getLast? member) input (by simp)
  obtain ⟨chunks, evaluated, sum⟩ := Window.eval_flushed circuit.operator input.chunkSize
    invariant.idle circuit.trace input.delta input.bounds (by
      intro bounds0 member
      rw [invariant.window] at member
      obtain ⟨last, isLast, rfl⟩ := Option.map_eq_some_iff.mp member
      exact order last isLast)
  refine ⟨_, by simp [step, evaluated]; rfl, ?_⟩
  refine ⟨invariant.ends, invariant.idle, by simp, ?_, ?_⟩
  · intro key above
    have above : input.bounds.1 ≤ key := above input (by simp)
    rw [group_retainKeys _ _ above, integral_append_singleton, group_add,
      group_add, invariant.trace key fun last member => (order last member).trans above]
  · simp only [getLast?_append, getLast?_singleton, Option.some_or]
    rw [integral_append_singleton, filterKeys_add, sum, invariant.emitted,
      invariant.window, invariant.ends]
    cases isLast : inputs.getLast? with
    | none =>
      rw [getLast?_eq_none_iff] at isLast
      simp [isLast, integral]
    | some last =>
      -- Both windows lie above the previous lower bound, where the trace is the input.
      have traceInside : ∀ bounds : K × K, last.bounds.1 ≤ bounds.1 →
          circuit.trace.filterKeys (inWindow inclusive bounds) =
            (integral inputs).filterKeys (inWindow inclusive bounds) := by
        intro bounds above
        refine filterKeys_congr fun key inside => invariant.trace key ?_
        intro other member
        rw [isLast, Option.mem_some_iff] at member
        exact member ▸ above.trans (le_of_inWindow inside)
      simp only [Option.map_some]
      rw [traceInside input.bounds (order last isLast), traceInside last.bounds le_rfl]
      abel

/-- Incremental windowing equals filtering: after any inputs whose lower bounds grow,
the batches emitted so far add up to the input restricted to the last bounds,
whatever the chunk sizes and whatever the collector did below the lower bounds. -/
theorem emitted_eq_filter_integral (inclusive : Bool × Bool) (inputs : List (WindowStep K V))
    (last : WindowStep K V) (grow : LowerBoundsGrow (inputs ++ [last])) :
    ∃ circuit, Run.run step { operator := Window.new inclusive } (inputs ++ [last]) =
        some circuit ∧
      circuit.emitted = (integral (inputs ++ [last])).filterKeys
        (inWindow inclusive last.bounds) := by
  have initially : Invariant inclusive [] { operator := (Window.new inclusive : Window K V) } :=
    ⟨rfl, rfl, rfl, fun _ _ => rfl, rfl⟩
  obtain ⟨circuit, reached, invariant⟩ := Run.invariant LowerBoundsGrow (Invariant inclusive)
    (fun inputs input grow => (pairwise_append.mp grow).1) initially
    (fun inputs input circuit => step_invariant) (inputs ++ [last]) grow
  exact ⟨circuit, reached, by simpa using invariant.emitted⟩

/-- Two steps whose window moves from `[0, 3)` to `[2, 6)`: the key 1 slides out, the
key 4 slides in and chunks hold one tuple each. -/
theorem emitted_two_steps : let first : WindowStep ℕ ℕ :=
      ⟨ofTuples [((1, 7), 1), ((2, 8), 1), ((4, 9), 2)], (0, 3), 1, 0⟩
    let second : WindowStep ℕ ℕ := ⟨ofTuples [((2, 8), 1)], (2, 6), 1, 0⟩
    LowerBoundsGrow [first, second] ∧
      ∃ circuit, Run.run step { operator := Window.new (true, false) } [first, second] =
          some circuit ∧
        circuit.emitted = (integral [first, second]).filterKeys (inWindow (true, false) (2, 6)) := by
  intro first second
  have grow : LowerBoundsGrow ([first] ++ [second]) := by
    simp [LowerBoundsGrow, first, second]
  exact ⟨grow, emitted_eq_filter_integral (true, false) [first] second grow⟩

end WindowCircuit

end OpenDera.TimeSeries
