import OpenDera.TimeSeries.Window

/-!
# Windows over transactions

Every step of a transaction supplies bounds and stores the lower one as the bound of the
trace, so at the end of the step the integral gets a filter that lets the background merger
discard the keys below it. The window operator runs only in the step in which it is flushed,
and retracts what slid out since it last ran from the integral as it is at the beginning of
that step. Rows that slid out while the transaction was under way may be gone by then, and
are never retracted.
-/

namespace OpenDera.TimeSeries

open IndexedZSet List Option Bool Prod

variable {K V : Type*} [LinearOrder K] [LinearOrder V]

/-- One step of the circuit: the new batch, the bounds, the chunk size in force
and whether the step flushes the operator. -/
structure WindowTick (K V : Type*) [LinearOrder K] [LinearOrder V] where
  delta : IndexedZSet K V
  bounds : K × K
  chunkSize : Nat
  flush : Bool

/-- What the merger may discard before a step: some keys of every batch of the
integral, as far as the filter rejects them. -/
abbrev Discard (K : Type*) := ℕ → K → Bool

/-- The operator, the integral of its input as a list of batches, the filter
installed on it, the batches accumulated since the last flush and the sum of the
output. -/
structure TransactionCircuit (K V : Type*) [LinearOrder K]
    [LinearOrder V] where
  operator : Window K V
  spine : List (IndexedZSet K V) := []
  filter : Option K := none
  accumulated : IndexedZSet K V := 0
  emitted : IndexedZSet K V := 0

namespace TransactionCircuit

/-- `effective_key_filter`: a key is rejected if it is below the bound. -/
def rejects (filter : Option K) (key : K) : Bool :=
  filter.any fun bound => decide (key < bound)

/-- The merger discards nothing. -/
def undisturbed : Discard K := fun _ _ => false

/-- The integral after the merger has discarded keys. -/
def collect (filter : Option K) : List (IndexedZSet K V) → Discard K → List (IndexedZSet K V)
  | [], _ => []
  | batch :: spine, discard =>
    batch.filterKeys (fun key => !(rejects filter key && discard 0 key)) ::
      collect filter spine fun index => discard (index + 1)

/-- One step of the circuit of `dyn_window`: the merger may run, the snapshot of
the delayed integral is taken and the operator evaluated; in a flushing step the
accumulated batches are its input and are added to the integral. At the end the
filter for the lower bound of this step is installed. -/
def step (circuit : TransactionCircuit K V) (input : WindowTick K V × Discard K) :
    Option (TransactionCircuit K V) := do
  let (tick, discard) := input
  let spine := collect circuit.filter circuit.spine discard
  let accumulated := circuit.accumulated + tick.delta
  let (operator, chunks) ←
    if tick.flush then
      circuit.operator.flushed.eval tick.chunkSize spine.sum (some accumulated) tick.bounds
    else circuit.operator.eval tick.chunkSize spine.sum none tick.bounds
  return {
    operator
    spine := if tick.flush then spine ++ [accumulated] else spine
    filter := some tick.bounds.1
    accumulated := if tick.flush then 0 else accumulated
    emitted := circuit.emitted + ChunkBuffer.sumOf chunks }

/-- The circuit before the first step. -/
def initial (inclusive : Bool × Bool) : TransactionCircuit K V where
  operator := Window.new inclusive

end TransactionCircuit

variable (ticks : List (WindowTick K V))

/-- The lower bounds never decrease. -/
def LowerBoundsNeverDecrease : Prop :=
  ticks.Pairwise fun earlier later => earlier.bounds.1 ≤ later.bounds.1

/-- Steps whose lower bounds never decrease. -/
structure WindowSchedule (K V : Type*) [LinearOrder K] [LinearOrder V] where
  ticks : List (WindowTick K V)
  grow : LowerBoundsNeverDecrease ticks

/-- The sum of all batches received. -/
def received : IndexedZSet K V := (ticks.map WindowTick.delta).sum

variable (inclusive : Bool × Bool) (schedule : WindowSchedule K V)

/-- Whatever the merger discards, after every flush the batches emitted so far add
up to the complete input restricted to the bounds of the flush. -/
def WindowSchedule.EmitsWindow : Prop :=
  ∀ inputs : List (WindowTick K V × Discard K), inputs.map fst = schedule.ticks →
    ∀ earlier last later, inputs = earlier ++ last :: later → last.1.flush = true →
      ∃ circuit, Run.run TransactionCircuit.step (.initial inclusive) (earlier ++ [last]) =
          some circuit ∧
        circuit.emitted = (received ((earlier ++ [last]).map fst)).filterKeys
          (inWindow inclusive last.1.bounds)

/-! ### The schedule without the merger -/

theorem lower_le_last {ticks : List (WindowTick K V)} {last : WindowTick K V}
    (grow : LowerBoundsNeverDecrease (ticks ++ [last])) :
    ∀ tick ∈ ticks, tick.bounds.1 ≤ last.bounds.1 :=
  fun tick member => (pairwise_append.mp grow).2.2 tick member last (mem_singleton_self _)

/-- Where a schedule stands: the bounds of the last flush, the lower bound of the
last step, the batches received by the last flush, one for every flush, and what
was received since. -/
structure Progress (K V : Type*) [LinearOrder K] [LinearOrder V] where
  window : Option (K × K) := none
  filter : Option K := none
  batches : List (IndexedZSet K V) := []
  pending : IndexedZSet K V := 0

namespace Progress

/-- One step of the schedule. -/
def advance (progress : Progress K V) (tick : WindowTick K V) : Progress K V where
  window := if tick.flush then some tick.bounds else progress.window
  filter := some tick.bounds.1
  batches := if tick.flush then progress.batches ++ [progress.pending + tick.delta]
    else progress.batches
  pending := if tick.flush then 0 else progress.pending + tick.delta

variable (ticks : List (WindowTick K V))

/-- Where a schedule stands after some steps. -/
def after : Progress K V :=
  ticks.foldl advance {}

/-- The next step may flush: no batch has a key that was in the window of the last
flush and is below the filter installed since. -/
def RowsRemain (inclusive : Bool × Bool) (progress : Progress K V) : Prop :=
  ∀ bounds ∈ progress.window, ∀ bound ∈ progress.filter, ∀ key,
    inWindow inclusive bounds key = true → key < bound →
      ∀ batch ∈ progress.batches, batch.group key = 0

theorem after_append_singleton
    (tick : WindowTick K V) : after (ticks ++ [tick]) = (after ticks).advance tick := by
  simp [after]

/-- Nothing is lost between flushes. -/
theorem sum_after : (after ticks).batches.sum + (after ticks).pending = received ticks := by
  induction ticks using reverseRecOn with
  | nil => rfl
  | append_singleton _ tick ih =>
    rw [after_append_singleton, advance]
    cases tick.flush <;>
      simp [received, ← add_assoc, ih]

/-- Bounds that are not below those of any earlier step are not below the window
and the filter. -/
theorem after_le {ticks : List (WindowTick K V)} {lower : K}
    (order : ∀ tick ∈ ticks, tick.bounds.1 ≤ lower) :
    (∀ bounds ∈ (after ticks).window, bounds.1 ≤ lower) ∧
      ∀ bound ∈ (after ticks).filter, bound ≤ lower := by
  induction ticks using reverseRecOn with
  | nil => simp [after]
  | append_singleton _ tick ih =>
    have last := order tick (by simp)
    have earlier := ih fun other member => order other (by simp [member])
    rw [after_append_singleton, advance]
    cases tick.flush with
    | false => exact ⟨earlier.1, by simpa using last⟩
    | true => exact ⟨by simpa using last, by simpa using last⟩

end Progress

/-- Between one flush and the next the lower bound does not move past a key that
was received and was in the window at the first; the step of the second flush may
move it. -/
def WindowSchedule.RowsRemain : Prop :=
  ∀ earlier tick later, schedule.ticks = earlier ++ tick :: later → tick.flush = true →
    (Progress.after earlier).RowsRemain inclusive

/-! ### One step -/

namespace TransactionCircuit

/-- A batch of the integral has every group of the batch that was inserted, apart
from groups that the filter rejects. -/
def Trimmed (filter : Option K) (batch original : IndexedZSet K V) : Prop :=
  ∀ key, batch.group key = original.group key ∨ rejects filter key = true ∧ batch.group key = 0

variable {filter : Option K} {spine originals : List (IndexedZSet K V)}

section

variable (trimmed : List.Forall₂ (Trimmed filter) spine originals)

include trimmed

/-- Discarding keys trims the batches further. -/
theorem trimmed_collect (discard : Discard K) :
    List.Forall₂ (Trimmed filter) (collect filter spine discard) originals := by
  induction trimmed generalizing discard with
  | nil => exact .nil
  | cons first _ ih =>
    refine .cons (fun key => ?_) (ih _)
    rw [group_filterKeys]
    split
    case isTrue => exact first key
    case isFalse dropped =>
      right
      simp only [not_eq_true', not_eq_false, and_eq_true] at dropped
      exact ⟨dropped.1, rfl⟩

/-- What is trimmed agrees with what was inserted at every key that the filter
accepts, and at every key that no batch has. -/
theorem group_sum_of_trimmed {key : K}
    (safe : rejects filter key = true → ∀ batch ∈ originals, batch.group key = 0) :
    spine.sum.group key = originals.sum.group key := by
  induction trimmed with
  | nil => rfl
  | @cons batch original _ _ first _ ih =>
    have same : batch.group key = original.group key := by
      rcases first key with same | ⟨rejected, empty⟩
      · exact same
      · rw [empty, safe rejected original mem_cons_self]
    rw [sum_cons, sum_cons, group_add, group_add, same,
      ih fun rejected other member =>
        safe rejected other (mem_cons_of_mem _ member)]

end

theorem collect_none (filter : Option K) (spine : List (IndexedZSet K V)) :
    collect filter spine undisturbed = spine := by
  induction spine with
  | nil => rfl
  | cons _ spine ih =>
    have rest : collect filter spine (fun index => undisturbed (index + 1)) = spine :=
      ih
    rw [collect, rest]
    congr 1
    refine ext_group fun key => ?_
    simp [undisturbed]

/-- The merger may discard one key of one batch. -/
theorem group_collect_single {key : K} (rejected : rejects filter key = true)
    (before : List (IndexedZSet K V)) (batch : IndexedZSet K V) (behind : List (IndexedZSet K V)) :
    (collect filter (before ++ batch :: behind) fun index _ => index == before.length).sum.group key +
      batch.group key = (before ++ batch :: behind).sum.group key := by
  induction before with
  | nil =>
    have rest : collect filter behind (fun _ _ => false) = behind := collect_none filter behind
    simp [collect, rejected, rest, add_comm]
  | cons _ _ ih =>
    simp [collect, add_assoc, ih]

variable (inclusive : Bool × Bool) (progress : Progress K V) (circuit : TransactionCircuit K V)

/-- The circuit is where the schedule stands, with an integral that has been
trimmed. -/
structure Follows : Prop where
  ends : circuit.operator.inclusive = inclusive
  idle : circuit.operator.delta = none
  waiting : circuit.operator.flush = false
  window : circuit.operator.window = progress.window
  filter : circuit.filter = progress.filter
  accumulated : circuit.accumulated = progress.pending
  spine : List.Forall₂ (Trimmed progress.filter) circuit.spine progress.batches
  untouched : progress.window = none → progress.batches = []

/-- The batches emitted so far are the window over what had been received at the
last flush. -/
def Exact : Prop :=
  circuit.emitted = progress.window.elim 0 fun bounds =>
    progress.batches.sum.filterKeys (inWindow inclusive bounds)

/-- The merger leaves the rows of the window of the last flush alone. -/
def Spares (spine : List (IndexedZSet K V)) : Prop :=
  ∀ bounds ∈ progress.window, spine.sum.filterKeys (inWindow inclusive bounds) =
    progress.batches.sum.filterKeys (inWindow inclusive bounds)

variable {inclusive} {progress} {circuit} {tick : WindowTick K V}

theorem follows_initial : Follows inclusive ({} : Progress K V) (.initial inclusive) :=
  ⟨rfl, rfl, rfl, rfl, rfl, rfl, .nil, fun _ => rfl⟩

/-- The filter accepts every key inside bounds that are not below it. -/
theorem accepts_of_inWindow {bounds : K × K} (order : ∀ bound ∈ filter, bound ≤ bounds.1)
    {key : K} (inside : inWindow inclusive bounds key = true) : rejects filter key = false := by
  cases filter with
  | none => rfl
  | some bound =>
    have above := (order bound rfl).trans (WindowCircuit.le_of_inWindow inside)
    simpa [rejects] using above

/-- A filter for a higher bound allows more to be trimmed. -/
theorem Trimmed.mono {lower : K} {batch original : IndexedZSet K V}
    (trimmed : Trimmed filter batch original) (order : ∀ bound ∈ filter, bound ≤ lower) :
    Trimmed (some lower) batch original := by
  intro key
  refine (trimmed key).imp_right fun ⟨rejected, empty⟩ => ⟨?_, empty⟩
  cases filter with
  | none => exact absurd rejected false_ne_true
  | some bound =>
    have below : key < bound := by simpa [rejects] using rejected
    simpa [rejects] using below.trans_le (order bound rfl)

variable (follows : Follows inclusive progress circuit)
  (windowOrder : ∀ bounds0 ∈ progress.window, bounds0.1 ≤ tick.bounds.1)
  (filterOrder : ∀ bound ∈ progress.filter, bound ≤ tick.bounds.1)

include follows filterOrder

/-- A step that does not flush emits nothing. -/
theorem step_wait (wait : tick.flush = false) (discard : Discard K) :
    ∃ next, step circuit (tick, discard) = some next ∧
      Follows inclusive (progress.advance tick) next ∧
      next.spine = collect progress.filter circuit.spine discard ∧
      next.emitted = circuit.emitted := by
  have evaluated := Window.eval_before_flush circuit.operator tick.chunkSize follows.waiting
    (collect circuit.filter circuit.spine discard).sum tick.bounds
  refine ⟨_, by simp [step, wait, evaluated]; rfl, ?_, ?_, ?_⟩
  · constructor
    case ends => exact follows.ends
    case idle => exact follows.idle
    case waiting => exact follows.waiting
    case window => simpa [Progress.advance, wait] using follows.window
    case filter => rfl
    case accumulated => simp [Progress.advance, wait, follows.accumulated]
    case spine =>
      simp only [Progress.advance, wait, false_eq_true, if_false, follows.filter]
      exact (trimmed_collect follows.spine discard).imp fun _ _ kept => kept.mono filterOrder
    case untouched => simpa [Progress.advance, wait] using follows.untouched
  · rw [follows.filter]
  · simp [ChunkBuffer.sumOf]

include windowOrder

/-- A flushing step emits what has been accumulated inside the new bounds and
moves the window over what the merger has left of the integral. -/
theorem step_flush (flush : tick.flush = true) (discard : Discard K) :
    ∃ next, step circuit (tick, discard) = some next ∧
      Follows inclusive (progress.advance tick) next ∧
      next.spine = collect progress.filter circuit.spine discard ++
        [progress.pending + tick.delta] ∧
      next.emitted = circuit.emitted +
        ((progress.pending + tick.delta).filterKeys (inWindow inclusive tick.bounds) +
          progress.window.elim 0 fun bounds0 =>
            progress.batches.sum.filterKeys (inWindow inclusive tick.bounds) -
              (collect progress.filter circuit.spine discard).sum.filterKeys
                (inWindow inclusive bounds0)) := by
  obtain ⟨chunks, evaluated, sum⟩ := Window.eval_flushed circuit.operator tick.chunkSize
    follows.idle (collect circuit.filter circuit.spine discard).sum
    (circuit.accumulated + tick.delta) tick.bounds (by rwa [follows.window])
  have trimmed := trimmed_collect follows.spine discard
  rw [follows.window, follows.ends, follows.filter, follows.accumulated] at sum
  refine ⟨_, by simp [step, flush, evaluated]; rfl, ?_, ?_, ?_⟩
  · constructor
    case ends => exact follows.ends
    case idle => exact follows.idle
    case waiting => rfl
    case window => simp [Progress.advance, flush]
    case filter => rfl
    case accumulated => simp [Progress.advance, flush]
    case spine =>
      simp only [Progress.advance, flush, if_true, follows.filter, follows.accumulated]
      refine rel_append (trimmed.imp fun _ _ kept => kept.mono filterOrder) (.cons ?_ .nil)
      exact fun key => .inl rfl
    case untouched => simp [Progress.advance, flush]
  · rw [follows.filter, follows.accumulated]
  · -- inside the new bounds nothing has been discarded
    have kept : (collect progress.filter circuit.spine discard).sum.filterKeys
        (inWindow inclusive tick.bounds) =
          progress.batches.sum.filterKeys (inWindow inclusive tick.bounds) := by
      refine filterKeys_congr fun key inside => ?_
      refine group_sum_of_trimmed trimmed fun rejected => ?_
      simp [accepts_of_inWindow filterOrder inside] at rejected
    change circuit.emitted + ChunkBuffer.sumOf chunks = _
    rw [sum]
    cases progress.window with
    | none => rfl
    | some => simp only [kept, elim_some]

omit windowOrder filterOrder in
/-- A flush keeps the output exact if the merger has spared the rows of the last
window, and only then. -/
theorem exact_flush_iff {next : TransactionCircuit K V}
    (exactBefore : Exact inclusive progress circuit) (flush : tick.flush = true)
    (emits : next.emitted = circuit.emitted +
        ((progress.pending + tick.delta).filterKeys (inWindow inclusive tick.bounds) +
          progress.window.elim 0 fun bounds0 =>
            progress.batches.sum.filterKeys (inWindow inclusive tick.bounds) -
              spine.sum.filterKeys (inWindow inclusive bounds0))) :
    Exact inclusive (progress.advance tick) next ↔ Spares inclusive progress spine := by
  rw [Exact, emits, exactBefore, Spares]
  simp only [Progress.advance, flush, if_true, elim_some, sum_append, sum_singleton]
  rw [filterKeys_add progress.batches.sum]
  cases window : progress.window with
  | none => simp [follows.untouched window]
  | some =>
    simp only [elim_some, mem_def, some.injEq, forall_eq']
    rw [← add_assoc, add_sub_assoc', sub_eq_iff_eq_add, add_right_comm, add_assoc, add_comm,
      add_right_inj, eq_comm]

/-- A step keeps the output exact, provided a flush finds the rows of the last
window spared. -/
theorem exact_step (exactBefore : Exact inclusive progress circuit) (discard : Discard K)
    (spares : tick.flush = true →
      Spares inclusive progress (collect progress.filter circuit.spine discard)) :
    ∃ next, step circuit (tick, discard) = some next ∧
      Follows inclusive (progress.advance tick) next ∧
      Exact inclusive (progress.advance tick) next ∧
      next.spine = collect progress.filter circuit.spine discard ++
        if tick.flush then [progress.pending + tick.delta] else [] := by
  cases flush : tick.flush with
  | true =>
    obtain ⟨next, stepped, followsNext, spine, emits⟩ :=
      step_flush follows windowOrder filterOrder flush discard
    exact ⟨next, stepped, followsNext,
      (exact_flush_iff follows exactBefore flush emits).mpr (spares flush), spine⟩
  | false =>
    obtain ⟨next, stepped, followsNext, spine, emits⟩ :=
      step_wait follows filterOrder flush discard
    refine ⟨next, stepped, followsNext, ?_, by simpa using spine⟩
    rw [Exact, emits, exactBefore]
    simp [Progress.advance, flush]

/-! ### Whole runs -/

omit windowOrder filterOrder

/-- Rows that remain are spared. -/
theorem spares_of_rowsRemain (remain : progress.RowsRemain inclusive) (discard : Discard K) :
    Spares inclusive progress (collect progress.filter circuit.spine discard) := by
  intro bounds window
  refine filterKeys_congr fun key inside => ?_
  refine group_sum_of_trimmed (trimmed_collect follows.spine discard) fun rejected => ?_
  obtain ⟨bound, found, below⟩ : ∃ bound, progress.filter = some bound ∧ key < bound := by
    simpa [rejects, Option.any_eq_true] using rejected
  exact remain bounds window bound found key inside below

omit follows

/-- If a flush spares the rows of the last window whatever the merger discards,
they remain. -/
theorem rowsRemain_of_spares (spares : ∀ discard,
      Spares inclusive progress (collect progress.filter progress.batches discard)) :
    progress.RowsRemain inclusive := by
  intro bounds window bound found key inside below batch member
  obtain ⟨before, behind, split⟩ := append_of_mem member
  have rejected : rejects progress.filter key = true := by
    simpa [rejects, mem_def.mp found] using below
  have same := congrArg (group · key) (spares (fun index _ => index == before.length) bounds window)
  have removed := group_collect_single rejected before batch behind
  rw [← split] at removed
  simp only [group_filterKeys, inside, if_true] at same
  rw [same] at removed
  simpa using removed

/-- A run whose flushes find rows that remain is exact. -/
theorem run_exact (inputs : List (WindowTick K V × Discard K))
    (grow : LowerBoundsNeverDecrease (inputs.map fst))
    (remain : ∀ earlier tick later, inputs.map fst = earlier ++ tick :: later →
      tick.flush = true → (Progress.after earlier).RowsRemain inclusive) :
    ∃ circuit, Run.run step (.initial inclusive) inputs = some circuit ∧
      Follows inclusive (Progress.after (inputs.map fst)) circuit ∧
      Exact inclusive (Progress.after (inputs.map fst)) circuit := by
  refine Run.invariant (fun inputs => LowerBoundsNeverDecrease (inputs.map fst) ∧
      ∀ earlier tick later, inputs.map fst = earlier ++ tick :: later → tick.flush = true →
        (Progress.after earlier).RowsRemain inclusive)
    (fun inputs circuit => Follows inclusive (Progress.after (inputs.map fst)) circuit ∧
      Exact inclusive (Progress.after (inputs.map fst)) circuit)
    ?_ ⟨follows_initial, rfl⟩ ?_ inputs ⟨grow, remain⟩
  · rintro inputs input ⟨grow, remain⟩
    rw [map_append] at grow
    refine ⟨grow.sublist (sublist_append_left _ _), fun earlier tick later split => ?_⟩
    refine remain earlier tick (later ++ [input.1]) ?_
    simp [split]
  · rintro inputs ⟨tick, discard⟩ circuit ⟨grow, remain⟩ ⟨follows, exactBefore⟩
    rw [map_append, map_singleton] at grow remain ⊢
    rw [Progress.after_append_singleton]
    obtain ⟨windowOrder, filterOrder⟩ := Progress.after_le (lower_le_last grow)
    obtain ⟨next, stepped, followsNext, exactNext, -⟩ :=
      exact_step follows windowOrder filterOrder exactBefore discard fun flush =>
        spares_of_rowsRemain follows (remain _ tick [] rfl flush) discard
    exact ⟨next, stepped, followsNext, exactNext⟩

/-- A run in which nothing is discarded is exact and keeps every batch. -/
theorem run_undisturbed (ticks : List (WindowTick K V)) (grow : LowerBoundsNeverDecrease ticks) :
    ∃ circuit, Run.run step (.initial inclusive) (ticks.map (·, undisturbed)) = some circuit ∧
      Follows inclusive (Progress.after ticks) circuit ∧
      Exact inclusive (Progress.after ticks) circuit ∧
      circuit.spine = (Progress.after ticks).batches := by
  induction ticks using reverseRecOn with
  | nil => exact ⟨_, rfl, follows_initial, rfl, rfl⟩
  | append_singleton _ tick ih =>
    obtain ⟨windowOrder, filterOrder⟩ := Progress.after_le (lower_le_last grow)
    obtain ⟨circuit, reached, follows, exactBefore, spine⟩ :=
      ih (grow.sublist (sublist_append_left _ _))
    obtain ⟨next, stepped, followsNext, exactNext, spineNext⟩ :=
      exact_step follows windowOrder filterOrder exactBefore undisturbed fun _ _ _ => by
        rw [collect_none, spine]
    rw [map_append, map_singleton, Run.run_append_singleton, reached,
      Progress.after_append_singleton]
    refine ⟨next, stepped, followsNext, exactNext, ?_⟩
    rw [spineNext, collect_none, spine, Progress.advance]
    cases tick.flush <;> simp

end TransactionCircuit

/-- After a flush, being exact is to have emitted the window over everything
received. -/
theorem TransactionCircuit.exact_after_flush {inclusive : Bool × Bool}
    {circuit : TransactionCircuit K V} (ticks : List (WindowTick K V))
    {tick : WindowTick K V} (flush : tick.flush = true) :
    Exact inclusive (Progress.after (ticks ++ [tick])) circuit ↔
      circuit.emitted =
        (received (ticks ++ [tick])).filterKeys (inWindow inclusive tick.bounds) := by
  rw [← Progress.sum_after, Exact, Progress.after_append_singleton]
  simp [Progress.advance, flush]

/-- The batches emitted over a schedule are right whatever the merger discards if,
and only if, no row of the window of a flush falls below the bound of a later step
before the next flush. -/
theorem WindowSchedule.emitsWindow_iff (inclusive : Bool × Bool) (schedule : WindowSchedule K V) :
    schedule.EmitsWindow inclusive ↔ schedule.RowsRemain inclusive := by
  have grow := schedule.grow
  constructor
  · -- the merger waits for the flush and then discards whatever it likes
    intro emits earlier tick later split flush
    have growTo : LowerBoundsNeverDecrease (earlier ++ [tick]) := by
      rw [split, append_cons] at grow
      exact grow.sublist (sublist_append_left _ _)
    obtain ⟨windowOrder, filterOrder⟩ := Progress.after_le (lower_le_last growTo)
    obtain ⟨circuit, reached, follows, exactBefore, spine⟩ :=
      @TransactionCircuit.run_undisturbed _ _ _ _ inclusive earlier
        (growTo.sublist (sublist_append_left _ _))
    refine TransactionCircuit.rowsRemain_of_spares fun discard => ?_
    obtain ⟨next, stepped, -, -, emitted⟩ :=
      TransactionCircuit.step_flush follows windowOrder filterOrder flush discard
    obtain ⟨final, reachedFinal, whole⟩ :=
      emits (earlier.map (·, TransactionCircuit.undisturbed) ++
          (tick, discard) :: later.map (·, TransactionCircuit.undisturbed))
        (by simp [split, Function.comp_def]) _ _ _ rfl flush
    rw [Run.run_append_singleton, reached, bind_some, stepped] at reachedFinal
    obtain rfl := Option.some.inj reachedFinal
    rw [← spine]
    refine (TransactionCircuit.exact_flush_iff follows exactBefore flush emitted).mp ?_
    rw [← Progress.after_append_singleton, TransactionCircuit.exact_after_flush earlier flush,
      whole]
    simp [Function.comp_def]
  · intro remain inputs ticks earlier last later split flush
    have whole : schedule.ticks =
        (earlier ++ [last]).map Prod.fst ++ later.map Prod.fst := by
      rw [← ticks, split]
      simp
    rw [whole] at grow
    obtain ⟨circuit, reached, -, exactAfter⟩ := TransactionCircuit.run_exact (earlier ++ [last])
      (grow.sublist (sublist_append_left _ _)) fun before tick behind inner =>
        remain before tick (behind ++ later.map Prod.fst) (by rw [whole, inner]; simp)
    refine ⟨circuit, reached, ?_⟩
    rw [map_append, map_singleton] at exactAfter ⊢
    exact (TransactionCircuit.exact_after_flush _ flush).mp exactAfter

/-- Two transactions: the first inserts row 0 into the window from 0 to 10; the
second moves the lower bound to 5 in its first step and is flushed in its second. -/
def slidingTransaction : WindowSchedule ℕ ℕ where
  ticks := [⟨ofTuples [((0, 0), 1)], (0, 10), 100, true⟩, ⟨0, (5, 15), 100, false⟩,
    ⟨0, (5, 15), 100, true⟩]
  grow := by simp [LowerBoundsNeverDecrease]

/-- The row slides out of the window in the first step of the second transaction,
the merger discards it, and the flush no longer finds it to retract it. -/
theorem slidingTransaction_not_emitsWindow : ¬ slidingTransaction.EmitsWindow (true, false) := by
  intro emits
  let inputs : List (WindowTick ℕ ℕ × Discard ℕ) :=
    slidingTransaction.ticks.map fun tick => (tick, fun _ _ => true)
  obtain ⟨circuit, reached, whole⟩ := emits inputs rfl (inputs.take 2)
    (⟨0, (5, 15), 100, true⟩, fun _ _ => true) [] rfl rfl
  have stays : (Run.run TransactionCircuit.step (.initial (true, false)) inputs).map
      (·.emitted.weight 0 0) = some 1 := by decide
  have gone : ((received slidingTransaction.ticks).filterKeys
      (inWindow (true, false) (5, 15))).weight 0 0 = 0 := by decide
  have kept : circuit.emitted.weight 0 0 = 1 := by
    change Run.run TransactionCircuit.step _ inputs = some circuit at reached
    rw [reached] at stays
    exact Option.some.inj stays
  have retracted : circuit.emitted.weight 0 0 = 0 :=
    (congrArg (weight · 0 0) whole).trans gone
  exact absurd (kept.symm.trans retracted) one_ne_zero

end OpenDera.TimeSeries
