import Mathlib.Data.Prod.Lex
import OpenDera.Operator.InputUpsert

/-!
# An upsert input over whole runs

The circuit of `input_upsert` feeds the trace of all emitted batches back to the
operator. The abstract model is a map from keys to values that commands change
one at a time; the trace is the Z-set of that map after every step, and every
batch is the difference between two consecutive maps.
-/

namespace OpenDera

open List Merge

universe u

section

variable {K V P : Type u} [LinearOrder K] [LinearOrder V] (patchFunc : V → P → V)
  (map : K → Option V) (commands : List (K × Update V P))

/-- Apply commands to a map from keys to values, one after the other. -/
def applyCommands : K → Option V :=
  commands.foldl (fun map command =>
    Function.update map command.1 (command.2.apply patchFunc (map command.1))) map

/-- The map after some steps, each a list of update vectors. -/
def mapAfter (steps : List (List (List (K × Update V P)))) : K → Option V :=
  steps.foldl (fun map updates => applyCommands patchFunc map updates.flatten) fun _ => none

/-- A batch is the Z-set of a map: weight one for each value the map assigns. -/
def Represents (batch : IndexedZSet K V) (map : K → Option V) : Prop :=
  ∀ key value, batch.weight key value = indicator (map key) value

omit [LinearOrder V] in
/-- The value of a key after some commands depends on its own commands only. -/
theorem applyCommands_apply (key : K) :
    applyCommands patchFunc map commands key = valueAfter patchFunc key (map key) commands := by
  induction commands generalizing map with
  | nil => rfl
  | cons command _ ih =>
    obtain ⟨other, command⟩ := command
    have tail := ih (Function.update map other (command.apply patchFunc (map other)))
    simp only [applyCommands, foldl_cons] at tail ⊢
    rw [tail]
    by_cases same : other = key
    · subst same
      simp [valueAfter]
    · simp [valueAfter, same, Function.update_of_ne (Ne.symm same)]

variable {trace : IndexedZSet K V} {map : K → Option V}

/-- The last value stored under a key of the Z-set of a map is the map's value. -/
theorem currentValue_eq (represents : Represents trace map) (key : K) :
    currentValue trace key = map key := by
  have entryIff : ∀ entry, entry ∈ (trace.group key).entries ↔
      map key = some entry.1 ∧ entry.2 = 1 := by
    rintro ⟨value, weight⟩
    rw [ZSet.mem_entries]
    have weightEq : (trace.group key).weight value = indicator (map key) value :=
      represents key value
    rw [weightEq, indicator]
    split_ifs with assigned <;> simp [assigned] <;> omega
  unfold currentValue
  cases last : (trace.group key).entries.getLast? with
  | none =>
    rw [getLast?_eq_none_iff] at last
    cases assigned : map key with
    | none => rfl
    | some value => simpa [last, assigned] using entryIff (value, 1)
  | some entry => simpa using ((entryIff entry).mp (mem_of_getLast? last)).1.symm

/-- The change made by commands to the Z-set of a map is the difference of the maps. -/
theorem changeOf_eq (represents : Represents trace map)
    (patchFunc : V → P → V) (commands : List (K × Update V P)) (key : K) (value : V) :
    changeOf patchFunc trace commands key value =
      indicator (applyCommands patchFunc map commands key) value - indicator (map key) value := by
  rw [changeOf, currentValue_eq represents, applyCommands_apply, represents key value]
  split_ifs with occurs
  · rfl
  · have nothing : commands.filter (fun command => command.1 = key) = [] := by
      rw [filter_eq_nil_iff]
      intro command member same
      exact occurs (mem_map.mpr ⟨command, member, by simpa using same⟩)
    simp [valueAfter, nothing]

/-- The feedback trace and the batches emitted so far. -/
structure UpsertCircuit (K V : Type u) [LinearOrder K] [LinearOrder V] where
  trace : IndexedZSet K V := 0
  outputs : List (IndexedZSet K V) := []

namespace UpsertCircuit

/-- One step: evaluate the operator and append its batch to the trace. -/
def step (circuit : UpsertCircuit K V) (updates : List (List (K × Update V P))) :
    Option (UpsertCircuit K V) := do
  let batch ← InputUpsert.eval patchFunc circuit.trace updates
  return { trace := circuit.trace + batch, outputs := circuit.outputs ++ [batch] }

/-- A batch turns the Z-set of one map into that of the other. -/
def IsDifference (batch : IndexedZSet K V) (after before : K → Option V) : Prop :=
  ∀ key value, batch.weight key value = indicator (after key) value - indicator (before key) value

/-- The trace is the sum of the outputs and the Z-set of the current map, and each
output is the difference its step made. -/
structure Invariant (steps : List (List (List (K × Update V P))))
    (circuit : UpsertCircuit K V) : Prop where
  trace : circuit.trace = circuit.outputs.sum
  represents : Represents circuit.trace (mapAfter patchFunc steps)
  length : circuit.outputs.length = steps.length
  difference : ∀ index batch, circuit.outputs[index]? = some batch →
    IsDifference batch (mapAfter patchFunc (steps.take (index + 1)))
      (mapAfter patchFunc (steps.take index))

variable {patchFunc}

/-- One step of key-sorted vectors keeps the invariant. -/
theorem step_invariant {steps : List (List (List (K × Update V P)))}
    {updates : List (List (K × Update V P))} {circuit : UpsertCircuit K V}
    (sorted : KeySorted updates) (invariant : Invariant patchFunc steps circuit) :
    ∃ next, step patchFunc circuit updates = some next ∧
      Invariant patchFunc (steps ++ [updates]) next := by
  obtain ⟨batch, evaluated, weights⟩ :=
    InputUpsert.eval_eq patchFunc circuit.trace sorted
  have mapStep : mapAfter patchFunc (steps ++ [updates]) =
      applyCommands patchFunc (mapAfter patchFunc steps) updates.flatten := by
    simp [mapAfter, foldl_append]
  have difference : IsDifference batch (mapAfter patchFunc (steps ++ [updates]))
      (mapAfter patchFunc steps) := by
    intro key value
    rw [weights, changeOf_eq invariant.represents, mapStep]
  refine ⟨_, by simp [step, evaluated]; rfl, ?_, ?_, ?_, ?_⟩
  · simp [invariant.trace]
  · intro key value
    rw [IndexedZSet.weight_add, invariant.represents, difference key value]
    omega
  · simp [invariant.length]
  · intro index other isOutput
    rcases Nat.lt_trichotomy index steps.length with earlier | rfl | later
    · rw [getElem?_append_left (by rw [invariant.length]; exact earlier)] at isOutput
      rw [take_append_of_le_length (by omega), take_append_of_le_length (by omega)]
      exact invariant.difference index other isOutput
    · obtain rfl : batch = other := by simpa [← invariant.length] using isOutput
      rw [take_of_length_le (by simp), take_left]
      exact difference
    · rw [getElem?_eq_none (by simp [invariant.length]; omega)] at isOutput
      exact absurd isOutput (by simp)

/-- Upsert semantics: after any steps of key-sorted vectors the emitted batches add up
to the Z-set of the map that applying all commands in order produces, and each batch
is the difference between the maps after and before its step. -/
theorem outputs_represent_map (patchFunc : V → P → V) (steps : List (List (List (K × Update V P))))
    (sorted : ∀ updates ∈ steps, KeySorted updates) :
    ∃ circuit, Run.run (step patchFunc) {} steps = some circuit ∧
      Represents circuit.outputs.sum (mapAfter patchFunc steps) ∧
      circuit.outputs.length = steps.length ∧
      ∀ index batch, circuit.outputs[index]? = some batch →
        IsDifference batch (mapAfter patchFunc (steps.take (index + 1)))
          (mapAfter patchFunc (steps.take index)) := by
  have initially : Invariant patchFunc [] ({} : UpsertCircuit K V) :=
    ⟨rfl, fun _ _ => rfl, rfl, by simp⟩
  obtain ⟨circuit, reached, invariant⟩ := Run.invariant
    (fun steps => ∀ updates ∈ steps, KeySorted updates) (Invariant patchFunc)
    (fun _ _ sorted updates member => sorted updates (mem_append_left _ member)) initially
    (fun _ updates _ sorted => step_invariant (sorted updates (by simp))) steps sorted
  exact ⟨circuit, reached, invariant.trace ▸ invariant.represents, invariant.length,
    invariant.difference⟩

/-- Two vectors that touch the same key in one step: a deletion, a patch of what is no
longer there and a new value. -/
theorem outputs_represent_map_two_vectors : let steps : List (List (List (ℕ × Update ℕ ℕ))) :=
      [[[(1, .insert 5)]], [[(1, .delete), (2, .insert 7)], [(1, .update 3), (1, .insert 6)]]]
    (∀ updates ∈ steps, KeySorted updates) ∧
      ∃ circuit, Run.run (step fun value patch => value + patch) {} steps = some circuit ∧
        Represents circuit.outputs.sum (mapAfter (fun value patch => value + patch) steps) ∧
        circuit.outputs.length = steps.length ∧
        ∀ index batch, circuit.outputs[index]? = some batch →
          IsDifference batch (mapAfter (fun value patch => value + patch) (steps.take (index + 1)))
            (mapAfter (fun value patch => value + patch) (steps.take index)) := by
  intro steps
  have sorted : ∀ updates ∈ steps, KeySorted updates := by
    simp [steps, KeySorted]
  exact ⟨sorted, outputs_represent_map _ steps sorted⟩

end UpsertCircuit

end

/-! ## Behind a waterline -/

variable {K V P E Waterline : Type u} [LinearOrder K] [LinearOrder V]
  [LinearOrder P] [LinearOrder E]

/-- The loop variables of the operator. -/
structure WaterlineState (K V E : Type u) extends UpsertState K V where
  /-- The current key holds a value that may not be removed, so its updates are ignored. -/
  skipKey : Bool := false
  errors : List (E × ℤ) := []

/-- The functions the operator is created with. -/
structure InputUpsertWithWaterline (K V P E Waterline : Type u) where
  patchFunc : V → P → V
  filterFunc : Waterline → K → V → Bool
  reportFunc : Waterline → K → V → ℤ → E

namespace InputUpsertWithWaterline

variable (operator : InputUpsertWithWaterline K V P E Waterline) (waterline : Waterline)
  (state : WaterlineState K V E)

/-- Add an error of weight one. -/
def pushError (error : E) : WaterlineState K V E :=
  { state with errors := state.errors ++ [(error, 1)] }

variable (key : K)

/-- Retract the values of the new key that pass the filter; any other value is
reported and makes the key skipped. -/
def retract (values : List (V × ℤ)) : WaterlineState K V E :=
  values.foldl (fun state entry =>
    if entry.2 ≠ 0 then
      if operator.filterFunc waterline key entry.1 then
        { state with
          keyUpdates := state.keyUpdates ++ [(entry.1, -entry.2)]
          curVal := some entry.1 }
      else
        pushError { state with skipKey := true }
          (operator.reportFunc waterline key entry.1 (-entry.2))
    else
      state) state

/-- Finish the previous key and start processing `key`. -/
def startKey : WaterlineState K V E :=
  let state := { state with
    builder := state.pushKeyUpdates
    keyUpdates := []
    skipKey := false
    curKey := some key
    curVal := none
    cursor := Cursor.seekKey key state.cursor }
  match state.cursor with
  | (found, values) :: cursor =>
    if found = key then
      operator.retract waterline { state with cursor := (found, []) :: cursor } key values
    else
      state
  | [] => state

/-- Apply a command to the current key unless the filter rejects its result. -/
def applyCommand (command : Update V P) : WaterlineState K V E :=
  match command with
  | .delete => { state with curVal := none }
  | .insert value =>
    if operator.filterFunc waterline key value then
      { state with curVal := some value }
    else
      pushError state (operator.reportFunc waterline key value 1)
  | .update patch =>
    match state.curVal with
    | some value =>
      let patched := operator.patchFunc value patch
      if operator.filterFunc waterline key patched then
        { state with curVal := some patched }
      else
        pushError state (operator.reportFunc waterline key patched 1)
    | none => state

/-- The loop body: one update, taken from the merged vectors. -/
def processUpdate (keyUpdate : K × Update V P) : WaterlineState K V E :=
  let (key, command) := keyUpdate
  let state := if state.curKey ≠ some key then operator.startKey waterline state key else state
  if state.skipKey then state else operator.applyCommand waterline state key command

/-- The updates in the order in which they are applied: the least pair of key and
update comes next. -/
def mergeUpdates (updates : List (List (K × Update V P))) : List (K × Update V P) :=
  merge (fun update => toLex update) (updates.map length).sum
    (updates.filterMap toSlice)

/-- `InputUpsertWithWaterline::eval`: the batch and the reported errors. -/
def eval (trace : IndexedZSet K V) (updates : List (List (K × Update V P))) :
    Option (IndexedZSet K V × ZSet E) := do
  let state := (mergeUpdates updates).foldl (operator.processUpdate waterline)
    { cursor := valueCursor trace }
  let batch ← state.pushKeyUpdates.done
  return (batch, ZSet.ofTuples state.errors)

end InputUpsertWithWaterline

variable (updates : List (List (K × Update V P)))

/-- Whatever a vector holds for a key is at most the first update that any later
vector holds for the key, in the derived order of updates. -/
def Ascending : Prop :=
  updates.Pairwise fun earlier later => ∀ update ∈ earlier,
    ∀ first ∈ later.find? (fun other => other.1 = update.1), update.2 ≤ first.2

/-- Ascending vectors are those that the finer merge takes in vector order. -/
theorem ascending_iff_aligned :
    Ascending updates ↔ Merge.Aligned Prod.fst (fun update => toLex update) updates := by
  have samePair : ∀ earlier later : List (K × Update V P),
      (∀ update ∈ earlier, ∀ first ∈ later.find? (fun other => other.1 = update.1),
        update.2 ≤ first.2) ↔
      Merge.Precedes Prod.fst (fun update => toLex update) earlier later := by
    intro earlier later
    refine forall₂_congr fun update _ => forall₂_congr fun first found => ?_
    have sameKey : first.1 = update.1 := by simpa using find?_some found
    rw [Prod.Lex.toLex_le_toLex, sameKey]
    simp
  constructor
  · exact fun ascending => ascending.imp fun {earlier later} => (samePair earlier later).mp
  · exact fun aligned => aligned.imp fun {earlier later} => (samePair earlier later).mpr

namespace InputUpsertWithWaterline

/-- The state of the plain operator seen as one of this operator that skipped and
reported nothing. -/
def ofUpsert (state : UpsertState K V) : WaterlineState K V E :=
  { state with }

variable {operator : InputUpsertWithWaterline K V P E Waterline} {waterline : Waterline}

section

variable (accepts : ∀ key value, operator.filterFunc waterline key value = true)

include accepts

variable (state : UpsertState K V)

omit [LinearOrder K] [LinearOrder V] [LinearOrder P] [LinearOrder E] in
theorem retract_ofUpsert (key : K) (values : List (V × ℤ)) :
    operator.retract waterline (ofUpsert state) key values = ofUpsert (state.retract values) := by
  induction values generalizing state with
  | nil => rfl
  | cons entry _ ih =>
    simp only [retract, UpsertState.retract, foldl_cons, accepts, if_true]
      at ih ⊢
    by_cases zero : entry.2 = 0
    · simp only [zero, ne_eq, not_true_eq_false, if_false]
      exact ih state
    · simp only [zero, ne_eq, not_false_eq_true, if_true]
      exact ih { state with
        keyUpdates := state.keyUpdates ++ [(entry.1, -entry.2)]
        curVal := some entry.1 }

omit [LinearOrder P] [LinearOrder E] in
theorem startKey_ofUpsert (key : K) :
    operator.startKey waterline (ofUpsert state) key = ofUpsert (state.startKey key) := by
  rcases sought : Cursor.seekKey key state.cursor with _ | ⟨⟨found, values⟩, cursor⟩
  · simp only [startKey, UpsertState.startKey, ofUpsert, sought]
  · simp only [startKey, UpsertState.startKey, ofUpsert, sought]
    split_ifs
    · exact retract_ofUpsert accepts _ key values
    · rfl

attribute [local simp] applyCommand ofUpsert Update.apply in
omit [LinearOrder P] [LinearOrder E] in
/-- A filter that accepts everything makes the loop bodies agree. -/
theorem processUpdate_ofUpsert (keyUpdate : K × Update V P) :
    operator.processUpdate waterline (ofUpsert state) keyUpdate =
      ofUpsert (InputUpsert.processUpdate operator.patchFunc state keyUpdate) := by
  obtain ⟨key, command⟩ := keyUpdate
  have applied : ∀ state : UpsertState K V,
      operator.applyCommand waterline (ofUpsert state) key command =
        ofUpsert { state with curVal := command.apply operator.patchFunc state.curVal } := by
    intro state
    cases command with
    | insert => simp [accepts]
    | delete => rfl
    | update =>
      obtain ⟨curKey, curVal, keyUpdates, cursor, builder⟩ := state
      cases curVal <;> simp [accepts]
  have started : (if (ofUpsert state : WaterlineState K V E).curKey ≠ some key then
        operator.startKey waterline (ofUpsert state) key else ofUpsert state) =
      ofUpsert (if state.curKey ≠ some key then state.startKey key else state) := by
    rw [startKey_ofUpsert accepts, ← apply_ite ofUpsert]
    rfl
  unfold processUpdate
  simp only [started]
  rw [if_neg (by simp), applied]
  rfl

/-- With such a filter the operator replays its own order of the updates as the plain
operator would, and reports nothing. -/
theorem eval_of_accepts (trace : IndexedZSet K V) (updates : List (List (K × Update V P))) :
    operator.eval waterline trace updates =
      (((mergeUpdates updates).foldl (InputUpsert.processUpdate operator.patchFunc)
        { cursor := valueCursor trace }).pushKeyUpdates.done).map fun batch => (batch, 0) := by
  have replayed : ∀ (merged : List (K × Update V P)) (state : UpsertState K V),
      merged.foldl (operator.processUpdate waterline) (ofUpsert state) =
        ofUpsert (merged.foldl (InputUpsert.processUpdate operator.patchFunc) state) := by
    intro merged
    induction merged with
    | nil => exact fun _ => rfl
    | cons _ _ ih =>
      intro state
      rw [foldl_cons, foldl_cons, processUpdate_ofUpsert accepts, ih]
  have start : ({ cursor := valueCursor trace } : WaterlineState K V E) =
      ofUpsert { cursor := valueCursor trace } := rfl
  unfold eval
  rw [start, replayed]
  generalize (mergeUpdates updates).foldl _ _ = state
  simp only [ofUpsert]
  cases state.pushKeyUpdates.done <;> rfl

end

variable {updates : List (List (K × Update V P))}

/-- The two merges agree exactly on ascending vectors. -/
theorem mergeUpdates_eq_iff (sorted : KeySorted updates) :
    mergeUpdates updates = InputUpsert.mergeUpdates updates ↔ Ascending updates := by
  have enough : (contents (updates.filterMap toSlice)).length ≤
      (updates.map length).sum := by
    rw [contents_filterMap_toSlice, length_flatten]
  have refines : ∀ first second : K × Update V P,
      first.1 < second.1 → toLex first < toLex second := fun first second below =>
    Prod.Lex.toLex_lt_toLex.mpr (Or.inl below)
  rw [ascending_iff_aligned, ← aligned_filterMap_toSlice]
  exact merge_eq_merge_iff refines _ enough sorted.sortedSlices

/-- Both merges list keys in ascending order, so they agree once the updates of each
key do. -/
theorem mergeUpdates_eq_of_filter_eq (sorted : KeySorted updates)
    (same : ∀ key, (mergeUpdates updates).filter (fun update => update.1 = key) =
      (InputUpsert.mergeUpdates updates).filter fun update => update.1 = key) :
    mergeUpdates updates = InputUpsert.mergeUpdates updates := by
  have refines : ∀ first second : K × Update V P,
      first.1 < second.1 → toLex first < toLex second := fun first second below =>
    Prod.Lex.toLex_lt_toLex.mpr (Or.inl below)
  refine eq_of_filter_eq same ?_ ?_
  · exact merge_sorted sorted.sortedSlices refines _
  · exact merge_sorted sorted.sortedSlices (fun _ _ below => below) _

/-- With a filter that accepts everything, the operator yields the batch of the plain
operator and no errors, and applies the updates of every key in the same order, exactly
when the vectors are ascending. -/
theorem refines_inputUpsert_iff (operator : InputUpsertWithWaterline K V P E Waterline)
    (waterline : Waterline)
    (accepts : ∀ key value, operator.filterFunc waterline key value = true)
    (trace : IndexedZSet K V) (updates : List (List (K × Update V P)))
    (sorted : KeySorted updates) :
    ((∃ batch, InputUpsert.eval operator.patchFunc trace updates = some batch ∧
        operator.eval waterline trace updates = some (batch, 0)) ∧
      ∀ key, (mergeUpdates updates).filter (fun update => update.1 = key) =
        (InputUpsert.mergeUpdates updates).filter fun update => update.1 = key) ↔
      Ascending updates := by
  rw [← mergeUpdates_eq_iff sorted]
  constructor
  · rintro ⟨-, same⟩
    exact mergeUpdates_eq_of_filter_eq sorted same
  · intro same
    obtain ⟨batch, evaluated, _⟩ := InputUpsert.eval_eq operator.patchFunc trace sorted
    refine ⟨⟨batch, evaluated, ?_⟩, fun key => by rw [same]⟩
    rw [eval_of_accepts accepts, same]
    rw [InputUpsert.eval] at evaluated
    rw [evaluated]
    rfl

/-- Two vectors that overwrite one key: the second insertion must win, but the operator
replays it first because its value is smaller. -/
theorem later_insert_loses : let operator : InputUpsertWithWaterline ℕ ℕ ℕ ℕ ℕ :=
      { patchFunc := fun value patch => value + patch
        filterFunc := fun _ _ _ => true
        reportFunc := fun _ key _ _ => key }
    let updates : List (List (ℕ × Update ℕ ℕ)) := [[(1, .insert 2)], [(1, .insert 1)]]
    KeySorted updates ∧
      InputUpsert.eval operator.patchFunc 0 updates =
        some (IndexedZSet.ofTuples [((1, 1), 1)]) ∧
      operator.eval 0 0 updates = some (IndexedZSet.ofTuples [((1, 2), 1)], 0) ∧
      IndexedZSet.ofTuples [((1, 1), 1)] ≠ IndexedZSet.ofTuples [((1, 2), (1 : ℤ))] ∧
      (mergeUpdates updates).filter (fun update => update.1 = 1) =
        [(1, .insert 1), (1, .insert 2)] ∧
      (InputUpsert.mergeUpdates updates).filter (fun update => update.1 = 1) =
        [(1, .insert 2), (1, .insert 1)] := by
  refine ⟨by simp [KeySorted], by decide, by decide, by decide, by decide, by decide⟩

/-- The equivalence on vectors in which the later one deletes what the earlier inserted. -/
theorem refines_inputUpsert_iff_insert_delete : let operator : InputUpsertWithWaterline ℕ ℕ ℕ ℕ ℕ :=
      { patchFunc := fun value patch => value + patch
        filterFunc := fun _ _ _ => true
        reportFunc := fun _ key _ _ => key }
    let updates : List (List (ℕ × Update ℕ ℕ)) := [[(1, .insert 2)], [(1, .delete)]]
    let trace : IndexedZSet ℕ ℕ := IndexedZSet.ofTuples [((1, 7), 1)]
    KeySorted updates ∧
      (((∃ batch, InputUpsert.eval operator.patchFunc trace updates = some batch ∧
          operator.eval 0 trace updates = some (batch, 0)) ∧
        ∀ key, (mergeUpdates updates).filter (fun update => update.1 = key) =
          (InputUpsert.mergeUpdates updates).filter fun update => update.1 = key) ↔
        Ascending updates) := by
  intro operator updates trace
  have sorted : KeySorted updates := by simp [updates, KeySorted]
  exact ⟨sorted, refines_inputUpsert_iff operator 0 (fun _ _ => rfl) trace updates sorted⟩

end InputUpsertWithWaterline

end OpenDera
