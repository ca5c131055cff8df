import Mathlib.Data.Sum.Order
import OpenDera.Std.Merge
import OpenDera.Std.Run
import OpenDera.Trace.Builder
import OpenDera.Trace.Cursor

/-!
# The upsert operators

`InputUpsert` turns commands that insert, delete or patch the value of a key into
a batch of changes to a key-value relation: it merges several update vectors by
key, replays the commands of each key on the value the trace holds and emits the
difference. `InputUpsertWithWaterline` does the same under a filter that refuses
values and reports them as errors; it merges the vectors by whole updates instead
of keys, which is the order the derived comparison of `Update` gives.
-/

namespace OpenDera

open Cursor List IndexedZSet Builder Prod

universe u

section

/-- A command for one key. -/
inductive Update (V P : Type u) where
  | insert (value : V)
  | delete
  | update (patch : P)
  deriving DecidableEq

namespace Update

variable {V P : Type u}

/-- The derived comparison ranks the variants in declaration order. -/
def toSum : Update V P → V ⊕ₗ (PUnit.{u + 1} ⊕ₗ P)
  | insert value => Sum.inlₗ value
  | delete => Sum.inrₗ (Sum.inlₗ PUnit.unit)
  | update patch => Sum.inrₗ (Sum.inrₗ patch)

theorem toSum_injective : Function.Injective (toSum : Update V P → _) := by
  intro first second same
  cases first <;> cases second <;> simp_all [toSum, Sum.inlₗ, Sum.inrₗ]

instance [LinearOrder V] [LinearOrder P] : LinearOrder (Update V P) :=
  LinearOrder.lift' toSum toSum_injective

/-- What a command makes of the current value of its key. A patch of an absent
value does nothing. -/
def apply (patchFunc : V → P → V) (command : Update V P) (current : Option V) : Option V :=
  match command with
  | insert value => some value
  | delete => none
  | update patch => current.map fun value => patchFunc value patch

end Update

variable {K V P : Type u} [LinearOrder K] [LinearOrder V]

/-- The values of a trace under a cursor that reads them one by one. -/
def valueCursor (trace : IndexedZSet K V) : List (K × List (V × ℤ)) :=
  trace.groups.map fun group => (group.1, group.2.entries)

/-- The loop variables shared by both operators. -/
structure UpsertState (K V : Type u) where
  /-- Key whose updates are being processed. -/
  curKey : Option K := none
  /-- Its value after the updates processed so far. -/
  curVal : Option V := none
  /-- Retractions collected for the key. -/
  keyUpdates : List (V × ℤ) := []
  cursor : List (K × List (V × ℤ))
  builder : Builder K V := {}

namespace UpsertState

variable (state : UpsertState K V)

/-- The retractions of the current key followed by its final value. -/
def finalUpdates : List (V × ℤ) :=
  match state.curVal with
  | some value => state.keyUpdates ++ [(value, 1)]
  | none => state.keyUpdates

/-- Push the changes of the current key, consolidated. -/
def pushKeyUpdates : Builder K V :=
  match state.curKey with
  | none => state.builder
  | some key =>
    let keyUpdates := (ZSet.ofTuples state.finalUpdates).entries
    if keyUpdates.isEmpty then
      state.builder
    else
      (keyUpdates.foldl (fun builder entry => builder.pushValDiff entry.1 entry.2)
        state.builder).pushKey key

/-- Retract the values the trace holds under the new key; the last of them becomes
its current value. -/
def retract (values : List (V × ℤ)) : UpsertState K V :=
  values.foldl (fun state entry =>
    if entry.2 ≠ 0 then
      { state with
        keyUpdates := state.keyUpdates ++ [(entry.1, -entry.2)]
        curVal := some entry.1 }
    else
      state) state

/-- Finish the previous key and start processing `key`. -/
def startKey (key : K) : UpsertState K V := let state := { state with
    builder := state.pushKeyUpdates
    keyUpdates := []
    curKey := some key
    curVal := none
    cursor := seekKey key state.cursor }
  match state.cursor with
  | (found, values) :: cursor =>
    if found = key then
      { state with cursor := (found, []) :: cursor }.retract values
    else
      state
  | [] => state

end UpsertState

namespace InputUpsert

variable (patchFunc : V → P → V)

/-- The loop body: one update, taken from the merged vectors. -/
def processUpdate (state : UpsertState K V) (keyUpdate : K × Update V P) : UpsertState K V :=
  let (key, command) := keyUpdate
  let state := if state.curKey ≠ some key then state.startKey key else state
  { state with curVal := command.apply patchFunc state.curVal }

/-- The updates in the order in which they are applied: the first of those with the
least key comes next. -/
def mergeUpdates (updates : List (List (K × Update V P))) : List (K × Update V P) :=
  Merge.merge fst (updates.map length).sum (updates.filterMap Merge.toSlice)

/-- `InputUpsert::eval`. -/
def eval (trace : IndexedZSet K V)
    (updates : List (List (K × Update V P))) : Option (IndexedZSet K V) :=
  let state := (mergeUpdates updates).foldl (processUpdate patchFunc)
    { cursor := valueCursor trace }
  state.pushKeyUpdates.done

end InputUpsert

end

/-! ## What an upsert does -/

variable {K V P : Type u} [LinearOrder K] [LinearOrder V]

/-- One where the optional value is `value`, zero elsewhere. -/
def indicator (current : Option V) (value : V) : ℤ :=
  if current = some value then 1 else 0

/-- The value a key has in the trace: the last one stored. -/
def currentValue (trace : IndexedZSet K V) (key : K) : Option V :=
  (trace.group key).entries.getLast?.map fst

variable (patchFunc : V → P → V)

/-- The value of `key` after replaying the commands addressed to it. -/
def valueAfter (key : K) (start : Option V) (updates : List (K × Update V P)) : Option V :=
  (updates.filter fun update => update.1 = key).foldl
    (fun current update => update.2.apply patchFunc current) start

namespace UpsertState

variable (trace : IndexedZSet K V)

theorem sorted_valueCursor : SortedMap.Sorted (valueCursor trace) :=
  trace.sorted.map_value ZSet.entries

theorem lookup_valueCursor (key : K) :
    (valueCursor trace).lookup key = (trace.groups.lookup key).map ZSet.entries :=
  SortedMap.lookup_map_value trace.groups ZSet.entries key

variable (state : UpsertState K V)

omit [LinearOrder K] [LinearOrder V] in
/-- Retracting a group collects its negation and ends at its last value. -/
theorem retract_eq {values : List (V × ℤ)} (nonzero : ∀ entry ∈ values, entry.2 ≠ 0) :
    state.retract values = { state with
      keyUpdates := state.keyUpdates ++ values.map fun entry => (entry.1, -entry.2)
      curVal := (values.getLast?.map fst).or state.curVal } := by
  induction values using reverseRecOn with
  | nil => simp [retract]
  | append_singleton _ entry ih =>
    have earlier := ih fun other member =>
      nonzero other (mem_append_left _ member)
    have lastNonzero := nonzero entry (by simp)
    simp only [retract, foldl_append, foldl_cons, foldl_nil] at earlier ⊢
    rw [earlier]
    simp [lastNonzero]

/-- Starting a key that the cursor has not passed retracts its group. -/
theorem startKey_eq (trace : IndexedZSet K V) (key : K)
    (position : seekKey key state.cursor = seekKey key (valueCursor trace)) :
    ∃ cursor, state.startKey key = {
        curKey := some key
        curVal := currentValue trace key
        keyUpdates := (trace.group key).entries.map fun entry => (entry.1, -entry.2)
        cursor
        builder := state.pushKeyUpdates } ∧
      ∀ later, key < later →
        seekKey later cursor = seekKey later (valueCursor trace) := by
  have found := lookup_eq_seekKey (sorted_valueCursor trace) key
  rw [lookup_valueCursor, lookup_eq] at found
  have later : ∀ later, key < later → seekKey later
      (seekKey key (valueCursor trace)) = seekKey later (valueCursor trace) :=
    fun later above => seekKey_seekKey above.le _
  unfold startKey
  simp only [position]
  generalize seekKey key (valueCursor trace) = rest at found later ⊢
  have absent : (if trace.group key = 0 then none else some (trace.group key)).map ZSet.entries =
      none → trace.group key = 0 := by
    split_ifs with empty
    · exact fun _ => empty
    · simp
  cases rest with
  | nil =>
    refine ⟨[], ?_, later⟩
    simp [currentValue, absent found]
  | cons entry rest =>
    obtain ⟨head, values⟩ := entry
    by_cases same : head = key
    · subst same
      have stored : (trace.group head).entries = values := by
        by_cases empty : trace.group head = 0
        · simp [empty] at found
        · simpa [empty] using found
      refine ⟨(head, []) :: rest, ?_, ?_⟩
      · simp only [if_true]
        rw [retract_eq _ (stored ▸ (trace.group head).nonzero)]
        simp [currentValue, stored]
      · intro next above
        rw [← later next above]
        simp [seekKey, above]
    · refine ⟨(head, values) :: rest, ?_, later⟩
      simp only [same, if_false] at found ⊢
      simp [currentValue, absent found]

variable {state}

/-- Finishing a key above all pushed ones pushes its consolidated changes. -/
theorem pushKeyUpdates_complete (complete : state.builder.Complete)
    (below : ∀ group ∈ state.builder.groups, ∃ key ∈ state.curKey, group.1 < key) :
    state.pushKeyUpdates.Complete ∧
      ∀ group ∈ state.pushKeyUpdates.groups, ∃ key ∈ state.curKey, group.1 ≤ key := by
  have weaker : ∀ group ∈ state.builder.groups, ∃ key ∈ state.curKey, group.1 ≤ key :=
    fun group member => (below group member).imp fun key => And.imp_right le_of_lt
  unfold pushKeyUpdates
  rcases current : state.curKey with _ | key
  · rw [current] at weaker
    exact ⟨complete, weaker⟩
  · simp only [List.isEmpty_iff]
    split_ifs with empty
    · rw [current] at weaker
      exact ⟨complete, weaker⟩
    · rw [foldl_pushValDiff]
      refine ⟨complete.pushGroup ⟨ZSet.sorted _, ZSet.nonzero _, empty⟩ ?_, ?_⟩
      · intro group member
        obtain ⟨other, isCurrent, less⟩ := below group member
        obtain rfl : other = key := by simpa [current] using isCurrent.symm
        exact less
      · intro group member
        refine ⟨key, rfl, ?_⟩
        rcases mem_append.mp member with member | member
        · obtain ⟨other, isCurrent, order⟩ := weaker group member
          obtain rfl : other = key := by simpa [current] using isCurrent.symm
          exact order
        · rw [mem_singleton.mp member]

theorem weightOf_pushKeyUpdates (noVals : state.builder.vals = []) (key : K) (value : V) :
    weightOf state.pushKeyUpdates.tuples (key, value) =
      weightOf state.builder.tuples (key, value) +
        if state.curKey = some key then
          weightOf state.keyUpdates value + indicator state.curVal value
        else 0 := by
  have changes : (ZSet.ofTuples state.finalUpdates).weight value =
      weightOf state.keyUpdates value + indicator state.curVal value := by
    rw [ZSet.weight_ofTuples, finalUpdates]
    cases state.curVal <;> simp [indicator]
  rw [← changes, ZSet.weight]
  unfold pushKeyUpdates
  cases current : state.curKey with
  | none => simp
  | some =>
    simp only [List.isEmpty_iff, Option.some.injEq]
    split_ifs with empty same same
    · simp [empty]
    · simp
    · rw [foldl_pushValDiff, tuples_pushGroup noVals, weightOf_append,
        weightOf_map_key, if_pos same]
    · rw [foldl_pushValDiff, tuples_pushGroup noVals, weightOf_append,
        weightOf_map_key, if_neg same]

end UpsertState

variable (trace : IndexedZSet K V)

section

variable (updates : List (K × Update V P))

/-- The change of one weight that replaying `updates` on a trace amounts to. -/
def changeOf (key : K) (value : V) : ℤ :=
  if key ∈ updates.map fst then
    indicator (valueAfter patchFunc key (currentValue trace key) updates) value -
      trace.weight key value
  else 0

/-- What the loop of the operator maintains after replaying `updates`: finished keys
are in the builder with their changes, the current key has its value and its
retractions at hand, and the cursor has not passed any later key. -/
structure ReplayInvariant (state : UpsertState K V) : Prop where
  curKey : state.curKey = updates.getLast?.map fst
  complete : state.builder.Complete
  below : ∀ group ∈ state.builder.groups, ∃ key ∈ state.curKey, group.1 < key
  position : ∀ key, (∀ last ∈ state.curKey, last < key) →
    seekKey key state.cursor = seekKey key (valueCursor trace)
  finished : ∀ key value, state.curKey ≠ some key →
    weightOf state.builder.tuples (key, value) = changeOf patchFunc trace updates key value
  curVal : ∀ key, state.curKey = some key →
    state.curVal = valueAfter patchFunc key (currentValue trace key) updates
  retraction : ∀ key value, state.curKey = some key →
    weightOf state.builder.tuples (key, value) = 0 ∧
      weightOf state.keyUpdates value = -trace.weight key value

end

namespace ReplayInvariant

variable {patchFunc : V → P → V} {trace : IndexedZSet K V}
  {updates : List (K × Update V P)} {state : UpsertState K V}

/-- Finishing the current key accounts for all changes. -/
theorem weightOf_pushKeyUpdates (invariant : ReplayInvariant patchFunc trace updates state)
    (key : K) (value : V) :
    weightOf state.pushKeyUpdates.tuples (key, value) =
      changeOf patchFunc trace updates key value := by
  rw [UpsertState.weightOf_pushKeyUpdates invariant.complete.1]
  split_ifs with current
  · obtain ⟨nothing, retracted⟩ := invariant.retraction key value current
    have occurs : key ∈ updates.map fst := by
      rw [invariant.curKey] at current
      obtain ⟨last, isLast, rfl⟩ := Option.map_eq_some_iff.mp current
      exact mem_map_of_mem (mem_of_getLast? isLast)
    rw [nothing, retracted, invariant.curVal key current, changeOf, if_pos occurs]
    omega
  · rw [invariant.finished key value current, add_zero]

omit [LinearOrder V] in
theorem valueAfter_append_of_ne {key other : K} (different : other ≠ key) (start : Option V)
    (command : Update V P) :
    valueAfter patchFunc key start (updates ++ [(other, command)]) =
      valueAfter patchFunc key start updates := by
  simp [valueAfter, filter_append, different]

omit [LinearOrder V] in
theorem valueAfter_append_self (key : K) (start : Option V) (command : Update V P) :
    valueAfter patchFunc key start (updates ++ [(key, command)]) =
      command.apply patchFunc (valueAfter patchFunc key start updates) := by
  simp [valueAfter, filter_append]

theorem changeOf_append_of_ne {key other : K} (different : other ≠ key)
    (command : Update V P) (value : V) :
    changeOf patchFunc trace (updates ++ [(other, command)]) key value =
      changeOf patchFunc trace updates key value := by
  have occurs : key ∈ (updates ++ [(other, command)]).map fst ↔
      key ∈ updates.map fst := by
    simp [Ne.symm different]
  rw [changeOf, changeOf, valueAfter_append_of_ne different]
  exact if_congr occurs rfl rfl

/-- Replaying one more command at or above the current key keeps the invariant. -/
theorem processUpdate (invariant : ReplayInvariant patchFunc trace updates state) {key : K}
    {command : Update V P}
    (sorted : (updates ++ [(key, command)]).Pairwise fun first second => first.1 ≤ second.1) :
    ReplayInvariant patchFunc trace (updates ++ [(key, command)])
      (InputUpsert.processUpdate patchFunc state (key, command)) := by
  obtain ⟨sortedUpdates, -, notAbove⟩ := pairwise_append.mp sorted
  by_cases current : state.curKey = some key
  · -- The command continues the current key.
    have processed : InputUpsert.processUpdate patchFunc state (key, command) =
        { state with curVal := command.apply patchFunc state.curVal } := by
      simp [InputUpsert.processUpdate, current]
    rw [processed]
    refine ⟨by simp [current], invariant.complete, invariant.below, invariant.position, ?_, ?_,
      invariant.retraction⟩
    · intro other value different
      have different : key ≠ other := by rintro rfl; exact different current
      rw [changeOf_append_of_ne different]
      exact invariant.finished other value (by simpa [current] using different)
    · intro other isCurrent
      obtain rfl : key = other := by simpa [current] using isCurrent
      simp only [valueAfter_append_self, invariant.curVal key current]
  · -- The command starts a key above all earlier ones.
    have above : ∀ last ∈ state.curKey, last < key := by
      intro last isLast
      refine lt_of_le_of_ne ?_ fun same => current (same ▸ isLast)
      rw [invariant.curKey] at isLast
      obtain ⟨update, updateLast, rfl⟩ := Option.map_eq_some_iff.mp isLast
      exact notAbove update (mem_of_getLast? updateLast) (key, command) (by simp)
    have fresh : key ∉ updates.map fst := by
      intro occurs
      obtain ⟨update, member, rfl⟩ := mem_map.mp occurs
      obtain ⟨last, isLast⟩ : ∃ last, updates.getLast? = some last :=
        ⟨_, getLast?_eq_some_getLast (ne_nil_of_mem member)⟩
      have below := above last.1 (by simp [invariant.curKey, isLast])
      exact absurd (Merge.le_getLast sortedUpdates isLast member) (not_le.mpr below)
    obtain ⟨cursor, started, position⟩ :=
      state.startKey_eq trace key (invariant.position key above)
    have processed : InputUpsert.processUpdate patchFunc state (key, command) =
        { state.startKey key with
          curVal := command.apply patchFunc (currentValue trace key) } := by
      simp [InputUpsert.processUpdate, current, started]
    obtain ⟨complete, notBelow⟩ :=
      UpsertState.pushKeyUpdates_complete invariant.complete invariant.below
    rw [processed, started]
    refine ⟨by simp, complete, ?_, ?_, ?_, ?_, ?_⟩
    · intro group member
      obtain ⟨last, isLast, order⟩ := notBelow group member
      exact ⟨key, rfl, lt_of_le_of_lt order (above last isLast)⟩
    · intro later isLater
      exact position later (isLater key rfl)
    · intro other value different
      rw [changeOf_append_of_ne (by simpa using different), ← invariant.weightOf_pushKeyUpdates]
    · intro other isCurrent
      obtain rfl : key = other := by simpa using isCurrent
      have nothing : updates.filter (fun update => update.1 = key) = [] := by
        rw [filter_eq_nil_iff]
        intro update member same
        exact fresh (mem_map.mpr ⟨update, member, by simpa using same⟩)
      simp [valueAfter, filter_append, nothing]
    · intro other value isCurrent
      obtain rfl : key = other := by simpa using isCurrent
      refine ⟨?_, ?_⟩
      · simp only [invariant.weightOf_pushKeyUpdates, changeOf, if_neg fresh]
      · exact weightOf_map_neg _ _

/-- Replaying key-sorted commands establishes the invariant. -/
theorem of_sorted (patchFunc : V → P → V) (trace : IndexedZSet K V)
    (updates : List (K × Update V P))
    (sorted : updates.Pairwise fun first second => first.1 ≤ second.1) :
    ReplayInvariant patchFunc trace updates
      (updates.foldl (InputUpsert.processUpdate patchFunc) { cursor := valueCursor trace }) := by
  induction updates using reverseRecOn with
  | nil =>
    refine ⟨rfl, complete_empty, by simp, fun _ _ => rfl, ?_, by simp, by simp⟩
    simp [changeOf, Builder.tuples]
  | append_singleton _ _ ih =>
    have earlier := ih (pairwise_append.mp sorted).1
    rw [foldl_append]
    exact earlier.processUpdate sorted

end ReplayInvariant

/-- Vectors list their updates by ascending key. -/
def KeySorted (updates : List (List (K × Update V P))) : Prop :=
  ∀ vector ∈ updates, vector.Pairwise fun first second => first.1 ≤ second.1

variable {updates : List (List (K × Update V P))}

omit [LinearOrder V] in
theorem KeySorted.sortedSlices (sorted : KeySorted updates) :
    Merge.SortedSlices fst (updates.filterMap Merge.toSlice) := by
  intro slice member
  obtain ⟨vector, vectorMember, isSlice⟩ := mem_filterMap.mp member
  have vectorSorted := sorted vector vectorMember
  cases vector with
  | nil => simp [Merge.toSlice] at isSlice
  | cons update vector =>
    obtain rfl : (update, vector) = slice := by simpa [Merge.toSlice] using isSlice
    exact vectorSorted

theorem changeOf_congr {first second : List (K × Update V P)} {key : K}
    (same : first.filter (fun update => update.1 = key) =
      second.filter fun update => update.1 = key)
    (patchFunc : V → P → V) (trace : IndexedZSet K V) (value : V) :
    changeOf patchFunc trace first key value = changeOf patchFunc trace second key value := by
  have occurs : ∀ updates : List (K × Update V P), key ∈ updates.map fst ↔
      updates.filter (fun update => update.1 = key) ≠ [] := by
    simp [filter_eq_nil_iff]
  simp only [changeOf, valueAfter, same]
  exact if_congr (by rw [occurs, occurs, same]) rfl rfl

namespace InputUpsert

variable (patchFunc : V → P → V)

omit [LinearOrder V] in
/-- Each key's updates are applied vector by vector. -/
theorem filter_mergeUpdates (sorted : KeySorted updates) (key : K) :
    (mergeUpdates updates).filter (fun update => update.1 = key) =
      updates.flatten.filter fun update => update.1 = key := by
  have contents := Merge.contents_filterMap_toSlice updates
  have enough : (Merge.contents (updates.filterMap Merge.toSlice)).length ≤
      (updates.map length).sum := by
    rw [contents, length_flatten]
  rw [mergeUpdates, Merge.filter_merge sorted.sortedSlices _ enough, contents]

/-- The operator never fails on key-sorted vectors, and its batch changes every
weight as the replayed commands demand. -/
theorem eval_eq (trace : IndexedZSet K V) (sorted : KeySorted updates) :
    ∃ batch, eval patchFunc trace updates = some batch ∧
      ∀ key value, batch.weight key value =
        changeOf patchFunc trace updates.flatten key value := by
  have mergedSorted : (mergeUpdates updates).Pairwise fun first second => first.1 ≤ second.1 :=
    Merge.merge_sorted sorted.sortedSlices (fun _ _ below => below) _
  have invariant := ReplayInvariant.of_sorted patchFunc trace _ mergedSorted
  obtain ⟨complete, _⟩ := UpsertState.pushKeyUpdates_complete invariant.complete invariant.below
  refine ⟨_, by rw [eval, done, if_pos complete], ?_⟩
  intro key value
  rw [weight_ofTuples, invariant.weightOf_pushKeyUpdates]
  exact changeOf_congr (filter_mergeUpdates sorted key) patchFunc trace value

end InputUpsert

end OpenDera
