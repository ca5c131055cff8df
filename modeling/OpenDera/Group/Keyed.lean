import OpenDera.Std.Run
import OpenDera.Trace.Builder
import OpenDera.Trace.Cursor

/-!
# Operators that maintain a table group by group

`Rank` and `RowNumber` keep, for every key, a table computed from the values of the key. On
a batch of changes they visit the changed keys in order, look the stored table of each key up
with a cursor that only moves forward, and push the differences that bring it up to date.
This module has the loop over keys around one function from the changes and the stored table
of a key to those differences, and what the loop maintains when the function maintains the
table of one key.
-/

namespace OpenDera.Group

open List IndexedZSet Cursor ChunkBuffer ChunkedBuilder

universe u v w

variable {K : Type u} {V : Type v} {Row : Type w} [LinearOrder K] [LinearOrder V] [LinearOrder Row]

/-- The differences for one key, iteration by iteration, from the changes of the key
and its stored table, if there is one. -/
abbrev GroupUpdate (V : Type v) (Row : Type w) [LinearOrder V] [LinearOrder Row] :=
  ZSet V → Option (ZSet Row) → List (List (Row × ℤ))

/-- What a cursor positioned by an exact seek of `key` stands on. -/
def storedUnder (key : K) (cursor : List (K × ZSet Row)) : Option (ZSet Row) := match cursor with
  | (found, rows) :: _ => if found = key then some rows else none
  | [] => none

variable (update : GroupUpdate V Row)

/-- The loop body for one changed key. -/
def evalKey (chunkSize : Nat)
    (state : ChunkedBuilder K Row × List (K × ZSet Row)) (changed : K × ZSet V) :
    Option (ChunkedBuilder K Row × List (K × ZSet Row)) := do
  let cursor := seekKey changed.1 state.2
  let output ← state.1.pushGroup chunkSize changed.1
    (update changed.2 (storedUnder changed.1 cursor))
  return (output, cursor)

/-- Visit all changed keys and hand out the differences in chunks. -/
def evalKeys (chunkSize : Nat) (delta : IndexedZSet K V)
    (trace : IndexedZSet K Row) : Option (List (IndexedZSet K Row × Bool)) := do
  let (output, _) ← delta.groups.foldlM (evalKey update chunkSize) ({}, trace.groups)
  output.finish

/-- The differences for a key are in the order a builder expects. -/
def Ordered (iterations : List (List (Row × ℤ))) : Prop :=
  SortedMap.Sorted iterations.flatten ∧ ∀ row ∈ iterations.flatten, row.2 ≠ 0

/-- The differences for one key under that key. -/
def keyed (key : K) (rows : List (Row × ℤ)) : IndexedZSet K Row :=
  ofTuples (rows.map fun row => ((key, row.1), row.2))

theorem group_keyed (key other : K) (rows : List (Row × ℤ)) :
    (keyed key rows).group other = if key = other then ZSet.ofTuples rows else 0 := by
  ext row
  have weightOf := weightOf_map_key rows key other row
  change (keyed key rows).weight other row = _
  rw [keyed, weight_ofTuples, weightOf]
  split_ifs <;> simp

/-- In a sum of differences under distinct keys, a key has its own. -/
theorem group_sum_keyed {Changes : Type v} (rows : K → Changes → List (Row × ℤ)) (key : K)
    {changes : List (K × Changes)} (sorted : SortedMap.Sorted changes) :
    (changes.map fun changed => keyed changed.1 (rows changed.1 changed.2)).sum.group key =
      ((changes.lookup key).map fun values => ZSet.ofTuples (rows key values)).getD 0 := by
  induction changes with
  | nil => simp
  | cons changed _ ih =>
    rw [map_cons, sum_cons, group_add, group_keyed, ih sorted.tail, SortedMap.lookup_cons_ite]
    by_cases same : key = changed.1
    · subst same
      have absent := SortedMap.lookup_eq_none_of_lt fun _ => sorted.head_lt
      simp [absent]
    · simp [same, Ne.symm same]

/-- A cursor finds what is stored under a key that it has not passed. -/
theorem storedUnder_seekKey (trace : IndexedZSet K Row) {key : K} {cursor : List (K × ZSet Row)}
    (position : seekKey key cursor = seekKey key trace.groups) :
    storedUnder key (seekKey key cursor) = trace.groups.lookup key := by
  rw [lookup_eq_seekKey trace.sorted, position]
  cases seekKey key trace.groups <;> rfl

section

variable (update : K → GroupUpdate V Row) (chunkSize : Nat) (trace : IndexedZSet K Row)

/-- The loop over the remaining changed keys succeeds and adds their differences. -/
theorem foldlM_evalKey {remaining : List (K × ZSet V)} (sorted : SortedMap.Sorted remaining)
    (ordered : ∀ changed ∈ remaining,
      Ordered (update changed.1 changed.2 (trace.groups.lookup changed.1)))
    (output : ChunkedBuilder K Row) (cursor : List (K × ZSet Row)) (between : output.Between)
    (below : ∀ changed ∈ remaining, ∀ group ∈ output.builder.groups, group.1 < changed.1)
    (position : ∀ changed ∈ remaining,
      seekKey changed.1 cursor = seekKey changed.1 trace.groups) :
    ∃ next cursor', remaining.foldlM (fun state changed =>
        evalKey (update changed.1) chunkSize state changed) (output, cursor) =
        some (next, cursor') ∧ next.Between ∧
      next.settledTotal = output.settledTotal + (remaining.map fun changed =>
        keyed changed.1 (update changed.1 changed.2 (trace.groups.lookup changed.1)).flatten).sum := by
  induction remaining generalizing output cursor with
  | nil => exact ⟨output, cursor, rfl, between, by simp⟩
  | cons changed _ ih =>
    obtain ⟨key, values⟩ := changed
    rw [forall_mem_cons] at ordered below position
    have stored := storedUnder_seekKey trace position.1
    obtain ⟨pushed, pushedSome, pushedBetween, pushedTotal, notAbove⟩ :=
      between.pushGroup below.1 chunkSize ordered.1.1 ordered.1.2
    obtain ⟨next, cursor', folded, nextBetween, nextTotal⟩ := ih sorted.tail
      ordered.2 pushed (seekKey key cursor) pushedBetween
      (fun other member group groupMember =>
        lt_of_le_of_lt (notAbove group groupMember) (sorted.head_lt member))
      (fun other member => by
        rw [seekKey_seekKey (sorted.head_lt member).le, position.2 other member])
    refine ⟨next, cursor', ?_, nextBetween, ?_⟩
    · have body : evalKey (update key) chunkSize (output, cursor) (key, values) =
          some (pushed, seekKey key cursor) := by
        simp only [evalKey, stored, pushedSome]
        rfl
      rw [foldlM_cons, body]
      exact folded
    · rw [nextTotal, pushedTotal, map_cons, sum_cons, add_assoc]
      rfl

/-- Evaluation succeeds and changes the table of every changed key by its differences. -/
theorem evalKeys_eq (delta : IndexedZSet K V) (ordered : ∀ key, delta.group key ≠ 0 →
      Ordered (update key (delta.group key) (trace.groups.lookup key))) :
    ∃ chunks, (delta.groups.foldlM (fun state changed => evalKey (update changed.1) chunkSize
        state changed) ({}, trace.groups)).bind (·.1.finish) = some chunks ∧
      ∀ key, (sumOf chunks).group key =
        if delta.group key = 0 then 0
        else ZSet.ofTuples (update key (delta.group key) (trace.groups.lookup key)).flatten := by
  obtain ⟨output, cursor, folded, between, total⟩ :=
    foldlM_evalKey update chunkSize trace delta.sorted (fun changed member => by
      obtain ⟨group, nonzero⟩ := mem_groups.mp member
      exact group ▸ ordered changed.1 (group ▸ nonzero))
    {} trace.groups between_empty (by simp) (by simp)
  obtain ⟨chunks, finished, sum⟩ := between.finish
  refine ⟨chunks, by simp [folded, finished], fun key => ?_⟩
  have empty : (settledTotal {} : IndexedZSet K Row) = 0 := by
    simp [settledTotal, sumOf, Builder.tuples, ofTuples]
  rw [sum, total, empty, zero_add,
    group_sum_keyed (fun key values => (update key values (trace.groups.lookup key)).flatten) key
      delta.sorted, delta.lookup_eq]
  split_ifs <;> simp

end

/-- One step of the circuit around such an operator: the changes, if the input is
complete in this step, and the number of tuples after which a chunk is handed out. -/
structure KeyedStep (K : Type u) (V : Type v) [LinearOrder K] [LinearOrder V] where
  delta : Option (IndexedZSet K V)
  chunkSize : Nat

variable (input : KeyedStep K V)

/-- The changes of a step, none when the input is not complete. -/
def KeyedStep.changes : IndexedZSet K V :=
  input.delta.getD 0

variable (inputs : List (KeyedStep K V))

/-- Everything that was put in. -/
def integral : IndexedZSet K V := (inputs.map KeyedStep.changes).sum

theorem integral_append_singleton
    (input : KeyedStep K V) : integral (inputs ++ [input]) = integral inputs + input.changes := by
  simp [integral]

/-- Evaluate the operator on the changes and the table before them. -/
def eval (delayedTrace : IndexedZSet K Row) : Option (List (IndexedZSet K Row × Bool)) :=
  match input.delta with
  | none => some [(0, true)]
  | some delta => evalKeys update input.chunkSize delta delayedTrace

variable (table : ZSet Row)

/-- The stored table a cursor finds for a key. -/
def found : Option (ZSet Row) :=
  if table = 0 then none else some table

/-- The table of a key after the changes of the key. -/
def newTable (delta : ZSet V) : ZSet Row :=
  if delta = 0 then table else table + ZSet.ofTuples (update delta (found table)).flatten

/-- Evaluation succeeds and leaves every key with its new table, if the differences of
every changed key are in order. -/
theorem eval_eq {update : GroupUpdate V Row} (input : KeyedStep K V) {trace : IndexedZSet K Row}
    (ordered : ∀ key, input.changes.group key ≠ 0 →
      Ordered (update (input.changes.group key) (found (trace.group key)))) :
    ∃ chunks, eval update input trace = some chunks ∧
      ∀ key, (trace + sumOf chunks).group key =
        newTable update (trace.group key) (input.changes.group key) := by
  obtain ⟨_ | delta, chunkSize⟩ := input
  · refine ⟨_, rfl, fun key => ?_⟩
    simp [sumOf, KeyedStep.changes, newTable]
  · simp only [KeyedStep.changes, Option.getD_some, found, newTable, ← lookup_eq] at ordered ⊢
    obtain ⟨chunks, evaluated, groups⟩ := evalKeys_eq (fun _ => update) chunkSize trace delta ordered
    refine ⟨chunks, evaluated, fun key => ?_⟩
    rw [group_add, groups key]
    split_ifs <;> simp

end OpenDera.Group
