import Mathlib.Tactic.Abel
import OpenDera.Std.ChunkBuffer

/-!
# Batch builders

A builder receives the values of a key with their weights, then the key, and so
on in ascending order. It does not sort or consolidate: what it is given is the
batch. `done` therefore succeeds only on a sequence of pushes that is a batch:
strictly ascending keys, each with strictly ascending values of nonzero weight.
-/

namespace OpenDera

open IndexedZSet List ChunkBuffer SortedMap.Sorted

/-- The groups completed by a key and the values pushed since. -/
structure Builder (K V : Type*) where
  groups : List (K × List (V × ℤ)) := []
  vals : List (V × ℤ) := []

namespace Builder

variable {K V : Type*}

/-- Push a value with its weight. -/
def pushValDiff (builder : Builder K V) (value : V) (weight : ℤ) : Builder K V :=
  { builder with vals := builder.vals ++ [(value, weight)] }

variable (builder : Builder K V)

/-- Complete the values pushed since the last key by their key. -/
def pushKey (key : K) : Builder K V :=
  { groups := builder.groups ++ [(key, builder.vals)], vals := [] }

/-- The number of values pushed. -/
def numTuples : Nat :=
  (builder.groups.map fun group => group.2.length).sum + builder.vals.length

/-- The weighted pairs of the completed groups. -/
def tuples : List ((K × V) × ℤ) :=
  builder.groups.flatMap fun group => group.2.map fun value => ((group.1, value.1), value.2)

variable [LinearOrder K] [LinearOrder V] (values : List (V × ℤ))

/-- Values as a batch stores them under one key. -/
def WellFormedGroup : Prop :=
  SortedMap.Sorted values ∧ (∀ entry ∈ values, entry.2 ≠ 0) ∧ values ≠ []

instance (values : List (V × ℤ)) : Decidable (WellFormedGroup values) :=
  inferInstanceAs (Decidable (_ ∧ _ ∧ _))

/-- The pushes so far form a batch. -/
def Complete (builder : Builder K V) : Prop := builder.vals = [] ∧ SortedMap.Sorted builder.groups ∧
    ∀ group ∈ builder.groups, WellFormedGroup group.2

instance (builder : Builder K V) : Decidable builder.Complete :=
  inferInstanceAs (Decidable (_ ∧ _ ∧ _))

/-- The batch that was pushed, or nothing if the pushes were not a batch. -/
def done (builder : Builder K V) : Option (IndexedZSet K V) :=
  if builder.Complete then some (ofTuples builder.tuples) else none

theorem complete_empty : ({} : Builder K V).Complete :=
  ⟨rfl, nil, by simp⟩

omit [LinearOrder K] [LinearOrder V] in
/-- Pushing a list of values appends them. -/
theorem foldl_pushValDiff (builder : Builder K V) :
    values.foldl (fun builder value => builder.pushValDiff value.1 value.2) builder =
      { builder with vals := builder.vals ++ values } := by
  induction values generalizing builder with
  | nil => simp
  | cons _ _ ih =>
    rw [foldl_cons, ih]
    simp [pushValDiff]

variable {builder}

/-- A well-formed group under a greater key keeps the builder complete. -/
theorem Complete.pushGroup (complete : builder.Complete) {key : K}
    {values : List (V × ℤ)} (wellFormed : WellFormedGroup values)
    (above : ∀ group ∈ builder.groups, group.1 < key) :
    ({ builder with vals := builder.vals ++ values }.pushKey key).Complete := by
  obtain ⟨noVals, sorted, groups⟩ := complete
  refine ⟨rfl, ?_, ?_⟩
  · refine pairwise_append.mpr ⟨sorted, by simp, ?_⟩
    intro group member last lastMember
    rw [mem_singleton.mp lastMember]
    exact above group member
  · intro group member
    rcases mem_append.mp member with member | member
    · exact groups group member
    · obtain rfl := mem_singleton.mp member
      simpa [noVals] using wellFormed

omit [LinearOrder K] [LinearOrder V] in
theorem tuples_pushGroup (noVals : builder.vals = []) (key : K) (values : List (V × ℤ)) :
    ({ builder with vals := builder.vals ++ values }.pushKey key).tuples =
      builder.tuples ++ values.map fun value => ((key, value.1), value.2) := by
  simp [tuples, pushKey, noVals]

end Builder

/-! ## Builders that emit chunks -/

/-- The builder of the current chunk and the chunks handed out before. -/
structure ChunkedBuilder (K V : Type*) [LinearOrder K] [LinearOrder V] where
  builder : Builder K V := {}
  hasValues : Bool := false
  yielded : List (IndexedZSet K V × Bool) := []

namespace ChunkedBuilder

variable {K V : Type*} [LinearOrder K] [LinearOrder V] (output : ChunkedBuilder K V)

/-- Push a value of the current key. -/
def pushValDiff (value : V) (weight : ℤ) : ChunkedBuilder K V :=
  { output with builder := output.builder.pushValDiff value weight, hasValues := true }

/-- Push the key if values were pushed for it. -/
def finishKey (key : K) : ChunkedBuilder K V :=
  if output.hasValues then
    { output with builder := output.builder.pushKey key, hasValues := false }
  else
    output

variable (chunkSize : Nat)

/-- Hand out the batch if it is large enough, in the middle of `key`. -/
def yieldFull (key : K) : Option (ChunkedBuilder K V) :=
  if chunkSize ≤ output.builder.numTuples then do
    let output := output.finishKey key
    let batch ← output.builder.done
    return { output with builder := {}, yielded := output.yielded ++ [(batch, false)] }
  else
    some output

/-- Hand out the rest as the completing chunk. -/
def finish : Option (List (IndexedZSet K V × Bool)) := do
  let batch ← output.builder.done
  return output.yielded ++ [(batch, true)]

/-- One iteration of a loop over the values of `key`: push its updates, then see
whether the chunk is full. -/
def pushAll (key : K) (output : ChunkedBuilder K V)
    (updates : List (V × ℤ)) : Option (ChunkedBuilder K V) :=
  (updates.foldl (fun output update => output.pushValDiff update.1 update.2) output).yieldFull
    chunkSize key

/-- All iterations for `key`, then the key itself. -/
def pushGroup (key : K) (output : ChunkedBuilder K V)
    (iterations : List (List (V × ℤ))) : Option (ChunkedBuilder K V) := do
  let output ← iterations.foldlM (pushAll chunkSize key) output
  return output.finishKey key

/-- Everything handed out or pushed under a key, and the values whose key is owed. -/
def total (key : K) : IndexedZSet K V :=
  sumOf output.yielded + ofTuples
    (output.builder.tuples ++ output.builder.vals.map fun value => ((key, value.1), value.2))

/-- Everything handed out or pushed, when no key is owed. -/
def settledTotal : IndexedZSet K V :=
  sumOf output.yielded + ofTuples output.builder.tuples

variable (output : ChunkedBuilder K V)

/-- The state inside the loop over the values of `key`: finished groups lie below the
key, pending values are ascending and owed their key. -/
structure Inside (key : K) : Prop where
  groups : { output.builder with vals := [] }.Complete
  below : ∀ group ∈ output.builder.groups, group.1 < key
  sorted : SortedMap.Sorted output.builder.vals
  nonzero : ∀ value ∈ output.builder.vals, value.2 ≠ 0
  owed : output.hasValues = !output.builder.vals.isEmpty

/-- The state between keys: only finished groups. -/
structure Between : Prop where
  complete : output.builder.Complete
  settled : output.hasValues = false

theorem between_empty : ({} : ChunkedBuilder K V).Between :=
  ⟨Builder.complete_empty, rfl⟩

variable {output} {key : K}

theorem Between.inside (between : output.Between)
    (below : ∀ group ∈ output.builder.groups, group.1 < key) : output.Inside key := by
  obtain ⟨noVals, sorted, wellFormed⟩ := between.complete
  refine ⟨⟨rfl, sorted, wellFormed⟩, below, ?_, ?_, ?_⟩
  · rw [noVals]; exact nil
  · simp [noVals]
  · simp [noVals, between.settled]

/-- Between keys nothing is owed, so the total does not depend on a key. -/
theorem Between.total_eq (between : output.Between) (key : K) :
    output.total key = output.settledTotal := by
  simp [total, settledTotal, between.complete.1]

/-- Finishing the key completes the builder and keeps the total. -/
theorem Inside.finishKey (inside : output.Inside key) :
    (output.finishKey key).Between ∧ (output.finishKey key).total key = output.total key ∧
      ∀ group ∈ (output.finishKey key).builder.groups, group.1 ≤ key := by
  obtain ⟨builder, hasValues, yielded⟩ := output
  obtain ⟨groups, vals⟩ := builder
  have owed : hasValues = !vals.isEmpty := inside.owed
  have notAbove : ∀ group ∈ groups, group.1 ≤ key := fun group member =>
    (inside.below group member).le
  cases vals with
  | nil =>
    obtain rfl : hasValues = false := by simpa using owed
    exact ⟨⟨inside.groups, rfl⟩, rfl, notAbove⟩
  | cons value vals =>
    obtain rfl : hasValues = true := by simpa using owed
    have complete := inside.groups.pushGroup
      ⟨inside.sorted, inside.nonzero, cons_ne_nil value vals⟩ inside.below
    refine ⟨⟨by simpa [ChunkedBuilder.finishKey] using complete, rfl⟩, ?_, ?_⟩
    · simp [total, ChunkedBuilder.finishKey, Builder.pushKey, Builder.tuples]
    · intro group member
      rcases mem_append.mp member with member | member
      · exact notAbove group member
      · rw [mem_singleton.mp member]

/-- Handing out a chunk keeps the total and forgets the values handed out. -/
theorem Inside.yieldFull (inside : output.Inside key) (chunkSize : Nat) :
    ∃ next, output.yieldFull chunkSize key = some next ∧ next.Inside key ∧
      next.total key = output.total key ∧
      (next.builder.vals = output.builder.vals ∨ next.builder.vals = []) := by
  unfold ChunkedBuilder.yieldFull
  split_ifs with full
  · obtain ⟨between, sameTotal, _⟩ := inside.finishKey
    refine ⟨{ output.finishKey key with
      builder := {}
      yielded := (output.finishKey key).yielded ++
        [(ofTuples (output.finishKey key).builder.tuples, false)] }, ?_, ?_, ?_,
      Or.inr rfl⟩
    · simp [Builder.done, between.complete]
    · exact ⟨Builder.complete_empty, by simp, nil, by simp, between.settled⟩
    · rw [← sameTotal]
      simp [total, sumOf, between.complete.1, Builder.tuples, ofTuples]
  · exact ⟨output, rfl, inside, rfl, Or.inl rfl⟩

theorem foldl_pushValDiff (output : ChunkedBuilder K V) (updates : List (V × ℤ)) :
    updates.foldl (fun output update => output.pushValDiff update.1 update.2) output =
      { output with
        builder := { output.builder with vals := output.builder.vals ++ updates }
        hasValues := output.hasValues || !updates.isEmpty } := by
  induction updates generalizing output with
  | nil => simp
  | cons _ _ ih =>
    rw [foldl_cons, ih]
    simp [pushValDiff, Builder.pushValDiff]

/-- Pushing ascending updates keeps the loop state and adds them to the total. -/
theorem Inside.pushUpdates (inside : output.Inside key) {updates : List (V × ℤ)}
    (sorted : SortedMap.Sorted (output.builder.vals ++ updates))
    (nonzero : ∀ update ∈ updates, update.2 ≠ 0) :
    let next := updates.foldl (fun output update => output.pushValDiff update.1 update.2) output
    next.Inside key ∧ next.builder.vals = output.builder.vals ++ updates ∧
      next.total key = output.total key +
        ofTuples (updates.map fun update => ((key, update.1), update.2)) := by
  rw [foldl_pushValDiff]
  refine ⟨⟨inside.groups, inside.below, sorted, ?_, ?_⟩, rfl, ?_⟩
  · intro value member
    rcases mem_append.mp member with member | member
    · exact inside.nonzero value member
    · exact nonzero value member
  · rw [inside.owed]
    cases output.builder.vals <;> simp
  · simp [total, Builder.tuples, ofTuples_append, add_assoc]

variable {iterations : List (List (V × ℤ))}

/-- All iterations for a key succeed on ascending updates and add them to the total. -/
theorem Inside.foldlM_pushAll (inside : output.Inside key) (chunkSize : Nat)
    (sorted : SortedMap.Sorted (output.builder.vals ++ iterations.flatten))
    (nonzero : ∀ update ∈ iterations.flatten, update.2 ≠ 0) :
    ∃ next, iterations.foldlM (pushAll chunkSize key) output = some next ∧ next.Inside key ∧
      next.total key = output.total key +
        ofTuples (iterations.flatten.map fun update => ((key, update.1), update.2)) := by
  induction iterations generalizing output with
  | nil => exact ⟨output, rfl, inside, by simp [ofTuples]⟩
  | cons _ iterations ih =>
    rw [flatten_cons, ← append_assoc] at sorted
    rw [flatten_cons, forall_mem_append] at nonzero
    obtain ⟨pushedInside, pushedVals, pushedTotal⟩ :=
      inside.pushUpdates (pairwise_append.mp sorted).1 nonzero.1
    obtain ⟨cut, yielded, cutInside, cutTotal, cutVals⟩ := pushedInside.yieldFull chunkSize
    have sortedRest : SortedMap.Sorted (cut.builder.vals ++ iterations.flatten) := by
      rcases cutVals with kept | emptied
      · rwa [kept, pushedVals]
      · rw [emptied, nil_append]
        exact (pairwise_append.mp sorted).2.1
    obtain ⟨next, folded, nextInside, nextTotal⟩ :=
      ih cutInside sortedRest nonzero.2
    refine ⟨next, ?_, nextInside, ?_⟩
    · rw [foldlM_cons, pushAll, yielded]
      exact folded
    · rw [nextTotal, cutTotal, pushedTotal, flatten_cons, map_append, ofTuples_append]
      abel

/-- A key's iterations succeed on ascending updates above all earlier keys. -/
theorem Between.pushGroup (between : output.Between)
    (below : ∀ group ∈ output.builder.groups, group.1 < key) (chunkSize : Nat)
    (sorted : SortedMap.Sorted iterations.flatten)
    (nonzero : ∀ update ∈ iterations.flatten, update.2 ≠ 0) :
    ∃ next, pushGroup chunkSize key output iterations = some next ∧ next.Between ∧
      next.settledTotal = output.settledTotal +
        ofTuples (iterations.flatten.map fun update => ((key, update.1), update.2)) ∧
      ∀ group ∈ next.builder.groups, group.1 ≤ key := by
  have noVals := between.complete.1
  obtain ⟨pushed, folded, inside, pushedTotal⟩ :=
    (between.inside below).foldlM_pushAll chunkSize (by simpa [noVals] using sorted) nonzero
  obtain ⟨nextBetween, nextTotal, notAbove⟩ := inside.finishKey
  refine ⟨_, by simp [ChunkedBuilder.pushGroup, folded], nextBetween, ?_, notAbove⟩
  rw [← nextBetween.total_eq key, ← between.total_eq key, nextTotal, pushedTotal]

/-- The chunks handed out add up to the total. -/
theorem Between.finish (between : output.Between) :
    ∃ chunks, output.finish = some chunks ∧ sumOf chunks = output.settledTotal := by
  refine ⟨output.yielded ++ [(ofTuples output.builder.tuples, true)], ?_, ?_⟩
  · simp [ChunkedBuilder.finish, Builder.done, between.complete]
  · simp [settledTotal, sumOf]

end ChunkedBuilder

end OpenDera
