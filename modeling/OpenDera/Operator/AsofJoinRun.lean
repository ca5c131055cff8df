import OpenDera.Operator.AsofJoinCorrect

/-!
# Incremental asof-join equals asof-join

The batch asof-join joins every left value with its match under the same key. After any
sequence of changes on the two sides, the output of the operator adds up to the batch
asof-join of everything that was put in, however the output was cut into chunks.
-/

namespace OpenDera

open SortedMap IndexedZSet List ChunkBuffer

universe u

variable {K L R T OK OV : Type u} [LinearOrder K] [LinearOrder L]
  [LinearOrder R] [LinearOrder T] [LinearOrder OK] [LinearOrder OV]

namespace AsofJoin

variable (operator : AsofJoin K L R T OK OV) (left : IndexedZSet K L) (right : IndexedZSet K R)

/-- The asof-join of two collections: for every key and every left value with its weight
the output of the join function for it and its match, weighted by the product of the
weights, or for it alone if it has no match. -/
def batchJoin : IndexedZSet OK OV :=
  ofTuples (left.groups.flatMap fun group =>
    operator.joinRows group.1 1 group.2.entries (right.group group.1).entries)

/-- The weights of the batch join, summed over any keys that cover the left side. -/
theorem weight_batchJoin
    {cover : Finset K} (covered : ∀ group ∈ left.groups, group.1 ∈ cover) (outKey : OK)
    (outValue : OV) :
    (operator.batchJoin left right).weight outKey outValue =
      ∑ key ∈ cover, operator.joinWeight (outKey, outValue) key (left.group key)
        (right.group key) := by
  rw [batchJoin, weight_ofTuples, weightOf_flatMap]
  exact sum_groups (fun key values =>
    operator.joinWeight (outKey, outValue) key values (right.group key)) (fun _ => rfl) left covered

/-- The loops over the changed keys put out the tuples of each. -/
theorem total_foldl_evalItem (chunkSize : Nat) (trace1 : IndexedZSet K L)
    (trace2 : IndexedZSet K R) (items : List (K × Option (ZSet L) × Option (ZSet R)))
    (buffer : ChunkBuffer OK OV) :
    (items.foldl (operator.evalItem chunkSize trace1 trace2) buffer).total =
      buffer.total + ofTuples (items.flatMap fun changed =>
        operator.evalKey changed.1 (changed.2.1.getD 0).entries (changed.2.2.getD 0).entries
          (trace1.group changed.1).entries (trace2.group changed.1).entries) := by
  induction items generalizing buffer with
  | nil => simp [ofTuples]
  | cons _ _ ih =>
    rw [foldl_cons, ih, flatMap_cons, ofTuples_append, ← add_assoc]
    rw [evalItem, total_yieldFull, total_foldl total_pushVal]

variable {delta1 : IndexedZSet K L} {delta2 : IndexedZSet K R}

/-- What the walk over the changed keys finds for a key are the changes of the key. -/
theorem changes_of_mem_walk {changed : K × Option (ZSet L) × Option (ZSet R)}
    (member : changed ∈ outerJoin delta1.groups delta2.groups) :
    changed.2.1.getD 0 = delta1.group changed.1 ∧ changed.2.2.getD 0 = delta2.group changed.1 := by
  have found := (mem_iff_lookup (sorted_outerJoin delta1.sorted delta2.sorted)).mp member
  rw [lookup_outerJoin delta1.sorted delta2.sorted] at found
  rw [eq_of_both_eq_some found]
  exact ⟨rfl, rfl⟩

/-- A key that the walk does not visit has no changes. -/
theorem unchanged_of_not_mem_walk {key : K}
    (absent : key ∉ (outerJoin delta1.groups delta2.groups).map Prod.fst) :
    delta1.group key = 0 ∧ delta2.group key = 0 := by
  have notFound : (outerJoin delta1.groups delta2.groups).lookup key = none := by
    rw [lookup_eq_none_iff]
    intro changed member
    have differs : key ≠ changed.1 := fun same => absent (same ▸ mem_map_of_mem member)
    simpa using differs
  rw [lookup_outerJoin delta1.sorted delta2.sorted, both_eq_none_iff] at notFound
  rw [group, group, notFound.1, notFound.2]
  exact ⟨rfl, rfl⟩

/-- The tuples put out for the changed keys weigh what the joins of all keys change by. -/
theorem weightOf_walk (trace1 delta1 : IndexedZSet K L) (trace2 delta2 : IndexedZSet K R)
    (output : OK × OV) {cover : Finset K}
    (covered : ∀ changed ∈ outerJoin delta1.groups delta2.groups, changed.1 ∈ cover) :
    weightOf ((outerJoin delta1.groups delta2.groups).flatMap fun changed =>
        operator.evalKey changed.1 (changed.2.1.getD 0).entries (changed.2.2.getD 0).entries
          (trace1.group changed.1).entries (trace2.group changed.1).entries) output =
      ∑ key ∈ cover, (operator.joinWeight output key (delta1.group key + trace1.group key)
          (delta2.group key + trace2.group key) -
        operator.joinWeight output key (trace1.group key) (trace2.group key)) := by
  have sorted := sorted_outerJoin delta1.sorted delta2.sorted
  have distinct : ((outerJoin delta1.groups delta2.groups).map Prod.fst).Nodup :=
    pairwise_map.mpr (sorted.imp fun below => ne_of_lt below)
  let difference : K → ℤ := fun key =>
    operator.joinWeight output key (delta1.group key + trace1.group key)
        (delta2.group key + trace2.group key) -
      operator.joinWeight output key (trace1.group key) (trace2.group key)
  have perKey : ∀ changed ∈ outerJoin delta1.groups delta2.groups,
      weightOf (operator.evalKey changed.1 (changed.2.1.getD 0).entries
        (changed.2.2.getD 0).entries (trace1.group changed.1).entries
        (trace2.group changed.1).entries) output = (difference ∘ Prod.fst) changed := by
    intro changed member
    rw [(changes_of_mem_walk member).1, (changes_of_mem_walk member).2, weightOf_evalKey]
    rfl
  rw [weightOf_flatMap, map_congr_left perKey, ← map_map, ← sum_toFinset difference distinct]
  refine Finset.sum_subset ?_ ?_
  · intro key member
    obtain ⟨changed, visited, rfl⟩ := mem_map.mp (mem_toFinset.mp member)
    exact covered changed visited
  · intro key _ absent
    have unchanged := unchanged_of_not_mem_walk (mt mem_toFinset.mpr absent)
    simp [unchanged.1, unchanged.2]

/-- Evaluation puts out the change of the batch join. -/
theorem batchJoin_add (chunkSize : Nat) (trace1 delta1 : IndexedZSet K L)
    (trace2 delta2 : IndexedZSet K R) :
    operator.batchJoin trace1 trace2 + ((outerJoin delta1.groups delta2.groups).foldl
        (operator.evalItem chunkSize trace1 trace2) {}).total =
      operator.batchJoin (trace1 + delta1) (trace2 + delta2) := by
  ext outKey outValue
  let cover := (trace1.groups.map Prod.fst ++ (trace1 + delta1).groups.map Prod.fst ++
    (outerJoin delta1.groups delta2.groups).map Prod.fst).toFinset
  have before : ∀ group ∈ trace1.groups, group.1 ∈ cover := by
    intro group member
    simp only [cover, mem_toFinset, mem_append]
    exact .inl (.inl (mem_map_of_mem member))
  have after : ∀ group ∈ (trace1 + delta1).groups, group.1 ∈ cover := by
    intro group member
    simp only [cover, mem_toFinset, mem_append]
    exact .inl (.inr (mem_map_of_mem member))
  have walked : ∀ changed ∈ outerJoin delta1.groups delta2.groups,
      changed.1 ∈ cover := by
    intro changed member
    simp only [cover, mem_toFinset, mem_append]
    exact .inr (mem_map_of_mem member)
  rw [weight_add, total_foldl_evalItem, total_empty, zero_add,
    weight_ofTuples, weightOf_walk operator trace1 delta1 trace2 delta2 _ walked,
    weight_batchJoin operator trace1 trace2 before,
    weight_batchJoin operator _ _ after, ← Finset.sum_add_distrib]
  refine Finset.sum_congr rfl fun key _ => ?_
  rw [group_add, group_add, add_comm (trace1.group key),
    add_comm (trace2.group key), add_sub_cancel]

end AsofJoin

namespace AsofJoinCircuit

variable (inputs : List (AsofJoinStep K L R))

/-- Everything put in on the left. -/
def integral1 : IndexedZSet K L :=
  (inputs.map AsofJoinStep.delta1).sum

/-- Everything put in on the right. -/
def integral2 : IndexedZSet K R :=
  (inputs.map AsofJoinStep.delta2).sum

/-- What holds after any inputs. -/
structure Invariant (operator : AsofJoin K L R T OK OV) (inputs : List (AsofJoinStep K L R))
    (circuit : AsofJoinCircuit K L R OK OV) : Prop where
  trace1 : circuit.trace1 = integral1 inputs
  trace2 : circuit.trace2 = integral2 inputs
  output : circuit.output = operator.batchJoin (integral1 inputs) (integral2 inputs)

/-- One step keeps the invariant. -/
theorem step_invariant {operator : AsofJoin K L R T OK OV}
    {inputs : List (AsofJoinStep K L R)} {input : AsofJoinStep K L R}
    {circuit : AsofJoinCircuit K L R OK OV} (invariant : Invariant operator inputs circuit) :
    ∃ next, step operator circuit input = some next ∧
      Invariant operator (inputs ++ [input]) next := by
  refine ⟨_, rfl, ?_, ?_, ?_⟩
  · simp [integral1, invariant.trace1]
  · simp [integral2, invariant.trace2]
  · have sums : integral1 (inputs ++ [input]) = integral1 inputs + input.delta1 ∧
        integral2 (inputs ++ [input]) = integral2 inputs + input.delta2 := by
      simp [integral1, integral2]
    rw [sums.1, sums.2, ← operator.batchJoin_add input.chunkSize, invariant.trace1,
      invariant.trace2, invariant.output, sumOf_finish]

/-- Incremental asof-join equals asof-join: after any changes of the two sides, in any
steps and with any chunk sizes, the output adds up to the asof-join of the sums. -/
theorem output_eq_batchJoin (operator : AsofJoin K L R T OK OV)
    (inputs : List (AsofJoinStep K L R)) :
    ∃ circuit, Run.run (step operator) {} inputs = some circuit ∧
      circuit.output = operator.batchJoin (integral1 inputs) (integral2 inputs) := by
  have initially : Invariant operator [] ({} : AsofJoinCircuit K L R OK OV) := ⟨rfl, rfl, rfl⟩
  obtain ⟨circuit, reached, invariant⟩ := Run.invariant (fun _ => True) (Invariant operator)
    (fun _ _ _ => trivial) initially
    (fun inputs input circuit _ invariant => step_invariant invariant) inputs trivial
  exact ⟨circuit, reached, invariant.output⟩

/-- Values that are their own timestamps, joined to the pair of them. -/
def latest : AsofJoin ℕ ℕ ℕ ℕ ℕ ℕ where
  tsFunc1 := id
  tsFunc2 := id
  joinFunc _ left right := [(left, right.getD 0)]
  monotone1 := monotone_id
  monotone2 := monotone_id

/-- A right value that follows in a second step is a later match of the left value. -/
def twoSteps : List (AsofJoinStep ℕ ℕ ℕ) :=
  [⟨.ofTuples [((0, 5), 1)], .ofTuples [((0, 3), 1)], 1⟩, ⟨0, .ofTuples [((0, 4), 1)], 1⟩]

theorem output_eq_batchJoin_two_steps :
    ∃ circuit, Run.run (step latest) {} twoSteps = some circuit ∧
      circuit.output = .ofTuples [((5, 4), 1)] := by
  obtain ⟨circuit, reached, output⟩ := output_eq_batchJoin latest twoSteps
  exact ⟨circuit, reached, output.trans (by decide +kernel)⟩

end AsofJoinCircuit

end OpenDera
