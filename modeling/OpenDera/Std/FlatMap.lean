import Mathlib.Algebra.BigOperators.Ring.Finset
import OpenDera.Std.IndexedZSet

/-!
# Mapping Z-sets element by element

`flatMap` replaces every element of a Z-set by a list of elements that inherit its
weight. It is linear, so it may be applied to changes or to their sum, and on an
indexed Z-set that keeps its keys it acts on each group alone.
-/

variable {α β : Type*}

/-- Replace every element by a list of elements of the same weight. -/
def flatMapTuples (image : α → List β) (tuples : List (α × ℤ)) : List (β × ℤ) :=
  tuples.flatMap fun tuple => (image tuple.1).map fun element => (element, tuple.2)

variable (image : α → List β)

open List

theorem flatMapTuples_append (first second : List (α × ℤ)) : flatMapTuples image (first ++ second) =
      flatMapTuples image first ++ flatMapTuples image second :=
  flatMap_append

theorem flatMapTuples_map_key {K : Type*} (key : K) (tuples : List (α × ℤ)) :
    flatMapTuples (fun pair : K × α => (image pair.2).map fun value => (pair.1, value))
        (tuples.map fun tuple => ((key, tuple.1), tuple.2)) =
      (flatMapTuples image tuples).map fun tuple => ((key, tuple.1), tuple.2) := by
  simp [flatMapTuples, flatMap_map, map_flatMap, Function.comp_def]

section

variable [DecidableEq α] [DecidableEq β]

/-- Elements of one weight add up to it times their number. -/
theorem weightOf_map_const (elements : List β) (weight : ℤ) (element : β) :
    weightOf (elements.map fun element => (element, weight)) element =
      weight * elements.count element := by
  induction elements with
  | nil => simp
  | cons head _ ih =>
    rw [map_cons, weightOf_cons, ih, count_cons]
    by_cases same : head = element
    · simp [same, mul_add, add_comm]
    · simp [same]

theorem weightOf_map_const_of_nodup {elements : List β} (distinct : elements.Nodup) (weight : ℤ)
    (element : β) :
    weightOf (elements.map fun element => (element, weight)) element =
      if element ∈ elements then weight else 0 := by
  rw [weightOf_map_const]
  split_ifs with member
  · simp [count_eq_one_of_mem distinct member]
  · simp [count_eq_zero_of_not_mem member]

/-- The weight of an element of the image, summed over any elements that cover the
tuples. -/
theorem weightOf_flatMapTuples (tuples : List (α × ℤ)) (element : β)
    (cover : Finset α) (covered : ∀ tuple ∈ tuples, tuple.1 ∈ cover) :
    weightOf (flatMapTuples image tuples) element =
      ∑ source ∈ cover, weightOf tuples source * (image source).count element := by
  induction tuples with
  | nil => simp [flatMapTuples]
  | cons _ _ ih =>
    rw [forall_mem_cons] at covered
    have rest := ih covered.2
    rw [flatMapTuples] at rest
    rw [flatMapTuples, flatMap_cons, weightOf_append, rest, weightOf_map_const]
    simp [add_mul, Finset.sum_add_distrib, covered.1]

variable {first second : List (α × ℤ)}
  (same : ∀ element, weightOf first element = weightOf second element)

include same

/-- The weights of the image depend only on the weights of the source. -/
theorem weightOf_flatMapTuples_congr (element : β) : weightOf (flatMapTuples image first) element =
      weightOf (flatMapTuples image second) element := by
  have cover : ∀ tuple ∈ first ++ second, tuple.1 ∈ ((first ++ second).map Prod.fst).toFinset :=
    fun tuple member => mem_toFinset.mpr (mem_map_of_mem member)
  rw [weightOf_flatMapTuples image first element _ fun tuple member =>
      cover tuple (mem_append_left _ member),
    weightOf_flatMapTuples image second element _ fun tuple member =>
      cover tuple (mem_append_right _ member)]
  simp only [same]

/-- So do the weights of any selection of elements, added up. -/
theorem sum_filter_congr (keep : α → Bool) :
    ((first.filter fun tuple => keep tuple.1).map Prod.snd).sum =
      ((second.filter fun tuple => keep tuple.1).map Prod.snd).sum := by
  have collapse : ∀ tuples : List (α × ℤ),
      weightOf (flatMapTuples (fun element => if keep element then [()] else []) tuples) () =
        ((tuples.filter fun tuple => keep tuple.1).map Prod.snd).sum := by
    intro tuples
    rw [flatMapTuples, weightOf_flatMap]
    induction tuples with
    | nil => rfl
    | cons _ _ ih =>
      rw [map_cons, sum_cons, ih, filter_cons]
      split_ifs <;> simp
  rw [← collapse, ← collapse]
  exact weightOf_flatMapTuples_congr _ same ()

end

namespace ZSet

variable [LinearOrder α] [LinearOrder β]

/-- Replace every element of a Z-set by a list of elements of the same weight. -/
def flatMap (image : α → List β) (zset : ZSet α) : ZSet β :=
  ofTuples (flatMapTuples image zset.entries)

theorem flatMap_ofTuples (tuples : List (α × ℤ)) :
    flatMap image (ofTuples tuples) = ofTuples (flatMapTuples image tuples) := by
  ext element
  rw [flatMap, weight_ofTuples, weight_ofTuples]
  exact weightOf_flatMapTuples_congr image (fun source => weight_ofTuples tuples source) element

@[simp] theorem flatMap_zero : flatMap image 0 = 0 := rfl

theorem flatMap_add (first second : ZSet α) :
    flatMap image (first + second) = flatMap image first + flatMap image second := by
  change flatMap image (ofTuples (first.entries ++ second.entries)) = _
  rw [flatMap_ofTuples, flatMapTuples_append, ofTuples_append]
  rfl

end ZSet

namespace IndexedZSet

variable {K : Type*} [LinearOrder K] [LinearOrder α] [LinearOrder β]

/-- Replace every value of an indexed Z-set by a list of values under the same key. -/
def flatMapIndex (image : α → List β) (batch : IndexedZSet K α) : IndexedZSet K β :=
  ofTuples (flatMapTuples (fun pair => (image pair.2).map fun value => (pair.1, value))
    batch.tuples)

/-- Keys are kept, so every group is replaced on its own. -/
theorem group_flatMapIndex (batch : IndexedZSet K α) (key : K) :
    (batch.flatMapIndex image).group key = (batch.group key).flatMap image := by
  ext value
  change (batch.flatMapIndex image).weight key value = _
  rw [flatMapIndex, weight_ofTuples, tuples, group, ZSet.flatMap]
  have sorted := batch.sorted
  generalize batch.groups = groups at sorted
  induction groups with
  | nil => simp [flatMapTuples]
  | cons entry _ ih =>
    obtain ⟨headKey, values⟩ := entry
    rw [flatMap_cons, flatMapTuples_append, weightOf_append, flatMapTuples_map_key,
      weightOf_map_key, ih sorted.tail, SortedMap.lookup_cons_ite]
    by_cases same : headKey = key
    · subst same
      rw [SortedMap.lookup_eq_none_of_lt fun other member => sorted.head_lt member]
      simp [flatMapTuples]
    · simp [same, Ne.symm same]

/-- Replacing the values of batches replaces those of their sum. -/
theorem flatMapIndex_sum (batches : List (IndexedZSet K α)) :
    (batches.map fun batch => batch.flatMapIndex image).sum = batches.sum.flatMapIndex image := by
  refine ext_group fun key => ?_
  rw [group_flatMapIndex]
  induction batches with
  | nil => rfl
  | cons _ _ ih =>
    rw [map_cons, sum_cons, sum_cons, group_add, group_add, ih,
      group_flatMapIndex, ZSet.flatMap_add]

/-- A sum over the groups of a batch may be taken over any keys that cover them. -/
theorem sum_groups (measure : K → ZSet α → ℤ) (zero : ∀ key, measure key 0 = 0)
    (batch : IndexedZSet K α) {cover : Finset K}
    (covered : ∀ entry ∈ batch.groups, entry.1 ∈ cover) :
    (batch.groups.map fun entry => measure entry.1 entry.2).sum =
      ∑ key ∈ cover, measure key (batch.group key) := by
  simp only [group]
  have sorted := batch.sorted
  generalize batch.groups = groups at sorted covered
  induction groups with
  | nil => simp [zero]
  | cons entry groups ih =>
    rw [forall_mem_cons] at covered
    have split : ∀ key, measure key (((entry :: groups).lookup key).getD 0) =
        (if entry.1 = key then measure entry.1 entry.2 else 0) +
          measure key ((groups.lookup key).getD 0) := by
      intro key
      have head := SortedMap.lookup_cons_ite key entry.1 entry.2 groups
      rw [head]
      by_cases same : entry.1 = key
      · subst same
        rw [SortedMap.lookup_eq_none_of_lt fun other member => sorted.head_lt member]
        simp [zero]
      · simp [same, Ne.symm same]
    simp only [split, Finset.sum_add_distrib, ← ih sorted.tail covered.2]
    simp [covered.1]

/-- A sum over the groups of a batch to which only one key contributes. -/
theorem sum_groups_at {measure : K → ZSet α → ℤ} {key : K}
    (elsewhere : ∀ other values, other ≠ key → measure other values = 0)
    (zero : measure key 0 = 0) (batch : IndexedZSet K α) :
    (batch.groups.map fun entry => measure entry.1 entry.2).sum =
      measure key (batch.group key) := by
  have zeros : ∀ other, measure other 0 = 0 := fun other => by
    by_cases same : other = key
    · rw [same, zero]
    · exact elsewhere other 0 same
  have covered : ∀ entry ∈ batch.groups,
      entry.1 ∈ insert key (batch.groups.map Prod.fst).toFinset := fun entry member =>
    Finset.mem_insert_of_mem (mem_toFinset.mpr (mem_map_of_mem member))
  rw [sum_groups measure zeros batch covered]
  exact Finset.sum_eq_single_of_mem key (Finset.mem_insert_self _ _) fun other _ different =>
    elsewhere other _ different

end IndexedZSet
