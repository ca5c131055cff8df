import OpenDera.Std.ZSet

/-!
# Indexed Z-sets

A Z-set of key-value pairs arranged as nonempty groups of values under strictly
increasing keys. `group` reads the values of one key, and addition, negation and
consolidation all act on each group separately; `ext` lets every statement about
indexed Z-sets be proved on one weight at a time.
-/

/-- Nonempty groups of weighted values under strictly increasing keys. -/
structure IndexedZSet (K V : Type*) [LinearOrder K] [LinearOrder V] where
  groups : List (K × ZSet V)
  sorted : SortedMap.Sorted groups
  nonempty : ∀ entry ∈ groups, entry.2 ≠ 0

namespace IndexedZSet

open SortedMap

variable {K V : Type*} [LinearOrder K] [LinearOrder V]

instance : DecidableEq (IndexedZSet K V) := fun first second =>
  decidable_of_iff (first.groups = second.groups) (by cases first; cases second; simp)

variable (batch : IndexedZSet K V)

/-- The values stored under `key`, the empty Z-set when there are none. -/
def group (key : K) : ZSet V := (batch.groups.lookup key).getD 0

/-- The weight of `value` under `key`. -/
def weight (key : K) (value : V) : ℤ := (batch.group key).weight value

variable (key : K)

theorem lookup_eq :
    batch.groups.lookup key = if batch.group key = 0 then none else some (batch.group key) := by
  unfold group
  cases found : batch.groups.lookup key with
  | none => simp
  | some =>
    have nonempty := batch.nonempty _ ((mem_iff_lookup batch.sorted).mpr found)
    simpa using nonempty

/-- A group is listed exactly when it is nonempty and is the group of its key. -/
theorem mem_groups {batch : IndexedZSet K V} {key : K} {values : ZSet V} :
    (key, values) ∈ batch.groups ↔ batch.group key = values ∧ values ≠ 0 := by
  rw [mem_iff_lookup batch.sorted, lookup_eq]
  constructor
  · intro found
    split_ifs at found with absent
    rw [Option.some.injEq] at found
    exact ⟨found, found ▸ absent⟩
  · rintro ⟨rfl, nonempty⟩
    rw [if_neg nonempty]

variable {first second : IndexedZSet K V}

theorem ext_group (same : ∀ key, first.group key = second.group key) : first = second := by
  have groups : first.groups = second.groups := by
    apply eq_of_lookup_eq first.sorted second.sorted
    intro key
    rw [lookup_eq, lookup_eq, same]
  cases second
  cases groups
  rfl

@[ext]
theorem ext (same : ∀ key value, first.weight key value = second.weight key value) :
    first = second :=
  ext_group fun key => ZSet.ext (same key)

instance : Zero (IndexedZSet K V) := ⟨⟨[], SortedMap.Sorted.nil, by simp⟩⟩

@[simp] theorem group_zero : (0 : IndexedZSet K V).group key = 0 := rfl

variable (value : V)

@[simp] theorem weight_zero : (0 : IndexedZSet K V).weight key value = 0 := rfl

/-- Add a group of weighted values to the values of `key`. -/
def addGroup (key : K) (values : ZSet V) : IndexedZSet K V where
  groups := alter key
    (fun old => if old.getD 0 + values = 0 then none else some (old.getD 0 + values)) batch.groups
  sorted := sorted_alter batch.sorted _ _
  nonempty := by
    rintro ⟨other, total⟩ member
    rw [mem_iff_lookup (sorted_alter batch.sorted _ _), lookup_alter batch.sorted] at member
    split_ifs at member with same zero
    · rw [Option.some.injEq] at member
      exact member ▸ zero
    · exact batch.nonempty _ ((mem_iff_lookup batch.sorted).mpr member)

@[simp] theorem group_addGroup (other : K) (values : ZSet V) :
    (batch.addGroup key values).group other =
      batch.group other + if key = other then values else 0 := by
  unfold group
  simp only [addGroup]
  rw [lookup_alter batch.sorted]
  by_cases same : other = key
  · subst same
    rw [if_pos rfl, if_pos rfl]
    split_ifs with zero
    · exact zero.symm
    · rfl
  · rw [if_neg same, if_neg (Ne.symm same), add_zero]

section

variable (tuples : List ((K × V) × ℤ))

/-- Group, sort and consolidate a list of weighted key-value pairs. -/
def ofTuples : IndexedZSet K V :=
  tuples.foldl (fun batch tuple => batch.addGroup tuple.1.1 (ZSet.ofTuples [(tuple.1.2, tuple.2)])) 0

private theorem weight_foldl_addGroup (batch : IndexedZSet K V) (key : K) (value : V) :
    (tuples.foldl (fun batch tuple =>
      batch.addGroup tuple.1.1 (ZSet.ofTuples [(tuple.1.2, tuple.2)])) batch).weight key value =
      batch.weight key value + weightOf tuples (key, value) := by
  induction tuples generalizing batch with
  | nil => simp
  | cons tuple _ ih =>
    obtain ⟨⟨tupleKey, tupleValue⟩, tupleWeight⟩ := tuple
    rw [List.foldl_cons, ih, weightOf_cons, ← add_assoc]
    simp only [weight, group_addGroup, ZSet.weight_add, Prod.mk.injEq]
    by_cases sameKey : tupleKey = key <;> simp [sameKey]

/-- Consolidation keeps the total weight of every pair. -/
@[simp] theorem weight_ofTuples (key : K) (value : V) :
    (ofTuples tuples).weight key value = weightOf tuples (key, value) := by
  rw [ofTuples, weight_foldl_addGroup, weight_zero, zero_add]

end

/-- The weighted pairs of an indexed Z-set in the order a cursor visits them. -/
def tuples : List ((K × V) × ℤ) :=
  batch.groups.flatMap fun entry => entry.2.entries.map fun value => ((entry.1, value.1), value.2)

/-- Tagging every tuple with one key moves its weights under that key. -/
theorem weightOf_map_key (tuples : List (V × ℤ)) (key other : K) (value : V) :
    weightOf (tuples.map fun tuple => ((key, tuple.1), tuple.2)) (other, value) =
      if key = other then weightOf tuples value else 0 := by
  induction tuples with
  | nil => simp
  | cons _ _ ih =>
    rw [List.map_cons, weightOf_cons, ih]
    by_cases same : key = other <;> simp [same]

/-- Reading a batch group by group reads under a key what its group gives. -/
theorem weightOf_groups {groups : List (K × ZSet V)} (sorted : SortedMap.Sorted groups)
    (read : K → ZSet V → List (V × ℤ)) (key : K) (value : V) :
    weightOf (groups.flatMap fun entry =>
      (read entry.1 entry.2).map fun value => ((entry.1, value.1), value.2)) (key, value) =
      weightOf (((groups.lookup key).map (read key)).getD []) value := by
  induction groups with
  | nil => rfl
  | cons entry _ ih =>
    obtain ⟨headKey, values⟩ := entry
    rw [List.flatMap_cons, weightOf_append, ih sorted.tail, weightOf_map_key, lookup_cons_ite]
    by_cases same : headKey = key
    · subst same
      rw [lookup_eq_none_of_lt fun other member => sorted.head_lt member]
      simp
    · simp [same, Ne.symm same]

/-- The listed pairs carry exactly the weights of the batch. -/
@[simp] theorem weightOf_tuples : weightOf batch.tuples (key, value) = batch.weight key value := by
  rw [tuples, weightOf_groups batch.sorted fun _ values => values.entries]
  unfold weight group
  cases batch.groups.lookup key <;> rfl

@[simp] theorem ofTuples_tuples : ofTuples batch.tuples = batch := by
  ext key value
  rw [weight_ofTuples, weightOf_tuples]

instance : Add (IndexedZSet K V) := ⟨fun first second => ofTuples (first.tuples ++ second.tuples)⟩

variable (first second)

@[simp] theorem weight_add (key : K) (value : V) :
    (first + second).weight key value = first.weight key value + second.weight key value := by
  change (ofTuples (first.tuples ++ second.tuples)).weight key value = _
  rw [weight_ofTuples, weightOf_append, weightOf_tuples, weightOf_tuples]

@[simp] theorem group_add (key : K) :
    (first + second).group key = first.group key + second.group key := by
  ext value
  rw [ZSet.weight_add]
  exact weight_add first second key value

variable {first second}

/-- Negate every weight. -/
def neg : IndexedZSet K V :=
  ofTuples (batch.tuples.map fun tuple => (tuple.1, -tuple.2))

instance : Neg (IndexedZSet K V) := ⟨neg⟩

@[simp] theorem weight_neg : (-batch).weight key value = -batch.weight key value := by
  change (neg batch).weight key value = _
  rw [neg, weight_ofTuples, weightOf_map_neg, weightOf_tuples]

theorem ofTuples_map_neg :
    ofTuples (batch.tuples.map fun tuple => (tuple.1, -tuple.2)) = -batch := rfl

instance : AddCommGroup (IndexedZSet K V) :=
  { AddGroup.ofLeftAxioms (G := IndexedZSet K V)
      (fun first second third => by ext key value; simp [add_assoc])
      (fun batch => by ext key value; simp)
      (fun batch => by ext key value; simp) with
    add_comm := fun first second => by ext key value; simp [add_comm] }

@[simp] theorem weight_sub (first second : IndexedZSet K V) (key : K) (value : V) :
    (first - second).weight key value = first.weight key value - second.weight key value := by
  rw [sub_eq_add_neg, weight_add, weight_neg, sub_eq_add_neg]

/-- The weights of a sum of batches add up. -/
theorem weight_sum (batches : List (IndexedZSet K V)) (key : K) (value : V) :
    batches.sum.weight key value = (batches.map fun batch => batch.weight key value).sum := by
  induction batches with
  | nil => simp
  | cons _ _ ih => simp [ih]

theorem ofTuples_append (first second : List ((K × V) × ℤ)) :
    ofTuples (first ++ second) = ofTuples first + ofTuples second := by
  ext key value
  simp

/-- The groups whose key satisfies `keep`. -/
def filterKeys (keep : K → Bool) : IndexedZSet K V where
  groups := batch.groups.filter fun entry => keep entry.1
  sorted := batch.sorted.filter _
  nonempty := fun entry member => batch.nonempty entry (List.mem_filter.mp member).1

variable (keep : K → Bool)

@[simp] theorem group_filterKeys (key : K) :
    (batch.filterKeys keep).group key = if keep key then batch.group key else 0 := by
  have found : (batch.filterKeys keep).groups.lookup key =
      if keep key then batch.groups.lookup key else none :=
    lookup_filter_key batch.sorted keep key
  unfold group
  rw [found]
  split_ifs <;> rfl

@[simp] theorem weight_filterKeys (key : K) (value : V) :
    (batch.filterKeys keep).weight key value = if keep key then batch.weight key value else 0 := by
  unfold weight
  rw [group_filterKeys]
  split_ifs <;> rfl

@[simp] theorem filterKeys_zero : (0 : IndexedZSet K V).filterKeys keep = 0 := rfl

theorem filterKeys_add (first second : IndexedZSet K V) (keep : K → Bool) :
    (first + second).filterKeys keep = first.filterKeys keep + second.filterKeys keep := by
  ext key value
  simp only [weight_add, weight_filterKeys]
  split_ifs <;> simp

/-- Filtering looks only at the groups it keeps. -/
theorem filterKeys_congr {keep : K → Bool}
    (same : ∀ key, keep key → first.group key = second.group key) :
    first.filterKeys keep = second.filterKeys keep := by
  refine ext_group fun key => ?_
  rw [group_filterKeys, group_filterKeys]
  split_ifs with kept
  · exact same key kept
  · rfl

end IndexedZSet
