import OpenDera.Std.Relational

/-!
# Multiplicities of indexed Z-sets

An indexed Z-set without negative weights is a multiset, and one with weights zero and
one only is a set; `distinct` is the identity exactly on sets. On multisets the rows that
maps, joins and sums produce depend only on the rows they read, not on how often those
occur: `SameRows` is preserved by them. So `distinct` after such an operator makes
`distinct` before it superfluous.
-/

variable {α : Type*} {tuples : List (α × ℤ)}

theorem weightOf_pos_iff [DecidableEq α] (nonneg : ∀ tuple ∈ tuples, 0 ≤ tuple.2) (element : α) :
    0 < weightOf tuples element ↔ ∃ tuple ∈ tuples, tuple.1 = element ∧ 0 < tuple.2 := by
  induction tuples with
  | nil => simp
  | cons tuple _ ih =>
    rw [List.forall_mem_cons] at nonneg
    have rest := weightOf_nonneg nonneg.2 element
    rw [weightOf_cons, List.exists_mem_cons_iff, ← ih nonneg.2]
    by_cases same : tuple.1 = element
    · rw [if_pos same]
      constructor
      · intro positive
        by_cases here : 0 < tuple.2
        · exact .inl ⟨same, here⟩
        · exact .inr (by omega)
      · rintro (⟨-, here⟩ | there) <;> omega
    · rw [if_neg same, zero_add]
      simp [same]

/-- Where no element is listed twice, keeping the elements of positive weight once gives
weight one to those and zero to the others. -/
theorem weightOf_filterMap_pos [DecidableEq α]
    (once : tuples.Pairwise fun first second => first.1 ≠ second.1) (element : α) :
    weightOf (tuples.filterMap fun tuple => if 0 < tuple.2 then some (tuple.1, 1) else none) element =
      if 0 < weightOf tuples element then 1 else 0 := by
  induction tuples with
  | nil => rfl
  | cons tuple tuples ih =>
    obtain ⟨others, rest⟩ := List.pairwise_cons.mp once
    have induction := ih rest
    by_cases same : tuple.1 = element
    · subst same
      have absent : weightOf tuples tuple.1 = 0 :=
        weightOf_eq_zero fun other member => (others other member).symm
      rw [absent] at induction
      rw [weightOf_cons, if_pos rfl, absent, add_zero, List.filterMap_cons]
      by_cases positive : 0 < tuple.2 <;> simp [positive, induction]
    · rw [weightOf_cons, if_neg same, zero_add, ← induction, List.filterMap_cons]
      by_cases positive : 0 < tuple.2 <;> simp [positive, same]

theorem flatMapTuples_filter (condition : α → Bool) (tuples : List (α × ℤ)) :
    flatMapTuples (fun element => if condition element then [element] else []) tuples =
      tuples.filter fun tuple => condition tuple.1 := by
  induction tuples with
  | nil => rfl
  | cons tuple _ ih =>
    rw [flatMapTuples, List.flatMap_cons, List.filter_cons, ← ih]
    by_cases kept : condition tuple.1 = true <;> simp [kept, flatMapTuples]

namespace IndexedZSet

open ZSet List

variable {K V O OK OV : Type*} [LinearOrder K] [LinearOrder V] [LinearOrder O] [LinearOrder OK]
  [LinearOrder OV] {batch : IndexedZSet K V}

theorem group_ne_zero_iff {key : K} :
    batch.group key ≠ 0 ↔ ∃ value, batch.weight key value ≠ 0 := by
  simp [ZSet.ext_iff, weight]

/-- The pairs a batch lists are those with a nonzero weight. -/
theorem mem_tuples {key : K} {value : V} {weight : ℤ} :
    ((key, value), weight) ∈ batch.tuples ↔ batch.weight key value = weight ∧ weight ≠ 0 := by
  simp only [tuples, mem_flatMap, mem_map, Prod.mk.injEq, Prod.exists]
  constructor
  · rintro ⟨_, values, listed, _, _, entry, ⟨rfl, rfl⟩, rfl⟩
    obtain ⟨rfl, -⟩ := mem_groups.mp listed
    exact mem_entries.mp entry
  · rintro ⟨rfl, nonzero⟩
    exact ⟨key, _, mem_groups.mpr ⟨rfl, group_ne_zero_iff.mpr ⟨value, nonzero⟩⟩, value, _,
      mem_entries.mpr ⟨rfl, nonzero⟩, ⟨rfl, rfl⟩, rfl⟩

variable (batch)

/-- No pair is listed twice. -/
theorem pairwise_tuples : batch.tuples.Pairwise fun first second => first.1 ≠ second.1 := by
  rw [tuples, pairwise_flatMap]
  constructor
  · intro entry _
    rw [pairwise_map]
    exact entry.2.sorted.imp fun less same => less.ne (congrArg Prod.snd same)
  · refine batch.sorted.imp ?_
    intro first second less one inFirst other inSecond same
    obtain ⟨_, -, rfl⟩ := mem_map.mp inFirst
    obtain ⟨_, -, rfl⟩ := mem_map.mp inSecond
    exact less.ne (Prod.mk.inj same).1

/-- No weight is negative. -/
def Nonneg : Prop :=
  ∀ key value, 0 ≤ batch.weight key value

/-- Every weight is zero or one. -/
def IsSet : Prop :=
  ∀ key value, batch.weight key value = 0 ∨ batch.weight key value = 1

theorem nonneg_zero : Nonneg (0 : IndexedZSet K V) :=
  fun _ _ => le_refl 0

theorem Nonneg.add {first second : IndexedZSet K V} (nonnegFirst : first.Nonneg)
    (nonnegSecond : second.Nonneg) : (first + second).Nonneg := fun key value => by
  rw [weight_add]
  exact add_nonneg (nonnegFirst key value) (nonnegSecond key value)

variable {batch}

theorem Nonneg.pos_iff (nonneg : batch.Nonneg) {key : K} {value : V} :
    0 < batch.weight key value ↔ batch.weight key value ≠ 0 :=
  (nonneg key value).lt_iff_ne'

theorem Nonneg.pos_of_mem (nonneg : batch.Nonneg)
    {tuple : (K × V) × ℤ} (member : tuple ∈ batch.tuples) : 0 < tuple.2 := by
  obtain ⟨⟨key, value⟩, weight⟩ := tuple
  obtain ⟨rfl, nonzero⟩ := mem_tuples.mp member
  exact nonneg.pos_iff.mpr nonzero

variable (batch)

theorem nonneg_ofTuples {tuples : List ((K × V) × ℤ)} (nonneg : ∀ tuple ∈ tuples, 0 ≤ tuple.2) :
    (ofTuples tuples).Nonneg := fun key value => by
  rw [weight_ofTuples]
  exact weightOf_nonneg nonneg _

section

variable {image : K × V → List (OK × OV)} {combine : K → V → O → OK × OV} {batch}
  {other : IndexedZSet K O} (nonneg : batch.Nonneg)

include nonneg

omit [LinearOrder OK] [LinearOrder OV] in
private theorem flatMap_nonneg_tuples :
    ∀ tuple ∈ flatMapTuples image batch.tuples, 0 ≤ tuple.2 := by
  simp only [flatMapTuples, mem_flatMap, mem_map]
  rintro _ ⟨tuple, member, _, _, rfl⟩
  exact (nonneg.pos_of_mem member).le

theorem Nonneg.flatMap : (flatMap image batch).Nonneg :=
  nonneg_ofTuples (flatMap_nonneg_tuples nonneg)

theorem flatMap_pos_iff {key : OK} {value : OV} : 0 < (flatMap image batch).weight key value ↔
      ∃ pair : K × V, 0 < batch.weight pair.1 pair.2 ∧ (key, value) ∈ image pair := by
  rw [flatMap, weight_ofTuples, weightOf_pos_iff (flatMap_nonneg_tuples nonneg)]
  simp only [flatMapTuples, mem_flatMap, mem_map]
  constructor
  · rintro ⟨_, ⟨⟨⟨oldKey, oldValue⟩, weight⟩, member, _, inImage, rfl⟩, rfl, positive⟩
    obtain ⟨rfl, -⟩ := mem_tuples.mp member
    exact ⟨(oldKey, oldValue), positive, inImage⟩
  · rintro ⟨pair, positive, inImage⟩
    exact ⟨_, ⟨(pair, _), mem_tuples.mpr ⟨rfl, positive.ne'⟩, _, inImage, rfl⟩, rfl, positive⟩

section

variable (nonnegOther : other.Nonneg)

include nonnegOther

omit [LinearOrder OK] [LinearOrder OV] in
private theorem join_nonneg_tuples :
    ∀ tuple ∈ batch.tuples.flatMap fun tuple => (other.group tuple.1.1).entries.map fun entry =>
      (combine tuple.1.1 tuple.1.2 entry.1, tuple.2 * entry.2), 0 ≤ tuple.2 := by
  simp only [mem_flatMap, mem_map]
  rintro _ ⟨tuple, member, ⟨value, weight⟩, entry, rfl⟩
  obtain ⟨rfl, -⟩ := mem_entries.mp entry
  exact mul_nonneg (nonneg.pos_of_mem member).le (nonnegOther _ _)

theorem Nonneg.join : (join combine batch other).Nonneg :=
  nonneg_ofTuples (join_nonneg_tuples nonneg nonnegOther)

theorem join_pos_iff {key : OK} {value : OV} : 0 < (join combine batch other).weight key value ↔
      ∃ oldKey first second, 0 < batch.weight oldKey first ∧ 0 < other.weight oldKey second ∧
        combine oldKey first second = (key, value) := by
  rw [join, weight_ofTuples, weightOf_pos_iff (join_nonneg_tuples nonneg nonnegOther)]
  simp only [mem_flatMap, mem_map]
  constructor
  · rintro ⟨_, ⟨⟨⟨oldKey, first⟩, weight⟩, member, ⟨second, factor⟩, entry, rfl⟩, same, positive⟩
    obtain ⟨rfl, -⟩ := mem_tuples.mp member
    obtain ⟨rfl, -⟩ := mem_entries.mp entry
    have both := (mul_pos_iff_of_pos_left (nonneg.pos_of_mem member)).mp positive
    exact ⟨oldKey, first, second, nonneg.pos_of_mem member, both, same⟩
  · rintro ⟨oldKey, first, second, positive, positiveOther, same⟩
    exact ⟨_, ⟨((oldKey, first), _), mem_tuples.mpr ⟨rfl, positive.ne'⟩, (second, _),
      mem_entries.mpr ⟨rfl, positiveOther.ne'⟩, rfl⟩, same, mul_pos positive positiveOther⟩

end

end

section

variable {batch}

@[simp] theorem weight_distinct (batch : IndexedZSet K V) (key : K) (value : V) :
    batch.distinct.weight key value = if 0 < batch.weight key value then 1 else 0 := by
  rw [distinct, weight_ofTuples, weightOf_filterMap_pos (pairwise_tuples batch), weightOf_tuples]

/-- `distinct` is the identity exactly on sets. -/
theorem distinct_eq_self_iff : batch.distinct = batch ↔ batch.IsSet := by
  constructor
  · intro same key value
    rw [← same, weight_distinct]
    split_ifs <;> simp
  · intro isSet
    ext key value
    rcases isSet key value with weight | weight <;> simp [weight]

/-- `distinct` keeps the rows of positive weight and nothing else. -/
theorem distinct_eq_distinct_iff {other : IndexedZSet K V} : batch.distinct = other.distinct ↔
    ∀ key value, 0 < batch.weight key value ↔ 0 < other.weight key value := by
  constructor
  · intro same key value
    have weights := congrArg (fun batch => batch.weight key value) same
    simp only [weight_distinct] at weights
    split_ifs at weights <;> omega
  · intro same
    ext key value
    simp only [weight_distinct, same]

theorem isSet_distinct (batch : IndexedZSet K V) : batch.distinct.IsSet := fun key value => by
  rw [weight_distinct]
  split_ifs <;> simp

theorem IsSet.nonneg (isSet : batch.IsSet) : batch.Nonneg := fun key value => by
  rcases isSet key value with weight | weight <;> simp [weight]

end

/-- Two multisets with the same rows. -/
structure SameRows (first second : IndexedZSet K V) : Prop where
  nonneg_first : first.Nonneg
  nonneg_second : second.Nonneg
  pos_iff : ∀ key value, 0 < first.weight key value ↔ 0 < second.weight key value

namespace SameRows

theorem zero : SameRows (0 : IndexedZSet K V) 0 := ⟨nonneg_zero, nonneg_zero, fun _ _ => Iff.rfl⟩

theorem of_distinct {batch : IndexedZSet K V} (nonneg : batch.Nonneg) :
    SameRows batch.distinct batch :=
  ⟨(isSet_distinct batch).nonneg, nonneg, fun key value => by rw [weight_distinct]; split_ifs <;> simp [*]⟩

variable {first second : IndexedZSet K V}

theorem add {first second third fourth : IndexedZSet K V} (left : SameRows first second)
    (right : SameRows third fourth) : SameRows (first + third) (second + fourth) := by
  refine ⟨left.nonneg_first.add right.nonneg_first, left.nonneg_second.add right.nonneg_second, ?_⟩
  intro key value
  rw [weight_add, weight_add]
  have leftIff := left.pos_iff key value
  have rightIff := right.pos_iff key value
  have := left.nonneg_first key value
  have := left.nonneg_second key value
  have := right.nonneg_first key value
  have := right.nonneg_second key value
  omega

theorem flatMap (same : SameRows first second) (image : K × V → List (OK × OV)) :
    SameRows (flatMap image first) (flatMap image second) := by
  refine ⟨same.nonneg_first.flatMap, same.nonneg_second.flatMap, ?_⟩
  intro key value
  simp only [flatMap_pos_iff same.nonneg_first, flatMap_pos_iff same.nonneg_second, same.pos_iff]

theorem join {third fourth : IndexedZSet K O} (left : SameRows first second)
    (right : SameRows third fourth) (combine : K → V → O → OK × OV) :
    SameRows (join combine first third) (join combine second fourth) := by
  refine ⟨left.nonneg_first.join right.nonneg_first, left.nonneg_second.join right.nonneg_second, ?_⟩
  intro key value
  simp only [join_pos_iff left.nonneg_first right.nonneg_first,
    join_pos_iff left.nonneg_second right.nonneg_second, left.pos_iff, right.pos_iff]

end SameRows

variable (condition : K × V → Bool) (batch : IndexedZSet K V)

theorem weight_filter (key : K) (value : V) : (filter condition batch).weight key value =
      if condition (key, value) then batch.weight key value else 0 := by
  rw [filter, flatMap, weight_ofTuples, flatMapTuples_filter, weightOf_filter, weightOf_tuples]

/-- Filtering and `distinct` commute. -/
theorem distinct_filter : (filter condition batch).distinct = filter condition batch.distinct := by
  ext key value
  rw [weight_distinct, weight_filter, weight_filter, weight_distinct]
  split_ifs <;> simp_all

end IndexedZSet
