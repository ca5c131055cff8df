import Mathlib.Algebra.Group.MinimalAxioms
import Mathlib.Algebra.Order.Ring.Int
import Mathlib.Algebra.BigOperators.Ring.List
import OpenDera.Std.SortedMap

/-!
# Z-sets

A Z-set assigns an integer weight to finitely many elements. `weightOf` reads an
unordered list of weighted tuples as such an assignment; `ZSet` is the ordered
and consolidated form, with strictly increasing elements and no zero weight, so
that two Z-sets with the same weights are the same value. `IndexedZSet` arranges
a Z-set of pairs as nonempty groups under strictly increasing keys, the form in
which a cursor visits it. Both form commutative groups under addition of weights.
-/

/-- Total weight that a list of weighted tuples gives to `element`. -/
def weightOf {α : Type*} [DecidableEq α] (tuples : List (α × ℤ)) (element : α) : ℤ :=
  (tuples.map fun tuple => if tuple.1 = element then tuple.2 else 0).sum

section

variable {α : Type*} [DecidableEq α]

@[simp] theorem weightOf_nil (element : α) : weightOf [] element = 0 := rfl

@[simp] theorem weightOf_cons (tuple : α × ℤ) (tuples : List (α × ℤ)) (element : α) :
    weightOf (tuple :: tuples) element =
      (if tuple.1 = element then tuple.2 else 0) + weightOf tuples element := by
  simp [weightOf]

@[simp] theorem weightOf_append (first second : List (α × ℤ)) (element : α) :
    weightOf (first ++ second) element = weightOf first element + weightOf second element := by
  simp [weightOf]

/-- The weights of a concatenation of lists add up. -/
theorem weightOf_flatMap {β : Type*} (items : List β) (tuples : β → List (α × ℤ)) (element : α) :
    weightOf (items.flatMap tuples) element =
      (items.map fun item => weightOf (tuples item) element).sum := by
  induction items with
  | nil => simp
  | cons _ _ ih => simp [ih]

variable {tuples : List (α × ℤ)}

theorem weightOf_eq_zero {element : α}
    (absent : ∀ tuple ∈ tuples, tuple.1 ≠ element) : weightOf tuples element = 0 := by
  induction tuples with
  | nil => simp
  | cons tuple _ ih =>
    rw [weightOf_cons, if_neg (absent tuple List.mem_cons_self), zero_add]
    exact ih fun other member => absent other (List.mem_cons_of_mem _ member)

/-- Filtering by the element keeps or drops its whole weight. -/
theorem weightOf_filter (keep : α → Bool) (tuples : List (α × ℤ)) (element : α) :
    weightOf (tuples.filter fun tuple => keep tuple.1) element =
      if keep element then weightOf tuples element else 0 := by
  induction tuples with
  | nil => simp
  | cons tuple _ ih =>
    by_cases same : tuple.1 = element
    · subst same
      by_cases kept : keep tuple.1 = true <;> simp [kept, ih]
    · by_cases kept : keep tuple.1 = true <;> simp [kept, same, ih]

theorem weightOf_nonneg (nonneg : ∀ tuple ∈ tuples, 0 ≤ tuple.2)
    (element : α) : 0 ≤ weightOf tuples element := by
  induction tuples with
  | nil => simp
  | cons _ _ ih =>
    rw [List.forall_mem_cons] at nonneg
    have rest := ih nonneg.2
    rw [weightOf_cons]
    split_ifs <;> omega

theorem weightOf_map_neg (tuples : List (α × ℤ)) (element : α) :
    weightOf (tuples.map fun tuple => (tuple.1, -tuple.2)) element =
      -weightOf tuples element := by
  induction tuples with
  | nil => simp
  | cons _ _ ih =>
    rw [List.map_cons, weightOf_cons, weightOf_cons, ih]
    split_ifs
    · exact (neg_add _ _).symm
    · rw [zero_add, zero_add]

theorem weightOf_perm {first second : List (α × ℤ)} (permuted : first.Perm second) (element : α) :
    weightOf first element = weightOf second element :=
  (permuted.map _).sum_eq

/-- In a sorted list of tuples the weight of an element is what lookup finds. -/
theorem weightOf_eq_lookup {α : Type*} [LinearOrder α] {tuples : List (α × ℤ)}
    (sorted : SortedMap.Sorted tuples) (element : α) :
    weightOf tuples element = (tuples.lookup element).getD 0 := by
  induction tuples with
  | nil => rfl
  | cons tuple tuples ih =>
    obtain ⟨head, weight⟩ := tuple
    rw [weightOf_cons, SortedMap.lookup_cons_ite]
    by_cases same : head = element
    · subst same
      have absent : weightOf tuples head = 0 :=
        weightOf_eq_zero fun other member => (sorted.head_lt member).ne'
      simp [absent]
    · rw [if_neg same, if_neg (Ne.symm same), zero_add, ih sorted.tail]

end

/-- A finite assignment of nonzero weights in strictly increasing element order. -/
structure ZSet (α : Type*) [LinearOrder α] where
  entries : List (α × ℤ)
  sorted : SortedMap.Sorted entries
  nonzero : ∀ entry ∈ entries, entry.2 ≠ 0

namespace ZSet

open SortedMap

variable {α : Type*} [LinearOrder α]

instance : DecidableEq (ZSet α) := fun first second =>
  decidable_of_iff (first.entries = second.entries) (by cases first; cases second; simp)

variable (zset : ZSet α) (element : α)

/-- The weight of `element`, zero when it is absent. -/
def weight : ℤ := weightOf zset.entries element

theorem lookup_eq : zset.entries.lookup element =
      if zset.weight element = 0 then none else some (zset.weight element) := by
  unfold weight
  rw [weightOf_eq_lookup zset.sorted]
  cases found : zset.entries.lookup element with
  | none => simp
  | some =>
    have nonzero := zset.nonzero _ ((mem_iff_lookup zset.sorted).mpr found)
    simpa using nonzero

/-- An entry is present exactly when its weight is nonzero and is the element's weight. -/
theorem mem_entries {zset : ZSet α} {element : α} {weight : ℤ} :
    (element, weight) ∈ zset.entries ↔ zset.weight element = weight ∧ weight ≠ 0 := by
  rw [mem_iff_lookup zset.sorted, lookup_eq]
  constructor
  · intro found
    split_ifs at found with absent
    rw [Option.some.injEq] at found
    exact ⟨found, found ▸ absent⟩
  · rintro ⟨rfl, nonzero⟩
    rw [if_neg nonzero]

@[ext]
theorem ext {first second : ZSet α} (same : ∀ element, first.weight element = second.weight element) :
    first = second := by
  have entries : first.entries = second.entries := by
    apply eq_of_lookup_eq first.sorted second.sorted
    intro element
    rw [lookup_eq, lookup_eq, same]
  cases second
  cases entries
  rfl

instance : Zero (ZSet α) := ⟨⟨[], SortedMap.Sorted.nil, by simp⟩⟩

@[simp] theorem weight_zero : (0 : ZSet α).weight element = 0 := rfl

@[simp] theorem entries_zero : (0 : ZSet α).entries = [] := rfl

theorem entries_eq_nil_iff {zset : ZSet α} : zset.entries = [] ↔ zset = 0 := by
  constructor
  · intro empty
    ext element
    simp [weight, empty]
  · rintro rfl
    rfl

/-- Add `weight` to the weight of `element`, dropping it when the sum is zero. -/
def addWeight (weight : ℤ) : ZSet α where
  entries := alter element
    (fun old => if old.getD 0 + weight = 0 then none else some (old.getD 0 + weight)) zset.entries
  sorted := sorted_alter zset.sorted _ _
  nonzero := by
    rintro ⟨other, total⟩ member
    rw [mem_iff_lookup (sorted_alter zset.sorted _ _), lookup_alter zset.sorted] at member
    split_ifs at member with same zero
    · rw [Option.some.injEq] at member
      exact member ▸ zero
    · exact zset.nonzero _ ((mem_iff_lookup zset.sorted).mpr member)

theorem weight_eq_lookup : zset.weight element = (zset.entries.lookup element).getD 0 :=
  weightOf_eq_lookup zset.sorted element

@[simp] theorem weight_addWeight (element other : α) (weight : ℤ) :
    (zset.addWeight element weight).weight other =
      zset.weight other + if element = other then weight else 0 := by
  rw [weight_eq_lookup, weight_eq_lookup]
  simp only [addWeight]
  rw [lookup_alter zset.sorted]
  by_cases same : other = element
  · subst same
    rw [if_pos rfl, if_pos rfl]
    split_ifs with zero
    · simpa using zero.symm
    · rfl
  · rw [if_neg same, if_neg (Ne.symm same), add_zero]

variable (tuples : List (α × ℤ))

/-- Sort and consolidate a list of weighted tuples. -/
def ofTuples : ZSet α :=
  tuples.foldl (fun zset tuple => zset.addWeight tuple.1 tuple.2) 0

private theorem weight_foldl_addWeight (zset : ZSet α) (element : α) :
    (tuples.foldl (fun zset tuple => zset.addWeight tuple.1 tuple.2) zset).weight element =
      zset.weight element + weightOf tuples element := by
  induction tuples generalizing zset with
  | nil => simp
  | cons _ _ ih =>
    rw [List.foldl_cons, ih, weight_addWeight, weightOf_cons, add_assoc]

/-- Consolidation keeps the total weight of every element. -/
@[simp] theorem weight_ofTuples (element : α) :
    (ofTuples tuples).weight element = weightOf tuples element := by
  rw [ofTuples, weight_foldl_addWeight, weight_zero, zero_add]

@[simp] theorem ofTuples_entries : ofTuples zset.entries = zset := by
  ext element
  rw [weight_ofTuples, weight]

/-- Tuples in order that do not cancel are the entries they add up to. -/
theorem entries_ofTuples {tuples : List (α × ℤ)} (sorted : SortedMap.Sorted tuples)
    (nonzero : ∀ tuple ∈ tuples, tuple.2 ≠ 0) : (ofTuples tuples).entries = tuples :=
  congrArg entries (ofTuples_entries ⟨tuples, sorted, nonzero⟩)

instance : Add (ZSet α) := ⟨fun first second => ofTuples (first.entries ++ second.entries)⟩

variable (first second : ZSet α)

@[simp] theorem weight_add (element : α) :
    (first + second).weight element = first.weight element + second.weight element := by
  change (ofTuples (first.entries ++ second.entries)).weight element = _
  rw [weight_ofTuples, weightOf_append]
  rfl

/-- Negate every weight. -/
def neg : ZSet α where
  entries := zset.entries.map fun entry => (entry.1, -entry.2)
  sorted := zset.sorted.map_value _
  nonzero := by
    intro entry member
    obtain ⟨old, oldMember, rfl⟩ := List.mem_map.mp member
    simpa using zset.nonzero old oldMember

instance : Neg (ZSet α) := ⟨neg⟩

@[simp] theorem weight_neg : (-zset).weight element = -zset.weight element :=
  weightOf_map_neg zset.entries element

instance : AddCommGroup (ZSet α) :=
  { AddGroup.ofLeftAxioms (G := ZSet α)
      (fun first second third => by ext element; simp [add_assoc])
      (fun zset => by ext element; simp)
      (fun zset => by ext element; simp) with
    add_comm := fun first second => by ext element; simp [add_comm] }

@[simp] theorem weight_sub (element : α) :
    (first - second).weight element = first.weight element - second.weight element := by
  rw [sub_eq_add_neg, weight_add, weight_neg, sub_eq_add_neg]

theorem ofTuples_append (first second : List (α × ℤ)) :
    ofTuples (first ++ second) = ofTuples first + ofTuples second := by
  ext element
  simp

end ZSet
