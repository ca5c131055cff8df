import Mathlib.Algebra.Module.BigOperators
import OpenDera.Std.FlatMap

/-!
# Sums weighted by a Z-set

A function from elements to a commutative group extends linearly to Z-sets: every
element contributes its value times its weight. The extension depends only on the
weights, not on how the tuples are listed, and it is additive. Consolidation itself is
such an extension, with the single elements as values, which turns statements about
lists of tuples that operators produce into algebra.
-/

variable {α M : Type*} [AddCommGroup M] (measure : α → M) (tuples : List (α × ℤ))

/-- The values of the elements, each times its weight, added up. -/
def weightedSum : M :=
  (tuples.map fun tuple => tuple.2 • measure tuple.1).sum

@[simp] theorem weightedSum_nil : weightedSum measure [] = 0 := rfl

@[simp] theorem weightedSum_cons (tuple : α × ℤ) (tuples : List (α × ℤ)) :
    weightedSum measure (tuple :: tuples) = tuple.2 • measure tuple.1 + weightedSum measure tuples := by
  simp [weightedSum]

@[simp] theorem weightedSum_append (first second : List (α × ℤ)) :
    weightedSum measure (first ++ second) = weightedSum measure first + weightedSum measure second := by
  simp [weightedSum]

theorem weightedSum_add (first second : α → M) (tuples : List (α × ℤ)) :
    weightedSum (fun element => first element + second element) tuples =
      weightedSum first tuples + weightedSum second tuples := by
  induction tuples with
  | nil => simp
  | cons _ _ ih =>
    rw [weightedSum_cons, weightedSum_cons, weightedSum_cons, ih, smul_add]
    exact add_add_add_comm _ _ _ _

theorem weightedSum_zero : weightedSum (fun _ => (0 : M)) tuples = 0 := by
  simp [weightedSum]

theorem weightedSum_map {β : Type*} (measure : β → M) (function : α → β) (tuples : List (α × ℤ)) :
    weightedSum measure (tuples.map fun tuple => (function tuple.1, tuple.2)) =
      weightedSum (fun element => measure (function element)) tuples := by
  simp [weightedSum, Function.comp_def]

open List

/-- The values of listed elements that all have one weight. -/
theorem weightedSum_map_const (elements : List α) (weight : ℤ) :
    weightedSum measure (elements.map fun element => (element, weight)) =
      weight • (elements.map measure).sum := by
  induction elements with
  | nil => simp
  | cons _ _ ih =>
    rw [map_cons, weightedSum_cons, ih, map_cons, sum_cons, smul_add]

theorem weightedSum_flatMap {β : Type*} (items : List β) (tuples : β → List (α × ℤ)) :
    weightedSum measure (items.flatMap tuples) =
      (items.map fun item => weightedSum measure (tuples item)).sum := by
  induction items with
  | nil => simp
  | cons _ _ ih => simp [ih]

section

variable [DecidableEq α]

/-- The sum may be taken over any elements that cover the tuples. -/
theorem weightedSum_eq_sum (tuples : List (α × ℤ)) (cover : Finset α)
    (covered : ∀ tuple ∈ tuples, tuple.1 ∈ cover) :
    weightedSum measure tuples = ∑ element ∈ cover, weightOf tuples element • measure element := by
  induction tuples with
  | nil => simp
  | cons _ _ ih =>
    rw [forall_mem_cons] at covered
    rw [weightedSum_cons, ih covered.2]
    simp only [weightOf_cons, add_smul, Finset.sum_add_distrib]
    simp [covered.1]

/-- The sum depends only on the weights. -/
theorem weightedSum_congr {first second : List (α × ℤ)}
    (same : ∀ element, weightOf first element = weightOf second element) :
    weightedSum measure first = weightedSum measure second := by
  have cover : ∀ tuple ∈ first ++ second, tuple.1 ∈ ((first ++ second).map Prod.fst).toFinset :=
    fun tuple member => mem_toFinset.mpr (mem_map_of_mem member)
  rw [weightedSum_eq_sum measure first _ fun tuple member =>
      cover tuple (mem_append_left _ member),
    weightedSum_eq_sum measure second _ fun tuple member =>
      cover tuple (mem_append_right _ member)]
  simp only [same]

end

namespace ZSet

variable [LinearOrder α]

/-- The linear extension of `measure` to Z-sets. -/
def total (measure : α → M) : ZSet α →+ M where
  toFun := fun zset => weightedSum measure zset.entries
  map_zero' := rfl
  map_add' := fun first second => by
    rw [← weightedSum_append]
    exact weightedSum_congr measure fun element => (weight_add first second element).trans
      (weightOf_append _ _ _).symm

theorem total_apply (zset : ZSet α) : total measure zset = weightedSum measure zset.entries := rfl

end ZSet

namespace IndexedZSet

variable {K V M : Type*} [LinearOrder K] [LinearOrder V] [AddCommGroup M]

/-- The linear extension of `measure` to indexed Z-sets. -/
def total (measure : K × V → M) : IndexedZSet K V →+ M where
  toFun := fun batch => weightedSum measure batch.tuples
  map_zero' := rfl
  map_add' := fun first second => by
    rw [← weightedSum_append]
    refine weightedSum_congr measure fun pair => ?_
    rw [weightOf_append, weightOf_tuples, weightOf_tuples, weightOf_tuples, weight_add]

variable (measure : K × V → M) (batch : IndexedZSet K V)

theorem total_apply : total measure batch = weightedSum measure batch.tuples := rfl

variable (tuples : List ((K × V) × ℤ))

theorem total_ofTuples : total measure (ofTuples tuples) = weightedSum measure tuples := by
  refine weightedSum_congr measure fun pair => ?_
  rw [weightOf_tuples, weight_ofTuples]

theorem total_add (first second : K × V → M) (batch : IndexedZSet K V) :
    total (fun pair => first pair + second pair) batch = total first batch + total second batch :=
  weightedSum_add first second batch.tuples

variable (pair : K × V)

/-- One pair with weight one. -/
def single : IndexedZSet K V :=
  ofTuples [(pair, 1)]

/-- The weight of one pair, as a homomorphism. -/
def weightHom : IndexedZSet K V →+ ℤ where
  toFun := fun batch => batch.weight pair.1 pair.2
  map_zero' := rfl
  map_add' := fun first second => weight_add first second pair.1 pair.2

@[simp] theorem weight_smul (scale : ℤ) (batch : IndexedZSet K V) (key : K) (value : V) :
    (scale • batch).weight key value = scale * batch.weight key value := by
  have scaled := map_zsmul (weightHom (key, value)) scale batch
  exact scaled

@[simp] theorem weight_single (key : K) (value : V) :
    (single pair).weight key value = if pair = (key, value) then 1 else 0 := by
  simp [single]

theorem eq_of_weight_single_ne_zero {pair : K × V} {key : K} {value : V}
    (present : (single pair).weight key value ≠ 0) : pair = (key, value) := by
  rw [weight_single] at present
  exact (ite_ne_right_iff.mp present).1

/-- Consolidation is the linear extension of `single`. -/
theorem ofTuples_eq_weightedSum : ofTuples tuples = weightedSum single tuples := by
  induction tuples with
  | nil => rfl
  | cons _ _ ih =>
    rw [weightedSum_cons, ← ih]
    ext key value
    simp

theorem total_single : total single batch = batch := by
  rw [total_apply, ← ofTuples_eq_weightedSum, ofTuples_tuples]

theorem total_eq_sum_groups : total measure batch =
      (batch.groups.map fun entry =>
        ZSet.total (fun value => measure (entry.1, value)) entry.2).sum := by
  rw [total_apply, tuples, weightedSum_flatMap]
  congr 1
  refine map_congr_left fun entry _ => ?_
  exact weightedSum_map measure (fun value => (entry.1, value)) entry.2.entries

end IndexedZSet
