import OpenDera.Std.LinearSum

/-!
# Relational operations on indexed Z-sets

Mapping, joining on the key, dropping multiplicities, keeping the rows without a
partner and aggregating groups. Mapping is linear and joining is linear in each
argument, which is all that incremental evaluation needs of them.
-/

namespace IndexedZSet

open List

variable {K V O OK OV : Type*} [LinearOrder K] [LinearOrder V] [LinearOrder O] [LinearOrder OK]
  [LinearOrder OV]

/-- The values of one key, as a homomorphism. -/
def groupHom (key : K) : IndexedZSet K V →+ ZSet V where
  toFun := fun batch => batch.group key
  map_zero' := rfl
  map_add' := fun first second => group_add first second key

/-- Replace every pair by listed pairs of the same weight. -/
def flatMap (image : K × V → List (OK × OV)) (batch : IndexedZSet K V) : IndexedZSet OK OV :=
  ofTuples (flatMapTuples image batch.tuples)

variable (image : K × V → List (OK × OV)) (batch : IndexedZSet K V)

theorem flatMap_eq_total :
    flatMap image batch = total (fun pair => ((image pair).map single).sum) batch := by
  rw [flatMap, ofTuples_eq_weightedSum, flatMapTuples, weightedSum_flatMap, total_apply, weightedSum]
  simp only [weightedSum_map_const]

theorem flatMap_add (first second : IndexedZSet K V) :
    flatMap image (first + second) = flatMap image first + flatMap image second := by
  simp only [flatMap_eq_total, map_add]

@[simp] theorem flatMap_zero : flatMap image (0 : IndexedZSet K V) = 0 := rfl

/-- Map every pair. -/
def map (function : K × V → OK × OV) (batch : IndexedZSet K V) : IndexedZSet OK OV :=
  flatMap (fun pair => [function pair]) batch

/-- Keep the pairs that satisfy a condition. -/
def filter (condition : K × V → Bool) (batch : IndexedZSet K V) : IndexedZSet K V :=
  flatMap (fun pair => if condition pair then [pair] else []) batch

variable (combine : K → V → O → OK × OV)

/-- Combine every two values of the same key, multiplying their weights. -/
def join (left : IndexedZSet K V) (right : IndexedZSet K O) : IndexedZSet OK OV :=
  ofTuples (left.tuples.flatMap fun tuple =>
    (right.group tuple.1.1).entries.map fun entry =>
      (combine tuple.1.1 tuple.1.2 entry.1, tuple.2 * entry.2))

/-- Everything a pair of the left side is combined with. -/
def partners (pair : K × V) (values : ZSet O) : IndexedZSet OK OV :=
  ZSet.total (fun value => single (combine pair.1 pair.2 value)) values

variable (left : IndexedZSet K V) (right : IndexedZSet K O)

theorem join_eq_total : join combine left right =
      total (fun pair => partners combine pair (right.group pair.1)) left := by
  rw [join, ofTuples_eq_weightedSum, weightedSum_flatMap, total_apply, weightedSum]
  congr 1
  refine map_congr_left fun tuple _ => ?_
  rw [partners, ZSet.total_apply, weightedSum, weightedSum, smul_sum, map_map, map_map]
  congr 1
  refine map_congr_left fun entry _ => ?_
  exact mul_smul tuple.2 entry.2 _

@[simp] theorem join_zero_right : join combine left (0 : IndexedZSet K O) = 0 := by
  rw [join_eq_total]
  exact weightedSum_zero left.tuples

/-- Combine every pair of the left side with the values of its key, or with `absent` if its key
has no values on the right side. -/
def leftJoin (absent : O) (left : IndexedZSet K V) (right : IndexedZSet K O) : IndexedZSet OK OV :=
  ofTuples (left.tuples.flatMap fun tuple =>
    let values := right.group tuple.1.1
    (if values = 0 then [(absent, 1)] else values.entries).map fun entry =>
      (combine tuple.1.1 tuple.1.2 entry.1, tuple.2 * entry.2))

/-- Without a right side every pair is combined with `absent`. -/
theorem leftJoin_zero_right (absent : O) (left : IndexedZSet K V) :
    leftJoin combine absent left 0 = map (fun pair => combine pair.1 pair.2 absent) left := by
  simp [leftJoin, map, flatMap, flatMapTuples]

/-- All ways to take one value from each of several Z-sets, with the products of the weights. -/
def choices : List (ZSet V) → List (List V × ℤ)
  | [] => [([], 1)]
  | values :: rest => values.entries.flatMap fun entry =>
    (choices rest).map fun choice => (entry.1 :: choice.1, entry.2 * choice.2)

variable (combine : K → List V → OK × OV)

/-- Combine one value of each batch under a common key, multiplying the weights. -/
def joinAll : List (IndexedZSet K V) → IndexedZSet OK OV
  | [] => 0
  | first :: rest => ofTuples (first.groups.flatMap fun entry =>
    (choices (entry.2 :: rest.map fun batch => batch.group entry.1)).map fun choice =>
      (combine entry.1 choice.1, choice.2))

theorem choices_eq_nil {zsets : List (ZSet V)} (member : 0 ∈ zsets) : choices zsets = [] := by
  induction zsets with
  | nil => simp at member
  | cons _ _ ih =>
    rcases mem_cons.mp member with rfl | member
    · rfl
    · rw [choices, ih member]
      simp

/-- Nothing joins with an empty batch. -/
theorem joinAll_eq_zero
    {batches : List (IndexedZSet K V)} (member : 0 ∈ batches) : joinAll combine batches = 0 := by
  cases batches with
  | nil => rfl
  | cons first rest =>
    rcases mem_cons.mp member with rfl | member
    · rfl
    · have none : ∀ entry ∈ first.groups,
          choices (entry.2 :: rest.map fun batch => batch.group entry.1) = [] := fun entry _ =>
        choices_eq_nil (mem_cons_of_mem _ (mem_map.mpr ⟨0, member, rfl⟩))
      rw [joinAll, flatMap_eq_nil_iff.mpr fun entry listed => by rw [none entry listed]; rfl]
      rfl

/-- The pairs of positive weight, each once. -/
def distinct : IndexedZSet K V :=
  ofTuples (batch.tuples.filterMap fun tuple => if 0 < tuple.2 then some (tuple.1, 1) else none)

/-- The pairs of the left side whose key is not among those of the right side. -/
def antiJoin (right : IndexedZSet K O) : IndexedZSet K V :=
  left - join (fun key value (_ : Unit) => (key, value)) left
    (distinct (map (fun pair => (pair.1, ())) right))

@[simp] theorem antiJoin_zero_left : antiJoin (0 : IndexedZSet K V) right = 0 := rfl

@[simp] theorem antiJoin_zero_right : antiJoin left (0 : IndexedZSet K O) = left := by
  have none : distinct (map (fun pair => (pair.1, ())) (0 : IndexedZSet K O)) = 0 := rfl
  rw [antiJoin, none, join_zero_right, sub_zero]

/-- Summarise every group by one value, or by none. -/
def aggregate (aggregator : ZSet V → Option O) (batch : IndexedZSet K V) : IndexedZSet K O :=
  ofTuples (batch.groups.filterMap fun entry =>
    (aggregator entry.2).map fun value => ((entry.1, value), 1))

end IndexedZSet
