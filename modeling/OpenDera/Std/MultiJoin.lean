import Mathlib.Tactic.Abel
import OpenDera.Std.Multiplicity

/-!
# Joins of several indexed Z-sets

`joinAll` combines one value of each of several batches under a common key. Summing over
all choices of values is iterated linear extension, so that choosing from two lists of
batches is choosing from the first and then from the second. Hence a join of two such
joins is one join of all their batches, provided that the inner ones pass their key on.
-/

open List

section

variable {α M N : Type*} [AddCommGroup M] [AddCommGroup N]

theorem map_weightedSum (hom : M →+ N) (measure : α → M) (tuples : List (α × ℤ)) :
    hom (weightedSum measure tuples) = weightedSum (fun element => hom (measure element)) tuples := by
  simp [weightedSum, map_list_sum, Function.comp_def]

theorem weightedSum_congr_mem {first second : α → M} {tuples : List (α × ℤ)}
    (same : ∀ tuple ∈ tuples, first tuple.1 = second tuple.1) :
    weightedSum first tuples = weightedSum second tuples := by
  unfold weightedSum
  congr 1
  exact map_congr_left fun tuple member => by rw [same tuple member]

/-- A function of a list that is additive in every element. -/
def Multiadditive (function : List M → N) : Prop :=
  ∀ before first second after, function (before ++ (first + second) :: after) =
    function (before ++ first :: after) + function (before ++ second :: after)

/-- All ways to take one element of each pair, the first of some and the second of others. -/
def mixtures : List (M × M) → List (List M)
  | [] | [_] => []
  | pair :: next :: pairs =>
    (pair.1 :: (next :: pairs).map Prod.snd) :: (pair.2 :: (next :: pairs).map Prod.fst) ::
      ((mixtures (next :: pairs)).map (pair.1 :: ·) ++ (mixtures (next :: pairs)).map (pair.2 :: ·))

/-- Applied to sums, such a function gives its values at the first summands, at the second ones
and at all mixtures. -/
theorem Multiadditive.map_add {function : List M → N} (additive : Multiadditive function)
    (pair : M × M) (pairs : List (M × M)) :
    function ((pair :: pairs).map fun pair => pair.1 + pair.2) =
      function ((pair :: pairs).map Prod.fst) + function ((pair :: pairs).map Prod.snd) +
        ((mixtures (pair :: pairs)).map function).sum := by
  induction pairs generalizing pair function with
  | nil => simpa [mixtures] using additive [] pair.1 pair.2 []
  | cons next pairs ih =>
    have rest : ∀ first, Multiadditive fun list => function (first :: list) :=
      fun first before => additive (first :: before)
    have split := additive [] pair.1 pair.2 ((next :: pairs).map fun pair => pair.1 + pair.2)
    rw [nil_append, nil_append, nil_append, ih (rest pair.1), ih (rest pair.2)] at split
    rw [map_cons, split, mixtures]
    simp only [map_cons, map_append, map_map, sum_cons, sum_append,
      Function.comp_def]
    abel

end

namespace ZSet

variable {V : Type*} [LinearOrder V] {M N : Type*} [AddCommGroup M] [AddCommGroup N]

/-- One element with weight one. -/
def one (value : V) : ZSet V :=
  ofTuples [(value, 1)]

theorem total_one (measure : V → M) (value : V) : total measure (one value) = measure value := by
  have entries : (one value).entries = [(value, 1)] := rfl
  rw [total_apply, entries]
  simp

theorem total_congr {first second : V → M} {zset : ZSet V}
    (same : ∀ value, zset.weight value ≠ 0 → first value = second value) :
    total first zset = total second zset := by
  refine weightedSum_congr_mem fun tuple member => ?_
  obtain ⟨weight, nonzero⟩ := mem_entries.mp member
  exact same tuple.1 (weight ▸ nonzero)

/-- Summing over a type with one element. -/
theorem total_unique [Unique V] (measure : V → M) (zset : ZSet V) :
    total measure zset = zset.weight default • measure default := by
  rw [total_apply, weightedSum_eq_sum measure zset.entries {default}, Finset.sum_singleton]
  · rfl
  · exact fun tuple _ => Finset.mem_singleton.mpr (Unique.eq_default tuple.1)

theorem total_zero (zset : ZSet V) : total (fun _ => (0 : M)) zset = 0 :=
  weightedSum_zero zset.entries

/-- Everything chosen from several Z-sets, one value from each, added up. -/
def choiceSum : List (ZSet V) → (List V → M) → M
  | [], measure => measure []
  | zset :: rest, measure =>
    total (fun value => choiceSum rest fun values => measure (value :: values)) zset

theorem choiceSum_cons (zset : ZSet V) (rest : List (ZSet V)) (measure : List V → M) :
    choiceSum (zset :: rest) measure =
      total (fun value => choiceSum rest fun values => measure (value :: values)) zset := rfl

/-- Choosing from two lists is choosing from the first and then from the second. -/
theorem choiceSum_append (first second : List (ZSet V)) (measure : List V → M) :
    choiceSum (first ++ second) measure =
      choiceSum first fun values => choiceSum second fun others => measure (values ++ others) := by
  induction first generalizing measure with
  | nil => rfl
  | cons _ _ ih =>
    rw [cons_append, choiceSum_cons, choiceSum_cons]
    simp only [ih, cons_append]

theorem map_choiceSum (hom : M →+ N) (zsets : List (ZSet V)) (measure : List V → M) :
    hom (choiceSum zsets measure) = choiceSum zsets fun values => hom (measure values) := by
  induction zsets generalizing measure with
  | nil => rfl
  | cons _ _ ih =>
    rw [choiceSum_cons, choiceSum_cons, total_apply, map_weightedSum]
    simp only [ih]
    rfl

theorem choiceSum_zero (zsets : List (ZSet V)) : choiceSum zsets (fun _ => (0 : M)) = 0 := by
  induction zsets with
  | nil => rfl
  | cons zset _ ih =>
    rw [choiceSum_cons, ih]
    exact total_zero zset

theorem multiadditive_choiceSum (measure : List V → M) :
    Multiadditive fun zsets => choiceSum zsets measure := by
  intro before first second after
  induction before generalizing measure with
  | nil => exact AddMonoidHom.map_add _ first second
  | cons zset before ih =>
    simp only [cons_append, choiceSum_cons, ih, total_apply, weightedSum_add]

/-- Only values that are in the Z-sets are chosen. -/
theorem choiceSum_congr {zsets : List (ZSet V)} {first second : List V → M}
    (same : ∀ values, List.Forall₂ (fun value zset => zset.weight value ≠ 0) values zsets →
      first values = second values) :
    choiceSum zsets first = choiceSum zsets second := by
  induction zsets generalizing first second with
  | nil => exact same [] .nil
  | cons _ _ ih =>
    refine total_congr fun value present => ?_
    exact ih fun values chosen => same _ (.cons present chosen)

end ZSet

namespace IndexedZSet

variable {K V O OK OV : Type*} [LinearOrder K] [LinearOrder V] [LinearOrder O] [LinearOrder OK]
  [LinearOrder OV] {M N : Type*} [AddCommGroup M] [AddCommGroup N]

theorem hom_ext {first second : IndexedZSet K V →+ M}
    (same : ∀ pair, first (single pair) = second (single pair)) (batch : IndexedZSet K V) :
    first batch = second batch := by
  rw [← total_single batch, total_apply, map_weightedSum, map_weightedSum]
  simp only [same]

theorem total_single_pair (measure : K × V → M) (pair : K × V) :
    total measure (single pair) = measure pair := by
  rw [single, total_ofTuples]
  simp

theorem map_total (hom : M →+ N) (measure : K × V → M) (batch : IndexedZSet K V) :
    hom (total measure batch) = total (fun pair => hom (measure pair)) batch :=
  map_weightedSum hom measure batch.tuples

theorem total_congr {first second : K × V → M} {batch : IndexedZSet K V}
    (same : ∀ key value, batch.weight key value ≠ 0 → first (key, value) = second (key, value)) :
    total first batch = total second batch := by
  refine weightedSum_congr_mem fun tuple member => ?_
  obtain ⟨⟨key, value⟩, weight⟩ := tuple
  obtain ⟨rfl, nonzero⟩ := mem_tuples.mp member
  exact same key value nonzero

theorem group_single (pair : K × V) (key : K) :
    (single pair).group key = if pair.1 = key then ZSet.one pair.2 else 0 := by
  refine ZSet.ext fun value => ?_
  change (single pair).weight key value = _
  by_cases sameKey : pair.1 = key <;> by_cases sameValue : pair.2 = value <;>
    simp [sameKey, sameValue, ZSet.one, Prod.ext_iff]

open ZSet

/-- A sum over the pairs of one key is a sum over its group. -/
theorem total_ite (measure : V → M) (batch : IndexedZSet K V) (key : K) :
    total (fun pair => if pair.1 = key then measure pair.2 else 0) batch =
      ZSet.total measure (batch.group key) := by
  have agree : ∀ pair, total (fun pair => if pair.1 = key then measure pair.2 else 0) (single pair) =
      (ZSet.total measure).comp (groupHom key) (single pair) := by
    intro pair
    rw [total_single_pair]
    change _ = ZSet.total measure ((single pair).group key)
    rw [group_single]
    split_ifs
    · rw [total_one]
    · rw [map_zero]
  exact hom_ext agree batch

theorem weightedSum_choices (zsets : List (ZSet V)) (measure : List V → M) :
    weightedSum measure (choices zsets) = choiceSum zsets measure := by
  induction zsets generalizing measure with
  | nil => simp [choices, choiceSum]
  | cons _ _ ih =>
    rw [choices, weightedSum_flatMap, ZSet.choiceSum_cons, ZSet.total_apply, weightedSum]
    congr 1
    refine map_congr_left fun entry _ => ?_
    rw [← ih]
    simp [weightedSum, smul_sum, Function.comp_def, mul_smul]

variable (combine : K → List V → OK × OV)

/-- A join of several batches as a sum over the pairs of the first one. -/
theorem joinAll_cons (first : IndexedZSet K V) (rest : List (IndexedZSet K V)) :
    joinAll combine (first :: rest) =
      total (fun pair => choiceSum (rest.map fun batch => batch.group pair.1) fun values =>
        single (combine pair.1 (pair.2 :: values))) first := by
  rw [joinAll, ofTuples_eq_weightedSum, weightedSum_flatMap, total_eq_sum_groups]
  congr 1
  refine map_congr_left fun entry _ => ?_
  rw [weightedSum_map, weightedSum_choices, ZSet.choiceSum_cons]

/-- A join of several batches is additive in each of them. -/
theorem multiadditive_joinAll : Multiadditive (joinAll combine) := by
  intro before first second after
  cases before with
  | nil =>
    simp only [nil_append, joinAll_cons]
    exact AddMonoidHom.map_add _ first second
  | cons batch before =>
    simp only [cons_append, joinAll_cons, map_append, map_cons, ← total_add]
    refine total_congr fun key value _ => ?_
    rw [group_add]
    exact multiadditive_choiceSum _ _ (first.group key) (second.group key) _

/-- Extending a function linearly to a join of several batches. -/
theorem total_joinAll (measure : OK × OV → M)
    (combine : K → List V → OK × OV) (first : IndexedZSet K V) (rest : List (IndexedZSet K V)) :
    total measure (joinAll combine (first :: rest)) =
      total (fun pair => choiceSum (rest.map fun batch => batch.group pair.1) fun values =>
        measure (combine pair.1 (pair.2 :: values))) first := by
  rw [joinAll_cons, map_total]
  simp only [map_choiceSum, total_single_pair]

theorem joinAll_singleton (combine : K → List V → K × V) (batch : IndexedZSet K V)
    (passes : ∀ key value, combine key [value] = (key, value)) : joinAll combine [batch] = batch := by
  rw [joinAll_cons]
  simp only [map_nil, choiceSum, passes]
  exact total_single batch

theorem joinAll_congr {first second : K → List V → OK × OV} {batches : List (IndexedZSet K V)}
    (same : ∀ key values, List.Forall₂ (fun value batch => batch.weight key value ≠ 0) values
      batches → first key values = second key values) :
    joinAll first batches = joinAll second batches := by
  cases batches with
  | nil => rfl
  | cons =>
    rw [joinAll_cons, joinAll_cons]
    refine total_congr fun key value present => choiceSum_congr fun values chosen => ?_
    rw [forall₂_map_right_iff] at chosen
    rw [same key (value :: values) (.cons present chosen)]

theorem map_joinAll (function : K × V → OK × OV)
    (combine : K → List V → K × V) (batches : List (IndexedZSet K V)) :
    map function (joinAll combine batches) =
      joinAll (fun key values => function (combine key values)) batches := by
  cases batches with
  | nil => rfl
  | cons =>
    rw [map, flatMap_eq_total, total_joinAll, joinAll_cons]
    simp

/-- Mapping the result of a join. -/
theorem map_join {Out Row : Type*} [LinearOrder Out] [LinearOrder Row]
    (function : OK × OV → Out × Row) (combine : K → V → O → OK × OV)
    (left : IndexedZSet K V) (right : IndexedZSet K O) :
    map function (join combine left right) =
      join (fun key first second => function (combine key first second)) left right := by
  rw [map, flatMap_eq_total, join_eq_total, join_eq_total, map_total]
  simp only [partners, ZSet.total_apply, map_weightedSum, total_single_pair]
  simp

section

variable {keyed : K → Prop}

/-- The values that a join of several batches has under a key that it passes on. -/
theorem group_joinAll {combine : K → List V → K × OV} {first : IndexedZSet K V}
    {rest : List (IndexedZSet K V)} (keys : ∀ key value, first.weight key value ≠ 0 → keyed key)
    (passes : ∀ key, keyed key → ∀ values, (combine key values).1 = key) {key : K}
    (isKeyed : keyed key) :
    (joinAll combine (first :: rest)).group key =
      choiceSum ((first :: rest).map fun batch => batch.group key) fun values =>
        ZSet.one (combine key values).2 := by
  have each : ∀ other value, first.weight other value ≠ 0 →
      choiceSum (rest.map fun batch => batch.group other) (fun values =>
          (single (combine other (value :: values))).group key) =
        if other = key then choiceSum (rest.map fun batch => batch.group key) (fun values =>
          ZSet.one (combine key (value :: values)).2) else 0 := by
    intro other value present
    simp only [group_single, passes other (keys other value present)]
    by_cases same : other = key
    · subst same
      simp
    · simp only [if_neg same]
      exact choiceSum_zero _
  rw [joinAll_cons]
  change groupHom key _ = _
  rw [map_total]
  simp only [map_choiceSum]
  rw [map_cons, ZSet.choiceSum_cons, ← total_ite]
  exact total_congr each

/-- A join of two joins that pass their keys on is one join of all batches. -/
theorem join_joinAll {left : K → List V → K × O} {right : K → List V → K × O}
    {combine : K → O → O → OK × OV} {first second : IndexedZSet K V}
    {firstRest secondRest : List (IndexedZSet K V)}
    (firstKeys : ∀ key value, first.weight key value ≠ 0 → keyed key)
    (secondKeys : ∀ key value, second.weight key value ≠ 0 → keyed key)
    (leftPasses : ∀ key, keyed key → ∀ values, (left key values).1 = key)
    (rightPasses : ∀ key, keyed key → ∀ values, (right key values).1 = key) :
    join combine (joinAll left (first :: firstRest)) (joinAll right (second :: secondRest)) =
      joinAll (fun key values =>
        combine key (left key (values.take (first :: firstRest).length)).2
          (right key (values.drop (first :: firstRest).length)).2)
        (first :: firstRest ++ second :: secondRest) := by
  rw [join_eq_total, total_joinAll, cons_append, joinAll_cons _ first]
  apply total_congr
  intro key value present
  have isKeyed := firstKeys key value present
  rw [map_append, choiceSum_append]
  apply choiceSum_congr
  intro values chosen
  have length : values.length = firstRest.length := by
    simpa using chosen.length_eq
  rw [leftPasses key isKeyed, partners, group_joinAll secondKeys rightPasses isKeyed,
    map_choiceSum]
  apply choiceSum_congr
  intro others _
  rw [total_one, leftPasses key isKeyed, ← cons_append, take_left' (by simp [length]),
    drop_left' (by simp [length])]

end

end IndexedZSet
