import OpenDera.Std.MultiJoin

/-!
# Joins on a condition

The pairs of two batches that satisfy a condition, and the pairs of one batch that have no
partner in another. Filters before and after a join and maps of its result move into the
condition and the combining function, and a join of two mapped batches on their keys is a
join on the condition that the keys agree; so every way to compute a join ends in the same
form. Maps that may fail are maps where they do not.
-/

/-- A traversal of a list on which nothing fails is a map. -/
theorem mapM_eq_some_map {α β : Type*} {elements : List α} {function : α → Option β}
    {result : α → β} (succeeds : ∀ element ∈ elements, function element = some (result element)) :
    elements.mapM function = some (elements.map result) := by
  induction elements with
  | nil => rfl
  | cons _ _ ih =>
    rw [List.forall_mem_cons] at succeeds
    rw [List.mapM_cons, succeeds.1, ih succeeds.2]
    rfl

namespace IndexedZSet

open List

variable {K V OtherKey O OK OV : Type*} [LinearOrder K] [LinearOrder V]
  [LinearOrder OtherKey] [LinearOrder O] [LinearOrder OK] [LinearOrder OV]

section

variable {M : Type*} [AddCommGroup M]

theorem map_eq_total (function : K × V → OK × OV) (batch : IndexedZSet K V) :
    map function batch = total (fun pair => single (function pair)) batch := by
  rw [map, flatMap_eq_total]
  simp

theorem filter_eq_total (condition : K × V → Bool) (batch : IndexedZSet K V) :
    filter condition batch =
      total (fun pair => if condition pair then single pair else 0) batch := by
  rw [filter, flatMap_eq_total]
  congr 2
  funext pair
  split <;> simp

theorem total_map (measure : OK × OV → M) (function : K × V → OK × OV) (batch : IndexedZSet K V) :
    total measure (map function batch) = total (fun pair => measure (function pair)) batch := by
  rw [map_eq_total, map_total]
  simp only [total_single_pair]

theorem total_filter (measure : K × V → M) (condition : K × V → Bool) (batch : IndexedZSet K V) :
    total measure (filter condition batch) =
      total (fun pair => if condition pair then measure pair else 0) batch := by
  rw [filter_eq_total, map_total]
  congr 2
  funext pair
  split
  · rw [total_single_pair]
  · rw [map_zero]

theorem total_if (condition : Prop) [Decidable condition] (measure : K × V → M)
    (batch : IndexedZSet K V) :
    total (fun pair => if condition then measure pair else 0) batch =
      if condition then total measure batch else 0 := by
  split
  · rfl
  · exact weightedSum_zero batch.tuples

end

variable {batch : IndexedZSet K V} {function : K × V → OK × OV}

theorem Nonneg.map (nonneg : batch.Nonneg) : (map function batch).Nonneg :=
  nonneg.flatMap

variable {condition : K × V → Bool}

theorem Nonneg.filter (nonneg : batch.Nonneg) : (filter condition batch).Nonneg :=
  nonneg.flatMap

section

theorem map_congr {first second : K × V → OK × OV}
    (same : ∀ key value, batch.weight key value ≠ 0 → first (key, value) = second (key, value)) :
    map first batch = map second batch := by
  rw [map_eq_total, map_eq_total]
  exact total_congr fun key value present => by rw [same key value present]

theorem filter_congr {first second : K × V → Bool}
    (same : ∀ key value, batch.weight key value ≠ 0 → first (key, value) = second (key, value)) :
    filter first batch = filter second batch := by
  rw [filter_eq_total, filter_eq_total]
  exact total_congr fun key value present => by rw [same key value present]

theorem map_eq_self {function : K × V → K × V}
    (same : ∀ key value, batch.weight key value ≠ 0 → function (key, value) = (key, value)) :
    map function batch = batch := by
  rw [map_eq_total]
  conv_rhs => rw [← total_single batch]
  exact total_congr fun key value present => by rw [same key value present]

theorem filter_eq_self
    (all : ∀ key value, batch.weight key value ≠ 0 → condition (key, value) = true) :
    filter condition batch = batch := by
  rw [filter_eq_total]
  conv_rhs => rw [← total_single batch]
  exact total_congr fun key value present => by simp [all key value present]

theorem weight_filter_ne_zero {key : K} {value : V} :
    (filter condition batch).weight key value ≠ 0 ↔
      batch.weight key value ≠ 0 ∧ condition (key, value) = true := by
  rw [weight_filter]
  cases condition (key, value) <;> simp

theorem map_map {MidKey MidValue : Type*} [LinearOrder MidKey] [LinearOrder MidValue]
    (outer : MidKey × MidValue → OK × OV) (inner : K × V → MidKey × MidValue) :
    map outer (map inner batch) = map (fun pair => outer (inner pair)) batch := by
  rw [map_eq_total outer, total_map, map_eq_total]

theorem filter_filter (outer inner : K × V → Bool) :
    filter outer (filter inner batch) = filter (fun pair => inner pair && outer pair) batch := by
  rw [filter_eq_total outer, total_filter, filter_eq_total]
  congr 2
  funext pair
  cases inner pair <;> simp

/-- A batch is the sum of its pairs with a property and of those without. -/
theorem map_filter_add_map_filter (function : K × V → OK × OV) {first second both : K × V → Bool}
    (parts : ∀ key value, batch.weight key value ≠ 0 →
      first (key, value) = (both (key, value) && !second (key, value)) ∧
        (second (key, value) = true → both (key, value) = true)) :
    map function (filter first batch) + map function (filter second batch) =
      map function (filter both batch) := by
  simp only [map_eq_total, total_filter]
  rw [← total_add]
  refine total_congr fun key value present => ?_
  obtain ⟨rest, inside⟩ := parts key value present
  rw [rest]
  cases isSecond : second (key, value)
  · simp
  · simp [inside isSecond]

/-- Nothing is kept exactly if no pair satisfies the condition. -/
theorem filter_eq_zero_iff : filter condition batch = 0 ↔
      ∀ key value, batch.weight key value ≠ 0 → condition (key, value) = false := by
  constructor
  · intro none key value present
    have weight := congrArg (fun kept => kept.weight key value) none
    simp only [weight_filter, weight_zero] at weight
    by_contra kept
    rw [Bool.not_eq_false] at kept
    exact present (by simpa [kept] using weight)
  · intro none
    have vanishes : total (fun pair => if condition pair then single pair else 0) batch =
        total (fun _ => 0) batch :=
      total_congr fun key value present => by simp [none key value present]
    rw [filter_eq_total, vanishes]
    exact weightedSum_zero batch.tuples

end

variable (condition : K × V → OtherKey × O → Bool)

/-- Combine the pairs of two batches that satisfy a condition, multiplying their weights. -/
def thetaJoin (combine : K × V → OtherKey × O → OK × OV) (left : IndexedZSet K V)
    (right : IndexedZSet OtherKey O) : IndexedZSet OK OV :=
  ofTuples (left.tuples.flatMap fun first =>
    (right.tuples.filter fun second => condition first.1 second.1).map fun second =>
      (combine first.1 second.1, first.2 * second.2))

/-- The pairs of the left batch that satisfy the condition with no pair of the right batch. -/
def unmatched (left : IndexedZSet K V) (right : IndexedZSet OtherKey O) : IndexedZSet K V :=
  filter (fun first => filter (condition first) right = 0) left

section

variable {condition} {combine : K × V → OtherKey × O → OK × OV} {left : IndexedZSet K V}
  {right : IndexedZSet OtherKey O}

theorem thetaJoin_eq_total (condition : K × V → OtherKey × O → Bool)
    (combine : K × V → OtherKey × O → OK × OV) (left : IndexedZSet K V)
    (right : IndexedZSet OtherKey O) :
    thetaJoin condition combine left right =
      total (fun first => total (fun second =>
        if condition first second then single (combine first second) else 0) right) left := by
  rw [thetaJoin, ofTuples_eq_weightedSum, weightedSum_flatMap, total_apply, weightedSum]
  congr 1
  refine map_congr_left fun first _ => ?_
  rw [total_apply]
  generalize right.tuples = tuples
  induction tuples with
  | nil => simp
  | cons _ _ ih =>
    rw [filter_cons, weightedSum_cons, smul_add, ← ih]
    split
    · rw [map_cons, weightedSum_cons, mul_smul]
    · simp

variable (kept : K × V → Bool)

theorem thetaJoin_filter_left : thetaJoin condition combine (filter kept left) right =
      thetaJoin (fun first second => kept first && condition first second) combine left right := by
  rw [thetaJoin_eq_total, total_filter, thetaJoin_eq_total]
  congr 2
  funext first
  rw [← total_if]
  congr 2
  cases kept first <;> simp

theorem thetaJoin_filter_right (kept : OtherKey × O → Bool) :
    thetaJoin condition combine left (filter kept right) =
      thetaJoin (fun first second => kept second && condition first second) combine left right := by
  simp only [thetaJoin_eq_total, total_filter]
  congr 2
  funext first
  congr 2
  funext second
  cases kept second <;> simp

theorem filter_thetaJoin (kept : OK × OV → Bool) :
    filter kept (thetaJoin condition combine left right) =
      thetaJoin (fun first second => condition first second && kept (combine first second)) combine
        left right := by
  rw [filter_eq_total, thetaJoin_eq_total, map_total, thetaJoin_eq_total]
  simp only [map_total]
  congr 2
  funext first
  congr 2
  funext second
  cases condition first second <;> simp [total_single_pair]

theorem thetaJoin_congr {otherCondition : K × V → OtherKey × O → Bool}
    {otherCombine : K × V → OtherKey × O → OK × OV}
    (sameCondition : ∀ key value, left.weight key value ≠ 0 → ∀ otherKey other,
      right.weight otherKey other ≠ 0 →
        condition (key, value) (otherKey, other) = otherCondition (key, value) (otherKey, other))
    (sameResult : ∀ key value, left.weight key value ≠ 0 → ∀ otherKey other,
      right.weight otherKey other ≠ 0 → condition (key, value) (otherKey, other) = true →
        combine (key, value) (otherKey, other) = otherCombine (key, value) (otherKey, other)) :
    thetaJoin condition combine left right = thetaJoin otherCondition otherCombine left right := by
  rw [thetaJoin_eq_total, thetaJoin_eq_total]
  apply total_congr
  intro key value present
  apply total_congr
  intro otherKey other otherPresent
  rw [← sameCondition key value present otherKey other otherPresent]
  split
  case isTrue holds => rw [sameResult key value present otherKey other otherPresent holds]
  case isFalse => rfl

/-- Filters of both sides of an anti-join. -/
theorem unmatched_filter (otherKept : OtherKey × O → Bool) :
    unmatched condition (filter kept left) (filter otherKept right) =
      filter (fun first => kept first &&
        decide (filter (fun second => otherKept second && condition first second) right = 0)) left := by
  rw [unmatched, filter_filter]
  simp only [filter_filter]

omit [LinearOrder OK] [LinearOrder OV] in
private theorem thetaJoin_nonneg_tuples (nonneg : left.Nonneg) (nonnegRight : right.Nonneg) :
    ∀ tuple ∈ left.tuples.flatMap fun first =>
      (right.tuples.filter fun second => condition first.1 second.1).map fun second =>
        (combine first.1 second.1, first.2 * second.2), 0 ≤ tuple.2 := by
  simp only [mem_flatMap, mem_map, mem_filter]
  rintro _ ⟨first, member, second, ⟨otherMember, _⟩, rfl⟩
  exact mul_nonneg (nonneg.pos_of_mem member).le (nonnegRight.pos_of_mem otherMember).le

theorem Nonneg.thetaJoin (nonneg : left.Nonneg) (nonnegRight : right.Nonneg) :
    (thetaJoin condition combine left right).Nonneg :=
  nonneg_ofTuples (thetaJoin_nonneg_tuples nonneg nonnegRight)

theorem thetaJoin_pos_iff (nonneg : left.Nonneg) (nonnegRight : right.Nonneg) {key : OK}
    {value : OV} :
    0 < (thetaJoin condition combine left right).weight key value ↔
      ∃ first second, 0 < left.weight first.1 first.2 ∧ 0 < right.weight second.1 second.2 ∧
        condition first second = true ∧ combine first second = (key, value) := by
  rw [thetaJoin, weight_ofTuples, weightOf_pos_iff (thetaJoin_nonneg_tuples nonneg nonnegRight)]
  simp only [mem_flatMap, mem_map, mem_filter]
  constructor
  · rintro ⟨_, ⟨⟨first, weight⟩, member, ⟨second, factor⟩, ⟨otherMember, holds⟩, rfl⟩, same, -⟩
    have positive := nonneg.pos_of_mem member
    have otherPositive := nonnegRight.pos_of_mem otherMember
    obtain ⟨rfl, -⟩ := mem_tuples.mp member
    obtain ⟨rfl, -⟩ := mem_tuples.mp otherMember
    exact ⟨first, second, positive, otherPositive, holds, same⟩
  · rintro ⟨first, second, positive, otherPositive, holds, same⟩
    exact ⟨_, ⟨(first, _), mem_tuples.mpr ⟨rfl, positive.ne'⟩, (second, _),
      ⟨mem_tuples.mpr ⟨rfl, otherPositive.ne'⟩, holds⟩, rfl⟩, same, mul_pos positive otherPositive⟩

end

section

variable {left : IndexedZSet K V} {right : IndexedZSet OtherKey O}
  {JoinKey First Second : Type*} [LinearOrder JoinKey] [LinearOrder First]
  [LinearOrder Second]

/-- A mapped batch has no values under a key exactly if no pair is mapped there. -/
theorem group_map_eq_zero_iff (nonneg : left.Nonneg) (key : OK) :
    (map function left).group key = 0 ↔ filter (fun pair => (function pair).1 = key) left = 0 := by
  rw [← not_iff_not, ← ne_eq, group_ne_zero_iff, filter_eq_zero_iff]
  push Not
  constructor
  · rintro ⟨value, present⟩
    obtain ⟨pair, present, same⟩ := (flatMap_pos_iff nonneg).mp (nonneg.map.pos_iff.mpr present)
    exact ⟨pair.1, pair.2, present.ne', by simp [← mem_singleton.mp same]⟩
  · rintro ⟨oldKey, oldValue, present, same⟩
    refine ⟨(function (oldKey, oldValue)).2, ((flatMap_pos_iff nonneg).mpr
      ⟨(oldKey, oldValue), nonneg.pos_iff.mpr present, ?_⟩).ne'⟩
    simpa [Prod.ext_iff, eq_comm] using same

/-- Two pairs have the same key once they are mapped. -/
def sameKey (toLeft : K × V → JoinKey × First) (toRight : OtherKey × O → JoinKey × Second)
    (first : K × V) (second : OtherKey × O) : Bool :=
  (toRight second).1 = (toLeft first).1

omit [LinearOrder K] [LinearOrder V] [LinearOrder OtherKey] [LinearOrder O]
  [LinearOrder First] [LinearOrder Second] in
@[simp] theorem sameKey_eq_true_iff {toLeft : K × V → JoinKey × First}
    {toRight : OtherKey × O → JoinKey × Second} {first : K × V} {second : OtherKey × O} :
    sameKey toLeft toRight first second = true ↔ (toRight second).1 = (toLeft first).1 :=
  decide_eq_true_iff

variable (combine : JoinKey → First → Second → OK × OV) (toLeft : K × V → JoinKey × First)
  (toRight : OtherKey × O → JoinKey × Second)

/-- A join on keys of mapped batches is a join on the condition that the keys agree. -/
theorem join_map_map : join combine (map toLeft left) (map toRight right) =
      thetaJoin (sameKey toLeft toRight)
        (fun first second => combine (toLeft first).1 (toLeft first).2 (toRight second).2) left
        right := by
  rw [join_eq_total, total_map, thetaJoin_eq_total]
  congr 2
  funext first
  rw [partners, ← total_ite, total_map]
  simp only [sameKey_eq_true_iff]

/-- Without negative weights, the pairs whose key has no values on the other side remain. -/
theorem antiJoin_eq_filter (left : IndexedZSet K V) {right : IndexedZSet K O}
    (nonneg : right.Nonneg) :
    antiJoin left right = filter (fun pair => right.group pair.1 = 0) left := by
  have group : ∀ key, (distinct (map (fun pair => (pair.1, ())) right)).group key =
      if right.group key = 0 then 0 else ZSet.one () := by
    intro key
    refine ZSet.ext fun value => ?_
    change (distinct (map (fun pair => (pair.1, ())) right)).weight key value = _
    have present : 0 < (map (fun pair => (pair.1, ())) right).weight key value ↔
        right.group key ≠ 0 := by
      rw [map, flatMap_pos_iff nonneg, group_ne_zero_iff]
      simp [nonneg.pos_iff]
    rw [weight_distinct]
    by_cases absent : right.group key = 0
    · rw [if_neg fun positive => present.mp positive absent, if_pos absent, ZSet.weight_zero]
    · rw [if_pos (present.mpr absent), if_neg absent]
      rfl
  have kept : ∀ pair : K × V,
      partners (fun key value (_ : Unit) => (key, value)) pair
          ((distinct (map (fun pair => (pair.1, ())) right)).group pair.1) =
        if right.group pair.1 = 0 then 0 else single pair := by
    intro pair
    rw [group, partners]
    split
    · rw [map_zero]
    · rw [ZSet.total_one]
  rw [antiJoin, join_eq_total, sub_eq_iff_eq_add, filter_eq_total, ← total_add]
  conv_lhs => rw [← total_single left]
  congr 2
  funext pair
  rw [kept]
  by_cases absent : right.group pair.1 = 0 <;> simp [absent]

/-- An anti-join on keys of mapped batches keeps the pairs without a partner. -/
theorem antiJoin_map_map (nonneg : right.Nonneg) : antiJoin (map toLeft left) (map toRight right) =
      map toLeft (unmatched (sameKey toLeft toRight) left right) := by
  rw [antiJoin_eq_filter _ nonneg.map, filter_eq_total, total_map, unmatched, map_eq_total toLeft,
    total_filter]
  congr 2
  simp only [group_map_eq_zero_iff nonneg]
  rfl

theorem leftJoin_eq_total (combine : K → V → O → OK × OV) (absent : O)
    (left : IndexedZSet K V) (right : IndexedZSet K O) :
    leftJoin combine absent left right =
      total (fun pair => if right.group pair.1 = 0 then single (combine pair.1 pair.2 absent)
        else partners combine pair (right.group pair.1)) left := by
  rw [leftJoin, ofTuples_eq_weightedSum, weightedSum_flatMap, total_apply, weightedSum]
  congr 1
  refine map_congr_left fun tuple _ => ?_
  by_cases none : right.group tuple.1.1 = 0
  · simp [none]
  · simp only [none, if_false]
    rw [partners, ZSet.total_apply, weightedSum, weightedSum, List.smul_sum, List.map_map,
      List.map_map]
    congr 1
    exact map_congr_left fun entry _ => mul_smul tuple.2 entry.2 _

/-- A left join on keys of mapped batches: the pairs that agree on the key, and the pairs
without a partner. -/
theorem leftJoin_map_map (absent : Second)
    (toLeft : K × V → JoinKey × First) (toRight : OtherKey × O → JoinKey × Second)
    (nonneg : right.Nonneg) :
    leftJoin combine absent (map toLeft left) (map toRight right) =
      thetaJoin (sameKey toLeft toRight)
          (fun first second => combine (toLeft first).1 (toLeft first).2 (toRight second).2) left
          right +
        map (fun first => combine (toLeft first).1 (toLeft first).2 absent)
          (unmatched (sameKey toLeft toRight) left right) := by
  have partnersOf : ∀ first : K × V,
      partners combine (toLeft first) ((map toRight right).group (toLeft first).1) =
        total (fun second => if (toRight second).1 = (toLeft first).1
          then single (combine (toLeft first).1 (toLeft first).2 (toRight second).2) else 0)
          right := fun first => by
    rw [partners, ← total_ite, total_map]
  rw [leftJoin_eq_total, total_map, thetaJoin_eq_total, unmatched,
    map_eq_total fun first => combine (toLeft first).1 (toLeft first).2 absent, total_filter,
    ← total_add]
  congr 2
  funext first
  have noPartner : filter (sameKey toLeft toRight first) right = 0 ↔
      (map toRight right).group (toLeft first).1 = 0 := (group_map_eq_zero_iff nonneg _).symm
  simp only [decide_eq_true_eq, sameKey_eq_true_iff, noPartner, ← partnersOf]
  by_cases none : (map toRight right).group (toLeft first).1 = 0
  · rw [if_pos none, if_pos none, none, partners, map_zero, zero_add]
  · rw [if_neg none, if_neg none, add_zero]

end

/-- The keys of two batches, with the products of their weights. -/
theorem weight_join_keys (left right : IndexedZSet K Unit) (key : K) :
    (left.join (fun key _ _ => (key, ())) right).weight key () =
      left.weight key () * right.weight key () := by
  have partner : ∀ pair : K × Unit,
      (partners (fun key _ _ => (key, ())) pair (right.group pair.1)).weight key () =
        if pair.1 = key then right.weight key () else 0 := by
    intro pair
    rw [partners, ZSet.total_unique, weight_smul, weight_single]
    by_cases same : pair.1 = key
    · simp [same, weight]
    · simp [same]
  calc (left.join (fun key _ _ => (key, ())) right).weight key ()
      = weightHom (key, ()) (left.join (fun key _ _ => (key, ())) right) := rfl
    _ = total (fun pair => if pair.1 = key then right.weight key () else 0) left := by
        rw [join_eq_total, map_total]
        exact total_congr fun _ _ _ => partner _
    _ = left.weight key () * right.weight key () := by
        rw [total_ite (fun _ => right.weight key ()), ZSet.total_unique, smul_eq_mul]
        rfl
section

/-- Map every pair, unless the function fails on one. -/
def tryMap (function : K × V → Option (OK × OV)) (batch : IndexedZSet K V) :
    Option (IndexedZSet OK OV) :=
  (batch.tuples.mapM fun tuple => (function tuple.1).map fun pair => (pair, tuple.2)).map ofTuples

variable (result : K × V → OK × OV)

/-- Where the function does not fail this is an ordinary map. -/
theorem tryMap_eq_map {function : K × V → Option (OK × OV)}
    (succeeds : ∀ key value, batch.weight key value ≠ 0 →
      function (key, value) = some (result (key, value))) :
    tryMap function batch = some (map result batch) := by
  have all : batch.tuples.mapM (fun tuple =>
      (function tuple.1).map fun pair => (pair, tuple.2)) =
        some (flatMapTuples (fun pair => [result pair]) batch.tuples) := by
    have each : ∀ tuple ∈ batch.tuples, function tuple.1 = some (result tuple.1) := by
      rintro ⟨⟨key, value⟩, weight⟩ member
      obtain ⟨rfl, nonzero⟩ := mem_tuples.mp member
      exact succeeds key value nonzero
    rw [mapM_eq_some_map fun tuple member => by rw [each tuple member, Option.map_some]]
    simp [flatMapTuples, map_eq_flatMap]
  rw [tryMap, all]
  rfl

/-- A map that may fail after one that does not. -/
theorem tryMap_map {MidKey MidValue : Type*} [LinearOrder MidKey]
    [LinearOrder MidValue] [Inhabited OK] [Inhabited OV]
    {outer : MidKey × MidValue → Option (OK × OV)} {inner : K × V → MidKey × MidValue}
    (nonneg : batch.Nonneg)
    (succeeds : ∀ key value, batch.weight key value ≠ 0 →
      outer (inner (key, value)) = some (result (key, value))) :
    tryMap outer (map inner batch) = some (map result batch) := by
  have each : ∀ key value, (map inner batch).weight key value ≠ 0 →
      outer (key, value) = some ((outer (key, value)).getD default) := by
    intro key value present
    obtain ⟨pair, inside, same⟩ := (flatMap_pos_iff nonneg).mp (nonneg.map.pos_iff.mpr present)
    rw [mem_singleton.mp same, succeeds pair.1 pair.2 inside.ne']
    rfl
  rw [tryMap_eq_map (fun pair => (outer pair).getD default) each, map_map]
  refine congrArg some (map_congr fun key value present => ?_)
  rw [succeeds key value present]
  rfl

end

end IndexedZSet
