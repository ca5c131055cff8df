import OpenDera.Std.ThetaJoin

/-!
# Grouping rows

Weights of the operators that group rows: an index of a table by a key that is
computed from the row, a summary of every group by one value, and a map that
keeps different pairs apart.
-/

/-- If a traversal succeeds, it does so on every element. -/
theorem exists_of_mapM_eq_some {α β : Type*} {function : α → Option β} {elements : List α}
    {results : List β} (succeeds : elements.mapM function = some results) {element : α}
    (member : element ∈ elements) : ∃ result, function element = some result := by
  induction elements generalizing results with
  | nil => exact nomatch member
  | cons _ _ ih =>
    simp only [List.mapM_cons, Option.bind_eq_bind, Option.bind_eq_some_iff] at succeeds
    obtain ⟨result, isResult, others, isOthers, -⟩ := succeeds
    rcases List.mem_cons.mp member with rfl | later
    · exact ⟨result, isResult⟩
    · exact ih isOthers later

namespace IndexedZSet

section

variable {K V OK OV : Type*} [LinearOrder K] [LinearOrder V] [LinearOrder OK] [LinearOrder OV]
  {batch : IndexedZSet K V} {function : K × V → OK × OV}

/-- A pair that is no image has weight zero. -/
theorem weight_map_eq_zero {key : OK} {value : OV}
    (absent : ∀ pair : K × V, batch.weight pair.1 pair.2 ≠ 0 →
      function pair ≠ (key, value)) :
    (map function batch).weight key value = 0 := by
  calc (map function batch).weight key value
      = weightHom (key, value) (map function batch) := rfl
    _ = total (fun _ => 0) batch := by
        rw [map_eq_total, map_total]
        refine total_congr fun first second present => ?_
        change (single (function (first, second))).weight key value = 0
        rw [weight_single, if_neg (absent (first, second) present)]
    _ = 0 := weightedSum_zero batch.tuples

/-- A map that keeps the pairs of a batch apart keeps their weights. -/
theorem weight_map_of_injective
    (injective : ∀ first second : K × V, batch.weight first.1 first.2 ≠ 0 →
      batch.weight second.1 second.2 ≠ 0 → function first = function second → first = second)
    {pair : K × V} (present : batch.weight pair.1 pair.2 ≠ 0) :
    (map function batch).weight (function pair).1 (function pair).2 =
      batch.weight pair.1 pair.2 := by
  calc (map function batch).weight (function pair).1 (function pair).2
      = weightHom (function pair) (map function batch) := rfl
    _ = total (fun other => weightHom pair (single other)) batch := by
        rw [map_eq_total, map_total]
        refine total_congr fun first second occurs => ?_
        change (single (function (first, second))).weight (function pair).1 (function pair).2 =
          (single (first, second)).weight pair.1 pair.2
        rw [weight_single, weight_single]
        refine if_congr ⟨fun same => ?_, fun same => ?_⟩ rfl rfl
        · exact injective (first, second) pair occurs present same
        · exact congrArg function same
    _ = weightHom pair (total single batch) := (map_total _ _ _).symm
    _ = batch.weight pair.1 pair.2 := by
        rw [total_single]
        rfl

/-- A batch holds the pairs with a property once and no others. -/
def Lists (batch : IndexedZSet K V) (member : K → V → Prop) : Prop :=
  ∀ key value, (member key value → batch.weight key value = 1) ∧
    (¬ member key value → batch.weight key value = 0)

/-- What is listed has a weight. -/
theorem Lists.member {member : K → V → Prop} (lists : batch.Lists member) {key : K}
    {value : V} (present : batch.weight key value ≠ 0) : member key value :=
  not_not.mp fun absent => present ((lists key value).2 absent)

theorem Lists.congr {member other : K → V → Prop} (lists : batch.Lists member)
    (same : ∀ key value, member key value ↔ other key value) : batch.Lists other := by
  intro key value
  rw [← same]
  exact lists key value

/-- A map that keeps the listed pairs apart lists their images. -/
theorem Lists.map {member : K → V → Prop} (lists : batch.Lists member)
    (injective : ∀ first second : K × V, member first.1 first.2 → member second.1 second.2 →
      function first = function second → first = second) :
    (batch.map function).Lists fun key value =>
      ∃ pair : K × V, member pair.1 pair.2 ∧ function pair = (key, value) := by
  intro key value
  constructor
  · rintro ⟨pair, inside, same⟩
    have weight := (lists pair.1 pair.2).1 inside
    have occurs : batch.weight pair.1 pair.2 ≠ 0 := by
      rw [weight]
      decide
    have mapped := weight_map_of_injective (fun first second firstOccurs secondOccurs =>
        injective first second (lists.member firstOccurs) (lists.member secondOccurs)) occurs
    rwa [same, weight] at mapped
  · intro absent
    refine weight_map_eq_zero fun pair present same => absent ⟨pair, lists.member present, same⟩

theorem lists_distinct (batch : IndexedZSet K V) :
    batch.distinct.Lists fun key value => 0 < batch.weight key value := by
  intro key value
  rw [weight_distinct]
  exact ⟨fun inside => if_pos inside, fun absent => if_neg absent⟩

theorem map_pos_iff (nonneg : batch.Nonneg) {key : OK} {value : OV} :
    0 < (map function batch).weight key value ↔
      ∃ pair : K × V, 0 < batch.weight pair.1 pair.2 ∧ function pair = (key, value) := by
  rw [IndexedZSet.map, flatMap_pos_iff nonneg]
  simp only [List.mem_singleton, eq_comm]

end

section

variable {K V O : Type*} [LinearOrder K] [LinearOrder V] [LinearOrder O]

/-- The summary of a batch has one value for every group. -/
theorem lists_aggregate (aggregator : ZSet V → O) (batch : IndexedZSet K V) :
    (batch.aggregate fun group => some (aggregator group)).Lists fun key value =>
      batch.group key ≠ 0 ∧ value = aggregator (batch.group key) := by
  intro key value
  have listed : (batch.groups.filterMap fun entry =>
      (some (aggregator entry.2)).map fun value => ((entry.1, value), (1 : ℤ))) =
        (batch.groups.map fun entry => (entry.1, aggregator entry.2)).map
          fun listed => (listed, 1) := by
    rw [List.map_map, ← List.filterMap_eq_map]
    rfl
  have once : (batch.groups.map fun entry => (entry.1, aggregator entry.2)).Nodup :=
    (List.pairwise_map.mpr (batch.sorted.imp fun less same => less.ne (Prod.mk.inj same).1))
  have member : (key, value) ∈ (batch.groups.map fun entry => (entry.1, aggregator entry.2)) ↔
      batch.group key ≠ 0 ∧ value = aggregator (batch.group key) := by
    rw [List.mem_map]
    constructor
    · rintro ⟨⟨found, values⟩, listed, same⟩
      obtain ⟨rfl, nonempty⟩ := mem_groups.mp listed
      cases same
      exact ⟨nonempty, rfl⟩
    · rintro ⟨nonempty, rfl⟩
      exact ⟨(key, batch.group key), mem_groups.mpr ⟨rfl, nonempty⟩, rfl⟩
  rw [aggregate, weight_ofTuples, listed, weightOf_map_const_of_nodup once]
  exact ⟨fun inside => if_pos (member.mpr inside), fun absent => if_neg (mt member.mp absent)⟩

end

section

variable {Row K : Type*} [LinearOrder Row] [LinearOrder K]
  (table : IndexedZSet Row Unit) (project : Row → K)

/-- A table indexed by a key of its rows. -/
theorem weight_index (key : K) (row : Row) :
    (table.map fun pair => (project pair.1, pair.1)).weight key row =
      if project row = key then table.weight row () else 0 := by
  by_cases kept : project row = key ∧ table.weight row () ≠ 0
  case pos =>
    obtain ⟨rfl, present⟩ := kept
    rw [if_pos rfl]
    have injective : ∀ first second : Row × Unit, table.weight first.1 first.2 ≠ 0 →
        table.weight second.1 second.2 ≠ 0 →
          (project first.1, first.1) = (project second.1, second.1) → first = second :=
      fun first second _ _ same => Prod.ext (Prod.mk.inj same).2 rfl
    have occurs : table.weight (row, ()).1 (row, ()).2 ≠ 0 := present
    exact weight_map_of_injective injective occurs
  case neg =>
    rw [weight_map_eq_zero]
    · split
      case isTrue same => exact (not_not.mp fun present => kept ⟨same, present⟩).symm
      case isFalse => rfl
    · rintro ⟨found, ⟨⟩⟩ present same
      obtain ⟨sameKey, rfl⟩ := Prod.mk.inj same
      exact kept ⟨sameKey, present⟩

/-- A group of the index has rows exactly if the table has a row with its key. -/
theorem group_index_ne_zero_iff (key : K) :
    (table.map fun pair => (project pair.1, pair.1)).group key ≠ 0 ↔
      ∃ row, table.weight row () ≠ 0 ∧ project row = key := by
  simp only [group_ne_zero_iff, weight_index, ite_ne_right_iff, and_comm]

end

end IndexedZSet
