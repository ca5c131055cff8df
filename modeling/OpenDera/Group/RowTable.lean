import Mathlib.Data.Prod.Lex
import OpenDera.Group.Keyed
import OpenDera.Std.ZSetJoin

/-!
# Rewriting a stored table along a joint cursor

`Rank` and `RowNumber` store one row for every value of a group: the value, the data
assigned to it and a weight. To bring the rows from some value on up to date they walk the
changes and the stored rows jointly. For each value they compute its new weight, assign new
data if that is not zero, retract the stored row, and push the two updates in order.

A `RowScheme` says what an operator assigns and how a row holds the weight of its value.
For both, the pushes arrive in the order the builder expects, and they replace the stored
rows by the rows assigned to the sum of the stored values and the changes.
-/

namespace OpenDera.Group

open ZSet SortedMap List Function

section

variable {V D State : Type*}

/-- How an operator assigns data to the values of a group in ascending order. -/
structure RowScheme (V D State : Type*) where
  /-- The data and weight of the row for a value of the given weight. -/
  insert : State → V → ℤ → (D × ℤ) × State
  /-- The weight of the value that a stored row stands for. -/
  count : D × ℤ → ℤ
  /-- The weight with which a stored row is retracted. -/
  retract : D × ℤ → ℤ
  count_insert : ∀ state value weight, count (insert state value weight).1 = weight
  retract_insert : ∀ state value weight,
    retract (insert state value weight).1 = -(insert state value weight).1.2
  insert_ne_zero : ∀ state value weight, weight ≠ 0 → (insert state value weight).1.2 ≠ 0

/-- A stored row as a tuple of the table. -/
def toRow (row : V × D × ℤ) : (V ×ₗ D) × ℤ :=
  (toLex (row.1, row.2.1), row.2.2)

/-- A tuple of the table as a stored row. -/
def ofRow (tuple : (V ×ₗ D) × ℤ) : V × D × ℤ := ((ofLex tuple.1).1, (ofLex tuple.1).2, tuple.2)

/-- A value under the joint cursor: its change, if any, and its stored row, if any. -/
abbrev JointItem (V D : Type*) := V × Option ℤ × Option (D × ℤ)

namespace RowScheme

variable (scheme : RowScheme V D State)

/-- The new weight of the value under the joint cursor. -/
def newWeight (item : JointItem V D) : ℤ := item.2.1.getD 0 + (item.2.2.map scheme.count).getD 0

variable (state : State)

/-- The update that inserts the new row of the value under the joint cursor, and the
state after it. -/
def insertion (item : JointItem V D) : Option ((V ×ₗ D) × ℤ) × State :=
  if scheme.newWeight item = 0 then (none, state)
  else
    let inserted := scheme.insert state item.1 (scheme.newWeight item)
    (some (toRow (item.1, inserted.1)), inserted.2)

variable (item : JointItem V D)

/-- The update that retracts the stored row of the value under the joint cursor. -/
def retraction : Option ((V ×ₗ D) × ℤ) :=
  item.2.2.map fun stored => toRow (item.1, stored.1, scheme.retract stored)

variable (items : List (JointItem V D))

/-- The stored rows under the joint cursor. -/
def storedRows : List (V × D × ℤ) :=
  items.filterMap fun item => item.2.2.map fun stored => (item.1, stored)

/-- The values under the joint cursor with their new weights. -/
def newEntries : List (V × ℤ) := items.filterMap fun item =>
    if scheme.newWeight item = 0 then none else some (item.1, scheme.newWeight item)

/-- The rows assigned to a list of weighted values. -/
def assign (state : State) : List (V × ℤ) → List (V × D × ℤ)
  | [] => []
  | entry :: entries =>
    (entry.1, (scheme.insert state entry.1 entry.2).1) ::
      assign (scheme.insert state entry.1 entry.2).2 entries

variable (entries : List (V × ℤ)) (rows : List (V × D × ℤ))

/-- Rows the scheme could have assigned: they are retracted with their own weight. -/
def Lawful : Prop :=
  ∀ row ∈ rows, scheme.retract row.2 = -row.2.2 ∧ row.2.2 ≠ 0

/-- The weighted values a list of rows stands for. -/
def counts : List (V × ℤ) :=
  rows.map fun row => (row.1, scheme.count row.2)

theorem counts_append (first second : List (V × D × ℤ)) :
    scheme.counts (first ++ second) = scheme.counts first ++ scheme.counts second :=
  map_append

theorem counts_filter (keep : V → Bool) (rows : List (V × D × ℤ)) :
    scheme.counts (rows.filter fun row => keep row.1) =
      (scheme.counts rows).filter fun entry => keep entry.1 := by
  simp [counts, filter_map, comp_def]

@[simp] theorem counts_assign : scheme.counts (scheme.assign state entries) = entries := by
  induction entries generalizing state with
  | nil => rfl
  | cons entry _ ih =>
    have rest := ih (scheme.insert state entry.1 entry.2).2
    simp only [counts] at rest
    simp [counts, assign, scheme.count_insert, rest]

theorem lawful_assign {entries : List (V × ℤ)}
    (nonzero : ∀ entry ∈ entries, entry.2 ≠ 0) : scheme.Lawful (scheme.assign state entries) := by
  induction entries generalizing state with
  | nil => simp [assign, Lawful]
  | cons entry _ ih =>
    rw [forall_mem_cons] at nonzero
    rw [assign, Lawful, forall_mem_cons]
    exact ⟨⟨scheme.retract_insert state entry.1 entry.2,
      scheme.insert_ne_zero state entry.1 entry.2 nonzero.1⟩, ih _ nonzero.2⟩

/-- Retractions of lawful stored rows change them. -/
theorem retraction_ne_zero {item : JointItem V D} (lawful : scheme.Lawful (storedRows [item])) :
    ∀ tuple ∈ (scheme.retraction item).toList, tuple.2 ≠ 0 := by
  obtain ⟨value, change, _ | stored⟩ := item
  · simp [retraction]
  · obtain ⟨own, nonzero⟩ := lawful (value, stored) (by simp [storedRows])
    simpa [retraction, toRow, own] using nonzero

/-- Insertions change their rows, and are to rows of their value. -/
theorem insertion_spec : ∀ tuple ∈ (scheme.insertion state item).1.toList,
      (ofRow tuple).1 = item.1 ∧ tuple.2 ≠ 0 := by
  rw [insertion]
  split_ifs with gone
  · simp
  · simpa [ofRow, toRow] using scheme.insert_ne_zero state item.1 _ gone

/-- What the rows assigned to the values under the joint cursor begin with. -/
theorem assign_newEntries_cons :
    (scheme.assign state (scheme.newEntries (item :: items))).map toRow =
      (scheme.insertion state item).1.toList ++
        (scheme.assign (scheme.insertion state item).2 (scheme.newEntries items)).map toRow := by
  by_cases gone : scheme.newWeight item = 0 <;> simp [newEntries, insertion, gone, assign]

theorem storedRows_cons : storedRows (item :: items) = storedRows [item] ++ storedRows items := by
  simp only [storedRows, ← filterMap_append, singleton_append]

end RowScheme

variable [LinearOrder V] [LinearOrder D] (insertion retraction : Option ((V ×ₗ D) × ℤ))

/-- Push an insertion and a retraction in the order of their rows, adding the weights
when the rows are the same. -/
def pushUpdates : List ((V ×ₗ D) × ℤ) :=
  match insertion, retraction with
  | some inserted, none => [inserted]
  | none, some retracted => [retracted]
  | some inserted, some retracted =>
    if inserted.1 < retracted.1 then [inserted, retracted]
    else if inserted.1 = retracted.1 then
      if inserted.2 + retracted.2 = 0 then [] else [(inserted.1, inserted.2 + retracted.2)]
    else [retracted, inserted]
  | none, none => []

attribute [local simp] pushUpdates

/-- Pushing an insertion and a retraction adds both. -/
theorem weightOf_pushUpdates (row : V ×ₗ D) : weightOf (pushUpdates insertion retraction) row =
      weightOf insertion.toList row + weightOf retraction.toList row := by
  rcases insertion with _ | inserted <;> rcases retraction with _ | retracted
  · simp
  · simp
  · simp
  · rw [pushUpdates]
    split_ifs with below same cancel
    · simp
    · by_cases atRow : retracted.1 = row <;> simp [same, atRow, cancel]
    · by_cases atRow : retracted.1 = row <;> simp [same, atRow]
    · simp [add_comm]

variable {insertion retraction}

/-- The pushes of one iteration are to the rows of its updates. -/
theorem mem_pushUpdates {tuple : (V ×ₗ D) × ℤ} (member : tuple ∈ pushUpdates insertion retraction) :
    ∃ update ∈ insertion.toList ++ retraction.toList, tuple.1 = update.1 := by
  rcases insertion with _ | inserted <;> rcases retraction with _ | retracted
  · simp at member
  · simp_all
  · simp_all
  · rw [pushUpdates] at member
    split_ifs at member <;> simp at member ⊢ <;> grind

attribute [local simp] SortedMap.Sorted in
/-- The pushes of one iteration are in order and change their rows. -/
theorem ordered_pushUpdates
    (nonzero : ∀ tuple ∈ insertion.toList ++ retraction.toList, tuple.2 ≠ 0) :
    SortedMap.Sorted (pushUpdates insertion retraction) ∧
      ∀ tuple ∈ pushUpdates insertion retraction, tuple.2 ≠ 0 := by
  rcases insertion with _ | inserted <;> rcases retraction with _ | retracted
  · simp
  · simpa using nonzero
  · simpa using nonzero
  · simp only [Option.toList_some, cons_append, nil_append, mem_cons,
      not_mem_nil, or_false, forall_eq_or_imp, forall_eq] at nonzero
    rw [pushUpdates]
    split_ifs with below same cancel
    · simp [below, nonzero]
    · simp
    · simp [cancel]
    · have above := lt_of_le_of_ne (not_lt.mp below) (Ne.symm same)
      simp [above, nonzero]

namespace RowScheme

variable (scheme : RowScheme V D State)

/-- The loop over the joint cursor: the pushes of every iteration. -/
def update (state : State) : List (JointItem V D) → List (List ((V ×ₗ D) × ℤ))
  | [] => []
  | item :: items =>
    pushUpdates (scheme.insertion state item).1 (scheme.retraction item) ::
      update (scheme.insertion state item).2 items

/-- Retracting lawful stored rows subtracts them. -/
theorem weightOf_retraction {item : JointItem V D}
    (lawful : scheme.Lawful (storedRows [item])) (row : V ×ₗ D) :
    weightOf (scheme.retraction item).toList row =
      -weightOf ((storedRows [item]).map toRow) row := by
  obtain ⟨value, change, _ | stored⟩ := item
  · simp [retraction, storedRows]
  · have own : scheme.retract stored = -stored.2 :=
      (lawful (value, stored) (by simp [storedRows])).1
    by_cases atRow : toLex (value, stored.1) = row <;>
      simp [retraction, storedRows, toRow, own, atRow]

/-- The loop replaces the stored rows under the joint cursor by new ones. -/
theorem ofTuples_update (state : State) (items : List (JointItem V D))
    (lawful : scheme.Lawful (storedRows items)) :
    ofTuples (scheme.update state items).flatten =
      ofTuples ((scheme.assign state (scheme.newEntries items)).map toRow) -
        ofTuples ((storedRows items).map toRow) := by
  ext row
  simp only [weight_ofTuples, weight_sub]
  induction items generalizing state with
  | nil => simp [update, newEntries, storedRows, assign]
  | cons _ _ ih =>
    rw [storedRows_cons] at lawful ⊢
    have both := forall_mem_append.mp lawful
    rw [update, flatten_cons, weightOf_append, weightOf_pushUpdates,
      scheme.weightOf_retraction both.1, ih _ both.2, assign_newEntries_cons,
      map_append, weightOf_append, weightOf_append]
    omega

variable {tuple : (V ×ₗ D) × ℤ}

/-- The pushes of one iteration are to rows of its value. -/
theorem value_of_mem_iteration {state : State} {item : JointItem V D}
    (member : tuple ∈ pushUpdates (scheme.insertion state item).1 (scheme.retraction item)) :
    (ofRow tuple).1 = item.1 := by
  obtain ⟨update, updateMember, same⟩ := mem_pushUpdates member
  have sameValue : (ofRow tuple).1 = (ofRow update).1 := by rw [ofRow, ofRow, same]
  rw [sameValue]
  rcases mem_append.mp updateMember with inserted | retracted
  · exact (scheme.insertion_spec state item update inserted).1
  · obtain ⟨stored, _, rfl⟩ := Option.map_eq_some_iff.mp (Option.mem_toList.mp retracted)
    rfl

variable {items : List (JointItem V D)}

/-- The pushes of the loop are to rows of values under the joint cursor. -/
theorem value_of_mem_update {state : State} (member : tuple ∈ (scheme.update state items).flatten) :
    ∃ item ∈ items, (ofRow tuple).1 = item.1 := by
  induction items generalizing state with
  | nil => simp [update] at member
  | cons item _ ih =>
    rw [update, flatten_cons, mem_append] at member
    rcases member with here | later
    · exact ⟨item, by simp, scheme.value_of_mem_iteration here⟩
    · obtain ⟨other, otherMember, same⟩ := ih later
      exact ⟨other, mem_cons_of_mem _ otherMember, same⟩

/-- The pushes of the loop are in the order of their rows. -/
theorem ordered_update (state : State) (sorted : SortedMap.Sorted items)
    (lawful : scheme.Lawful (storedRows items)) : Ordered (scheme.update state items) := by
  induction items generalizing state with
  | nil => simp [update, Ordered, SortedMap.Sorted]
  | cons item _ ih =>
    rw [storedRows_cons] at lawful
    have both := forall_mem_append.mp lawful
    obtain ⟨pushesSorted, nonzero⟩ := ordered_pushUpdates (forall_mem_append.mpr
      ⟨fun tuple member => (scheme.insertion_spec state item tuple member).2,
        scheme.retraction_ne_zero both.1⟩)
    have rest := ih (scheme.insertion state item).2 sorted.tail both.2
    rw [update, Ordered, flatten_cons, forall_mem_append]
    refine ⟨pairwise_append.mpr ⟨pushesSorted, rest.1, fun first here second later => ?_⟩,
      nonzero, rest.2⟩
    obtain ⟨other, otherMember, same⟩ := scheme.value_of_mem_update later
    refine Prod.Lex.lt_iff.mpr (Or.inl ?_)
    calc (ofRow first).1 = item.1 := scheme.value_of_mem_iteration here
      _ < other.1 := sorted.head_lt otherMember
      _ = (ofRow second).1 := same.symm

end RowScheme

end

/-! ## Tables and their suffixes -/

variable {V D State : Type*} [LinearOrder V] [LinearOrder D]

/-- The rows of a table in ascending order. -/
def tableRows (table : ZSet (V ×ₗ D)) : List (V × D × ℤ) :=
  table.entries.map ofRow

/-- The rows below a value. -/
def rowsBelow (first : V) (rows : List (V × D × ℤ)) : List (V × D × ℤ) :=
  rows.filter fun row => row.1 < first

/-- The rows from a value on. -/
def rowsFrom (first : V) (rows : List (V × D × ℤ)) : List (V × D × ℤ) :=
  rows.filter fun row => first ≤ row.1

section

omit [LinearOrder D]

variable {first : V} {row : V × D × ℤ}

theorem rowsBelow_cons (below : row.1 < first) (rows : List (V × D × ℤ)) :
    rowsBelow first (row :: rows) = row :: rowsBelow first rows := by
  simp [rowsBelow, below]

theorem rowsFrom_cons (below : row.1 < first) (rows : List (V × D × ℤ)) :
    rowsFrom first (row :: rows) = rowsFrom first rows := by
  simp [rowsFrom, below]

variable {rows : List (V × D × ℤ)} (above : ∀ row ∈ rows, first ≤ row.1)

include above

theorem rowsBelow_eq_nil : rowsBelow first rows = [] := by
  simpa [rowsBelow, filter_eq_nil_iff] using above

theorem rowsFrom_eq_self : rowsFrom first rows = rows := by
  simpa [rowsFrom, filter_eq_self] using above

end

variable (table : ZSet (V ×ₗ D))

theorem map_toRow_tableRows : (tableRows table).map toRow = table.entries := by
  simp [tableRows, comp_def, toRow, ofRow]

theorem ofTuples_tableRows : ofTuples ((tableRows table).map toRow) = table := by
  rw [map_toRow_tableRows, ofTuples_entries]

/-- Rows in order of their values are in order of their values and data. -/
theorem sorted_map_toRow {rows : List (V × D × ℤ)} (sorted : SortedMap.Sorted rows) :
    SortedMap.Sorted (rows.map toRow) := by
  refine List.Pairwise.map toRow (fun first second below => ?_) sorted
  exact Prod.Lex.lt_iff.mpr (Or.inl below)

section

variable {group delta : ZSet V} {first : V} (least : ∀ entry ∈ delta.entries, first ≤ entry.1)

include least

/-- Below all changes a group stays as it is. -/
theorem filter_lt_entries_add : ((group + delta).entries.filter fun entry => entry.1 < first) =
      group.entries.filter fun entry => entry.1 < first := by
  have none : (delta.entries.filter fun entry => entry.1 < first) = [] := by
    simpa [filter_eq_nil_iff] using least
  rw [add_comm, entries_add, ← sumEntries_filter delta.sorted group.sorted
    fun value => value < first, none]
  exact sumEntries_nil_left fun entry member =>
    group.nonzero entry (mem_filter.mp member).1

/-- From the first change on, a group is the changes added to it. -/
theorem filter_le_entries_add : ((group + delta).entries.filter fun entry => first ≤ entry.1) =
      sumEntries delta.entries (group.entries.filter fun entry => first ≤ entry.1) := by
  have all : (delta.entries.filter fun entry => first ≤ entry.1) = delta.entries := by
    simpa [filter_eq_self] using least
  rw [add_comm, entries_add, ← sumEntries_filter delta.sorted group.sorted
    fun value => first ≤ value, all]

end

namespace RowScheme

variable (scheme : RowScheme V D State)

/-- The table holds one row for every value of the group. -/
structure Represents (table : ZSet (V ×ₗ D)) (group : ZSet V) : Prop where
  counts : scheme.counts (tableRows table) = group.entries
  lawful : scheme.Lawful (tableRows table)

variable {scheme} {rows : List (V × D × ℤ)} {group : ZSet V}

omit [LinearOrder D] in
theorem sorted_of_counts (counts : scheme.counts rows = group.entries) : SortedMap.Sorted rows := by
  have sorted := group.sorted
  rw [← counts] at sorted
  simpa only [SortedMap.Sorted, RowScheme.counts, pairwise_map] using sorted

variable {table}

section

variable (represents : scheme.Represents table group)

include represents

theorem Represents.sorted : SortedMap.Sorted (tableRows table) :=
  sorted_of_counts represents.counts

theorem Represents.count_ne_zero : ∀ row ∈ tableRows table, scheme.count row.2 ≠ 0 := by
  intro row member
  refine group.nonzero (row.1, scheme.count row.2) ?_
  rw [← represents.counts]
  exact mem_map_of_mem member

/-- A group without values has no table. -/
theorem Represents.table_eq_zero_iff : table = 0 ↔ group = 0 := by
  have noRows : table = 0 ↔ tableRows table = [] := by
    rw [tableRows, map_eq_nil_iff, entries_eq_nil_iff]
  rw [noRows, ← entries_eq_nil_iff, ← represents.counts, RowScheme.counts, map_eq_nil_iff]

end

omit [LinearOrder D] in
/-- Under the joint cursor, values get the sum of their change and their stored count. -/
theorem newEntries_outerJoin (changes : List (V × ℤ)) (rows : List (V × D × ℤ)) :
    scheme.newEntries (outerJoin changes rows) =
      sumEntries changes (scheme.counts rows) := by
  rw [sumEntries, counts, outerJoin_map_second, filterMap_map, newEntries]
  refine filterMap_congr fun item _ => ?_
  by_cases gone : scheme.newWeight item = 0 <;>
    simp [addWeights, ← newWeight.eq_1 scheme item, gone]

/-- The table of lawful rows for the values of a group represents the group. -/
theorem represents_ofTuples (counts : scheme.counts rows = group.entries)
    (lawful : scheme.Lawful rows) :
    tableRows (ofTuples (rows.map toRow)) = rows ∧
      scheme.Represents (ofTuples (rows.map toRow)) group := by
  have same : tableRows (ofTuples (rows.map toRow)) = rows := by
    rw [tableRows, entries_ofTuples (sorted_map_toRow (sorted_of_counts counts)) (by
      rw [forall_mem_map]
      exact fun row member => (lawful row member).2)]
    simp [comp_def, toRow, ofRow]
  exact ⟨same, by rw [same, counts], by rw [same]; exact lawful⟩

/-- Pushing lawful rows for the values of a group one by one pushes them in order. -/
theorem ordered_rows (counts : scheme.counts rows = group.entries) (lawful : scheme.Lawful rows) :
    (rows.map fun row => [toRow row]).flatten = rows.map toRow ∧
      Ordered (rows.map fun row => [toRow row]) := by
  have flat : (rows.map fun row => [toRow row]).flatten = rows.map toRow := by
    rw [← flatMap_def, map_eq_flatMap]
  rw [Ordered, flat, forall_mem_map]
  exact ⟨rfl, sorted_map_toRow (sorted_of_counts counts),
    fun row member => (lawful row member).2⟩

/-- Walking the changes jointly with the stored rows from the first change on keeps the
rows below and assigns the others anew. -/
theorem Represents.update {delta : ZSet V} (represents : scheme.Represents table group)
    {first : V} (least : ∀ entry ∈ delta.entries, first ≤ entry.1) (state : State) :
    let iterations := scheme.update state
      (outerJoin delta.entries (rowsFrom first (tableRows table)))
    Ordered iterations ∧
      tableRows (table + ofTuples iterations.flatten) =
        rowsBelow first (tableRows table) ++ scheme.assign state
          ((group + delta).entries.filter fun entry => first ≤ entry.1) ∧
      scheme.Represents (table + ofTuples iterations.flatten) (group + delta) := by
  intro iterations
  have stored : storedRows (outerJoin delta.entries
      (rowsFrom first (tableRows table))) = rowsFrom first (tableRows table) :=
    outerJoin_filterMap_second _ _
  have lawfulFrom : scheme.Lawful (storedRows (outerJoin delta.entries
      (rowsFrom first (tableRows table)))) := by
    rw [stored]
    exact fun row member => represents.lawful row (mem_filter.mp member).1
  have lawfulBelow : scheme.Lawful (rowsBelow first (tableRows table)) := fun row member =>
    represents.lawful row (mem_filter.mp member).1
  have assigned : scheme.newEntries (outerJoin delta.entries (rowsFrom first (tableRows table))) =
        (group + delta).entries.filter fun entry => first ≤ entry.1 := by
    rw [newEntries_outerJoin, rowsFrom, scheme.counts_filter (fun value => first ≤ value),
      represents.counts, filter_le_entries_add least]
  have ordered : Ordered iterations := scheme.ordered_update state
    (sorted_outerJoin delta.sorted (represents.sorted.filter _)) lawfulFrom
  -- The pushes cancel the stored rows from the first change on and insert the assigned ones.
  have replaced : table + ofTuples iterations.flatten =
      ofTuples ((rowsBelow first (tableRows table) ++ scheme.assign state
        ((group + delta).entries.filter fun entry => first ≤ entry.1)).map toRow) := by
    have split : table = ofTuples ((rowsBelow first (tableRows table)).map toRow) +
        ofTuples ((rowsFrom first (tableRows table)).map toRow) := by
      rw [← ofTuples_append, ← map_append, rowsBelow, rowsFrom,
        filter_lt_append_filter_le represents.sorted, ofTuples_tableRows]
    rw [scheme.ofTuples_update state _ lawfulFrom, stored, assigned, map_append, ofTuples_append]
    nth_rewrite 1 [split]
    abel
  have counts : scheme.counts (rowsBelow first (tableRows table) ++ scheme.assign state
      ((group + delta).entries.filter fun entry => first ≤ entry.1)) = (group + delta).entries := by
    rw [counts_append, counts_assign, rowsBelow, scheme.counts_filter (fun value => value < first),
      represents.counts, ← filter_lt_entries_add least,
      filter_lt_append_filter_le (group + delta).sorted]
  rw [replaced]
  refine ⟨ordered, represents_ofTuples counts (forall_mem_append.mpr ⟨lawfulBelow, ?_⟩)⟩
  exact scheme.lawful_assign state fun entry member =>
    (group + delta).nonzero entry (mem_filter.mp member).1

end RowScheme

end OpenDera.Group
