import OpenDera.Group.RowTable
import OpenDera.Std.FlatMap
import OpenDera.Std.Occurrences

/-!
# The row number operator

`RowNumber` numbers the rows of every group in ascending order of their values. For every
value it stores the number of its first row and the number of its rows, as the pair
`(row_number, num_rows)` under weight one, and a `flat_map` turns each stored row into
`num_rows` output rows.

In a stored group only the values from the first changed one on are renumbered, starting
after the rows of the value before; in a new group all values are. Only the first of the two
loops keeps its counter from moving backward at a value of negative weight.
-/

namespace OpenDera.Group

open List SortedMap IndexedZSet RowScheme

universe u v w

variable {K : Type u} {V : Type v} {Out : Type w} [LinearOrder K] [LinearOrder V] [LinearOrder Out]

section

/-- The first row number of a value and how many rows it has. -/
abbrev RowNumbers := ℤ ×ₗ ℤ

namespace RowNumber

/-- The counter moves past the rows of a value, and never backward. -/
def advance (currentRowNumber newNumRows : ℤ) : ℤ :=
  if newNumRows > 0 then currentRowNumber + newNumRows else currentRowNumber

/-- What a renumbered value is stored with: the counter and its rows, under weight one. -/
def scheme (V : Type v) : RowScheme V RowNumbers ℤ where
  insert currentRowNumber _ newNumRows :=
    ((toLex (currentRowNumber, newNumRows), 1), advance currentRowNumber newNumRows)
  count row := (ofLex row.1).2
  retract _ := -1
  count_insert _ _ _ := rfl
  retract_insert _ _ _ := rfl
  insert_ne_zero _ _ _ _ := one_ne_zero

/-- The rows of a new group: the counter moves by every weight. -/
def newGroupRows (currentRowNumber : ℤ) : List (V × ℤ) → List (V × RowNumbers × ℤ)
  | [] => []
  | (value, weight) :: entries =>
    (value, toLex (currentRowNumber, weight), 1) ::
      newGroupRows (currentRowNumber + weight) entries

/-- The counter and the position of the trace cursor from which a stored group is
renumbered when `firstDeltaVal` is its first changed value. -/
def startFrom (firstDeltaVal : V) (rows : List (V × RowNumbers × ℤ)) :
    ℤ × List (V × RowNumbers × ℤ) :=
  match Cursor.seekKeyWithReverse (fun value => value < firstDeltaVal) rows with
  | some row =>
    ((ofLex row.2.1).1 + (ofLex row.2.1).2,
      Cursor.seekKeyWith (fun value => firstDeltaVal ≤ value) rows)
  | none => (1, rows)

/-- The differences for one group, iteration by iteration. -/
def updateGroup : GroupUpdate V (V ×ₗ RowNumbers) := fun delta stored =>
  match stored with
  | some table =>
    match delta.entries with
    | [] => []
    | (firstDeltaVal, _) :: _ =>
      let start := startFrom firstDeltaVal (tableRows table)
      (scheme V).update start.1 (outerJoin delta.entries start.2)
  | none => (newGroupRows 1 delta.entries).map fun row => [toRow row]

/-- The numbered output rows of one stored row. -/
def numberedRows (outputFunc : ℤ → V → Out) (row : V ×ₗ RowNumbers) : List Out :=
  let rowNumber := (ofLex (ofLex row).2).1
  let numRows := (ofLex (ofLex row).2).2
  (range numRows.toNat).map fun offset : ℕ => outputFunc (rowNumber + offset) (ofLex row).1

end RowNumber

/-- The row number circuit: the stored rows and everything the `flat_map` behind the
operator put out. -/
structure RowNumberCircuit (K : Type u) (V : Type v) (Out : Type w) [LinearOrder K]
    [LinearOrder V] [LinearOrder Out] where
  trace : IndexedZSet K (V ×ₗ RowNumbers) := 0
  output : IndexedZSet K Out := 0

namespace RowNumberCircuit

/-- One step: the operator's chunks are mapped to output rows and added to the trace. -/
def step (outputFunc : ℤ → V → Out) (circuit : RowNumberCircuit K V Out)
    (input : KeyedStep K V) : Option (RowNumberCircuit K V Out) :=
  (eval RowNumber.updateGroup input circuit.trace).map fun chunks => {
    trace := circuit.trace + ChunkBuffer.sumOf chunks
    output := circuit.output + (chunks.map fun chunk =>
      chunk.1.flatMapIndex (RowNumber.numberedRows outputFunc)).sum }

end RowNumberCircuit

/-! ## When row numbers are consecutive

The stored numbers never exceed the right ones. They fall behind in two cases: in a new
group after a value of negative weight, and in a stored group when the value before the
first changed one has negative weight. -/

variable {V : Type u}

namespace RowNumber

/-- How far the rows of a list of weighted values move the counter. -/
def positives (rows : List (V × RowNumbers × ℤ)) : ℤ :=
  (rows.map fun row => max (ofLex row.2.1).2 0).sum

attribute [local simp] positives

/-- No stored number exceeds the right one. -/
def Bounded (start : ℤ) : List (V × RowNumbers × ℤ) → Prop
  | [] => True
  | row :: rows => (ofLex row.2.1).1 ≤ start ∧ Bounded (start + max (ofLex row.2.1).2 0) rows

/-- Every value of positive weight is stored with the right number. -/
def Exact (start : ℤ) : List (V × RowNumbers × ℤ) → Prop
  | [] => True
  | row :: rows =>
    (0 < (ofLex row.2.1).2 → (ofLex row.2.1).1 = start) ∧
      Exact (start + max (ofLex row.2.1).2 0) rows

theorem bounded_append (start : ℤ) (first second : List (V × RowNumbers × ℤ)) :
    Bounded start (first ++ second) ↔
      Bounded start first ∧ Bounded (start + positives first) second := by
  induction first generalizing start with
  | nil => simp [Bounded]
  | cons _ _ ih =>
    simp [Bounded, ih, and_assoc, add_assoc]

theorem exact_append (start : ℤ) (first second : List (V × RowNumbers × ℤ)) :
    Exact start (first ++ second) ↔
      Exact start first ∧ Exact (start + positives first) second := by
  induction first generalizing start with
  | nil => simp [Exact]
  | cons _ _ ih =>
    simp [Exact, ih, and_assoc, add_assoc]

theorem advance_eq (currentRowNumber newNumRows : ℤ) :
    advance currentRowNumber newNumRows = currentRowNumber + max newNumRows 0 := by
  unfold advance
  split_ifs <;> omega

variable {counter start : ℤ} (entries : List (V × ℤ))

/-- Renumbering from a counter that is not ahead does not get ahead. -/
theorem bounded_assign (behind : counter ≤ start) :
    Bounded start ((scheme V).assign counter entries) := by
  induction entries generalizing counter start with
  | nil => trivial
  | cons _ _ ih =>
    refine ⟨behind, ih ?_⟩
    simp only [scheme, advance_eq, ofLex_toLex]
    omega

/-- Renumbering is right exactly if the counter is, or nothing has to be numbered. -/
theorem exact_assign_iff :
    Exact start ((scheme V).assign counter entries) ↔
      (counter ≠ start → ∀ entry ∈ entries, entry.2 ≤ 0) := by
  induction entries generalizing counter start with
  | nil => simp [assign, Exact]
  | cons entry entries ih =>
    have rest : Exact (start + max entry.2 0) ((scheme V).assign
        (advance counter entry.2) entries) ↔
          (counter ≠ start → ∀ entry ∈ entries, entry.2 ≤ 0) := by
      rw [ih, advance_eq, ne_eq, ne_eq, add_left_inj]
    rw [forall_mem_cons]
    refine Iff.trans (and_congr Iff.rfl rest) ?_
    constructor
    · rintro ⟨here, later⟩ wrong
      exact ⟨not_lt.mp fun positive => wrong (here positive), later wrong⟩
    · intro all
      exact ⟨fun positive => not_not.mp fun wrong => (all wrong).1.not_gt positive,
        fun wrong => (all wrong).2⟩

theorem bounded_newGroupRows (behind : counter ≤ start) :
    Bounded start (newGroupRows counter entries) := by
  induction entries generalizing counter start with
  | nil => trivial
  | cons _ _ ih =>
    refine ⟨behind, ih ?_⟩
    simp only [ofLex_toLex]
    omega

/-- Numbering a new group is right exactly if nothing has to be numbered once the counter
is behind. -/
theorem exact_newGroupRows_iff (behind : counter ≤ start) :
    Exact start (newGroupRows counter entries) ↔
      (counter < start → ∀ entry ∈ entries, entry.2 ≤ 0) ∧
        entries.Pairwise fun earlier later => earlier.2 < 0 → later.2 ≤ 0 := by
  induction entries generalizing counter start with
  | nil => simp [newGroupRows, Exact]
  | cons entry entries ih =>
    obtain ⟨value, weight⟩ := entry
    have rest : Exact (start + max weight 0) (newGroupRows (counter + weight) entries) ↔ _ :=
      ih (by omega)
    refine Iff.trans (and_congr Iff.rfl rest) ?_
    rw [forall_mem_cons, pairwise_cons]
    simp only [ofLex_toLex]
    rcases lt_or_ge weight 0 with negative | nonnegative
    · have late : counter + weight < start + max weight 0 := by omega
      simp only [late, negative, true_implies]
      constructor
      · rintro ⟨-, later, pairwise⟩
        exact ⟨fun _ => ⟨negative.le, later⟩, later, pairwise⟩
      · rintro ⟨-, later, pairwise⟩
        exact ⟨fun positive => by omega, later, pairwise⟩
    · have late : counter + weight < start + max weight 0 ↔ counter < start := by omega
      simp only [late, nonnegative.not_gt, false_implies, implies_true, true_and]
      constructor
      · rintro ⟨here, later, pairwise⟩
        exact ⟨fun wrong => ⟨by omega, later wrong⟩, pairwise⟩
      · rintro ⟨all, pairwise⟩
        refine ⟨fun positive => ?_, fun wrong => (all wrong).2, pairwise⟩
        by_contra wrong
        omega

theorem counts_newGroupRows (counter : ℤ) :
    (scheme V).counts (newGroupRows counter entries) = entries := by
  induction entries generalizing counter with
  | nil => rfl
  | cons entry _ ih =>
    exact congrArg (entry :: ·) (ih (counter + entry.2))

theorem lawful_newGroupRows (counter : ℤ) : (scheme V).Lawful (newGroupRows counter entries) := by
  induction entries generalizing counter with
  | nil => simp [newGroupRows, RowScheme.Lawful]
  | cons entry _ ih =>
    rw [newGroupRows, RowScheme.Lawful, forall_mem_cons]
    exact ⟨⟨rfl, one_ne_zero⟩, ih (counter + entry.2)⟩

/-- The counter after the rows of a list, as it is read off the last one. -/
def counterAfter (rows : List (V × RowNumbers × ℤ)) : ℤ :=
  match rows.getLast? with
  | some row => (ofLex row.2.1).1 + (ofLex row.2.1).2
  | none => 1

variable {rows : List (V × RowNumbers × ℤ)}

/-- The counter read off the last row is not ahead, and it is right exactly if the last
row has not got a negative number of rows. -/
theorem counterAfter_spec (bounded : Bounded 1 rows)
    (nonzero : ∀ row ∈ rows, (ofLex row.2.1).2 ≠ 0) :
    counterAfter rows ≤ 1 + positives rows ∧
      (Exact 1 rows → (counterAfter rows ≠ 1 + positives rows ↔
        ∃ last ∈ rows.getLast?, (ofLex last.2.1).2 < 0)) := by
  induction rows using reverseRecOn with
  | nil => simp [counterAfter]
  | append_singleton rows last =>
    obtain ⟨-, lastBounded, -⟩ := (bounded_append 1 rows [last]).mp bounded
    have lastNonzero := nonzero last (by simp)
    have counter : counterAfter (rows ++ [last]) = (ofLex last.2.1).1 + (ofLex last.2.1).2 := by
      simp [counterAfter]
    have moved : positives (rows ++ [last]) = positives rows + max (ofLex last.2.1).2 0 := by
      simp
    refine ⟨by omega, fun exact => ?_⟩
    obtain ⟨-, lastExact, -⟩ := (exact_append 1 rows [last]).mp exact
    simp only [getLast?_append, getLast?_singleton, Option.some_or, Option.mem_some,
      exists_eq_left']
    omega

variable [LinearOrder V]

section

variable (sorted : SortedMap.Sorted rows)

include sorted

/-- The operator starts behind the rows below the first changed value. -/
theorem startFrom_eq (first : V) :
    startFrom first rows = (counterAfter (rowsBelow first rows), rowsFrom first rows) := by
  have sought : Cursor.seekKeyWith (fun value => first ≤ value) rows = rowsFrom first rows :=
    Cursor.seekKeyWith_eq_filter sorted fun earlier later below found => by
      simpa using (of_decide_eq_true found).trans below.le
  rw [startFrom, Cursor.seekKeyWithReverse_eq_getLast?, sought]
  change (match (rowsBelow first rows).getLast? with | some row => _ | none => _) = _
  rw [counterAfter]
  cases below : (rowsBelow first rows).getLast? with
  | some => rfl
  | none =>
    rw [getLast?_eq_none_iff] at below
    have all := filter_lt_append_filter_le sorted first
    rw [rowsBelow] at below
    rw [below, nil_append] at all
    exact Prod.ext rfl all.symm

theorem bounded_rowsBelow (bounded : Bounded start rows)
    (first : V) : Bounded start (rowsBelow first rows) := by
  rw [← filter_lt_append_filter_le sorted first, bounded_append] at bounded
  exact bounded.1

theorem exact_rowsBelow (exact : Exact start rows)
    (first : V) : Exact start (rowsBelow first rows) := by
  rw [← filter_lt_append_filter_le sorted first, exact_append] at exact
  exact exact.1

end

/-- A step that keeps the row numbers of a group consecutive. In a new group no value of
negative weight comes before one of positive weight. In a stored group, if the last
value before the changed ones has negative weight then no value of positive weight is
left from the first changed one on. -/
def Numberable (group delta : ZSet V) : Prop :=
  if group = 0 then
    delta.entries.Pairwise fun earlier later => earlier.2 < 0 → later.2 ≤ 0
  else
    ∀ first ∈ delta.entries.head?,
      ∀ last ∈ (group.entries.filter fun entry => entry.1 < first.1).getLast?, last.2 < 0 →
        ∀ entry ∈ (group + delta).entries, first.1 ≤ entry.1 → entry.2 ≤ 0

/-- What holds of every stored group: it has a row for every value, and its numbers are
not ahead. -/
structure Stored (table : ZSet (V ×ₗ RowNumbers)) (group : ZSet V) : Prop where
  represents : (scheme V).Represents table group
  bounded : Bounded 1 (tableRows table)

/-- A new group is stored, and numbered right exactly if no value of negative weight
comes before one of positive weight. -/
theorem updateGroup_new (delta : ZSet V) : Ordered (updateGroup delta none) ∧
      Stored (ZSet.ofTuples (updateGroup delta none).flatten) delta ∧
      (Exact 1 (tableRows (ZSet.ofTuples (updateGroup delta none).flatten)) ↔
        delta.entries.Pairwise fun earlier later => earlier.2 < 0 → later.2 ≤ 0) := by
  have counts := counts_newGroupRows delta.entries 1
  have lawful := lawful_newGroupRows delta.entries 1
  obtain ⟨rows, represents⟩ := represents_ofTuples counts lawful
  obtain ⟨flat, ordered⟩ := ordered_rows counts lawful
  have tuples : (updateGroup delta none).flatten = (newGroupRows 1 delta.entries).map toRow := flat
  rw [tuples, rows]
  refine ⟨ordered, ⟨represents, ?_⟩, ?_⟩
  · rw [rows]
    exact bounded_newGroupRows delta.entries le_rfl
  · rw [exact_newGroupRows_iff _ le_rfl]
    simp

variable {table : ZSet (V ×ₗ RowNumbers)} {group : ZSet V}

/-- The last stored row below a value is the last value of the group below it. -/
theorem getLast?_rowsBelow (represents : (scheme V).Represents table group) (first : V) :
    (group.entries.filter fun entry => entry.1 < first).getLast? =
      (rowsBelow first (tableRows table)).getLast?.map fun row => (row.1, (ofLex row.2.1).2) := by
  rw [← represents.counts, ← (scheme V).counts_filter fun value => value < first]
  exact getLast?_map

/-- A stored group stays stored, and its numbers stay right exactly if the counter is not
read off a value of negative weight or nothing is left to be numbered. -/
theorem updateGroup_stored {delta : ZSet V} (stored : Stored table group)
    {first : V × ℤ} {later : List (V × ℤ)} (entries : delta.entries = first :: later) :
    let iterations := updateGroup delta (some table)
    Ordered iterations ∧ Stored (table + ZSet.ofTuples iterations.flatten) (group + delta) ∧
      (Exact 1 (tableRows table) →
        (Exact 1 (tableRows (table + ZSet.ofTuples iterations.flatten)) ↔
          ∀ last ∈ (group.entries.filter fun entry => entry.1 < first.1).getLast?, last.2 < 0 →
            ∀ entry ∈ (group + delta).entries, first.1 ≤ entry.1 → entry.2 ≤ 0)) := by
  intro iterations
  have represents := stored.represents
  have least : ∀ entry ∈ delta.entries, first.1 ≤ entry.1 := by
    have sorted := delta.sorted
    rw [entries] at sorted ⊢
    rw [forall_mem_cons]
    exact ⟨le_rfl, fun entry member => (sorted.head_lt member).le⟩
  have bounded := bounded_rowsBelow represents.sorted stored.bounded first.1
  have nonzero : ∀ row ∈ rowsBelow first.1 (tableRows table), (ofLex row.2.1).2 ≠ 0 :=
    fun row member => represents.count_ne_zero row (mem_filter.mp member).1
  obtain ⟨behind, right⟩ := counterAfter_spec bounded nonzero
  have unfolded : iterations = (scheme V).update
      (counterAfter (rowsBelow first.1 (tableRows table)))
      (outerJoin delta.entries (rowsFrom first.1 (tableRows table))) := by
    simp [iterations, updateGroup, entries, startFrom_eq represents.sorted]
  obtain ⟨ordered, rows, next⟩ := represents.update least
    (counterAfter (rowsBelow first.1 (tableRows table)))
  rw [← unfolded] at ordered rows next
  refine ⟨ordered, ⟨next, ?_⟩, fun exact => ?_⟩
  · rw [rows, bounded_append]
    exact ⟨bounded, bounded_assign _ behind⟩
  · have exactBelow := exact_rowsBelow represents.sorted exact first.1
    rw [rows, exact_append, exact_assign_iff, right exactBelow, getLast?_rowsBelow represents]
    simp only [Option.mem_def, Option.map_eq_some_iff, mem_filter, decide_eq_true_eq]
    constructor
    · rintro ⟨-, numbered⟩ _ ⟨last, isLast, rfl⟩ negative entry member above
      exact numbered ⟨last, isLast, negative⟩ entry ⟨member, above⟩
    · intro numbered
      refine ⟨exactBelow, ?_⟩
      rintro ⟨last, isLast, negative⟩ entry ⟨member, above⟩
      exact numbered _ ⟨last, isLast, rfl⟩ negative entry member above

/-- The changes of a step keep a group stored, and keep its numbers right exactly if the
step is numberable. -/
theorem newTable_spec (stored : Stored table group) (delta : ZSet V) :
    (delta ≠ 0 → Ordered (updateGroup delta (found table))) ∧
      Stored (newTable updateGroup table delta) (group + delta) ∧
      (Exact 1 (tableRows table) →
        (Exact 1 (tableRows (newTable updateGroup table delta)) ↔ Numberable group delta)) := by
  have empty := stored.represents.table_eq_zero_iff
  by_cases unchanged : delta = 0
  · subst unchanged
    refine ⟨fun changed => absurd rfl changed, by simpa [newTable] using stored, fun exact => ?_⟩
    simp [newTable, exact, Numberable]
  rw [newTable, if_neg unchanged, found, Numberable]
  by_cases isNew : group = 0
  · have noTable := empty.mpr isNew
    subst isNew noTable
    obtain ⟨ordered, next, exact⟩ := updateGroup_new delta
    simpa using ⟨fun _ => ordered, next, fun _ => exact⟩
  · rw [if_neg (mt empty.mp isNew), if_neg isNew]
    obtain ⟨first, later, entries⟩ := exists_cons_of_ne_nil
      (mt ZSet.entries_eq_nil_iff.mp unchanged)
    obtain ⟨ordered, next, exact⟩ := updateGroup_stored stored entries
    refine ⟨fun _ => ordered, next, fun isExact => (exact isExact).trans ?_⟩
    simp [entries]

end RowNumber

end

/-! ## Whole runs -/

/-- The rows of a group, its values of positive weight in ascending order and each as often as
its weight says, numbered consecutively from one on. -/
def consecutivelyNumbered (outputFunc : ℤ → V → Out) (group : ZSet V) : ZSet Out :=
  ZSet.ofTuples ((occurrences group.entries).zipIdx.map fun row => (outputFunc (1 + row.2) row.1, 1))

namespace RowNumber

/-- The output rows of a list of stored rows. -/
def outputRows {V : Type v} {Out : Type w} (outputFunc : ℤ → V → Out)
    (rows : List (V × RowNumbers × ℤ)) : List (Out × ℤ) :=
  flatMapTuples (numberedRows outputFunc) (rows.map toRow)

section

variable {V : Type v} {Out : Type w} {outputFunc : ℤ → V → Out} (row : V × RowNumbers × ℤ)

theorem outputRows_cons (rows : List (V × RowNumbers × ℤ)) : outputRows outputFunc (row :: rows) =
      ((range (ofLex row.2.1).2.toNat).map fun offset : ℕ =>
        (outputFunc ((ofLex row.2.1).1 + offset) row.1, row.2.2)) ++ outputRows outputFunc rows := by
  simp [outputRows, flatMapTuples, numberedRows, toRow, Function.comp_def]

theorem zipIdx_replicate (value : V) (count : ℕ) :
    (replicate count value).zipIdx = (range count).map fun offset => (value, offset) := by
  apply ext_getElem <;> simp

/-- Numbering a list that begins with rows of one value. -/
theorem map_zipIdx_replicate_append (start : ℤ) (value : V) (count : ℕ) (rest : List V) :
    ((replicate count value ++ rest).zipIdx.map fun row =>
        (outputFunc (start + row.2) row.1, (1 : ℤ))) =
      ((range count).map fun offset : ℕ => (outputFunc (start + offset) value, 1)) ++
        rest.zipIdx.map fun row => (outputFunc (start + count + row.2) row.1, 1) := by
  rw [zipIdx_append, map_append, zipIdx_replicate, zipIdx_eq_map_add]
  simp [Function.comp_def, add_assoc]

variable {rows : List (V × RowNumbers × ℤ)}

/-- Exact rows are put out as consecutively numbered rows. -/
theorem outputRows_of_exact {start : ℤ} (lawful : (scheme V).Lawful rows)
    (exact : Exact start rows) :
    outputRows outputFunc rows =
      (occurrences ((scheme V).counts rows)).zipIdx.map fun row =>
        (outputFunc (start + row.2) row.1, 1) := by
  induction rows generalizing start with
  | nil => rfl
  | cons row rows ih =>
    rw [RowScheme.Lawful, forall_mem_cons] at lawful
    obtain ⟨here, later⟩ := exact
    have weight : row.2.2 = 1 := (neg_inj.mp lawful.1.1).symm
    have moved : start + max (ofLex row.2.1).2 0 = start + ((ofLex row.2.1).2.toNat : ℤ) := by
      omega
    have rest := ih lawful.2 later
    have split : occurrences ((scheme V).counts (row :: rows)) =
        replicate (ofLex row.2.1).2.toNat row.1 ++ occurrences ((scheme V).counts rows) := rfl
    rw [outputRows_cons, rest, split, map_zipIdx_replicate_append, weight, moved]
    -- A value of positive weight has the right number; any other has no rows.
    congr 1
    refine map_congr_left fun offset member => ?_
    rw [here (by have := mem_range.mp member; omega)]

/-- The rows whose value and number are put out themselves. -/
abbrev pairRows (rows : List (V × RowNumbers × ℤ)) : List ((V ×ₗ ℤ) × ℤ) :=
  outputRows (fun number value => toLex (value, number)) rows

variable [LinearOrder V]

/-- A value is put out once with each of its numbers. -/
theorem weightOf_numbers (own value : V) (first number weight : ℤ) (count : ℕ) :
    weightOf ((range count).map fun offset : ℕ => (toLex (own, first + offset), weight))
        (toLex (value, number)) =
      if own = value ∧ first ≤ number ∧ number < first + count then weight else 0 := by
  have distinct : ((range count).map fun offset : ℕ => toLex (own, first + offset)).Nodup := by
    refine List.Nodup.map (fun one other same => ?_) nodup_range
    have := (Prod.mk.inj (toLex.injective same)).2
    omega
  have member : toLex (value, number) ∈
      ((range count).map fun offset : ℕ => toLex (own, first + offset)) ↔
        own = value ∧ first ≤ number ∧ number < first + count := by
    simp only [mem_map, mem_range, toLex_inj, Prod.mk.injEq]
    constructor
    · rintro ⟨offset, below, same, rfl⟩
      exact ⟨same, by omega, by omega⟩
    · rintro ⟨same, above, below⟩
      exact ⟨(number - first).toNat, by omega, same, by omega⟩
  have distinctly := weightOf_map_const_of_nodup distinct weight (toLex (value, number))
  rw [map_map] at distinctly
  refine distinctly.trans ?_
  simp [member]

/-- The numbers put out for a value are those of its stored row. -/
theorem weightOf_pairRows_cons (rows : List (V × RowNumbers × ℤ)) (value : V) (number : ℤ) :
    weightOf (pairRows (row :: rows)) (toLex (value, number)) =
      (if row.1 = value ∧ (ofLex row.2.1).1 ≤ number ∧
          number < (ofLex row.2.1).1 + (ofLex row.2.1).2 then row.2.2 else 0) +
        weightOf (pairRows rows) (toLex (value, number)) := by
  have inside : (ofLex row.2.1).1 ≤ number ∧
      number < (ofLex row.2.1).1 + (ofLex row.2.1).2.toNat ↔
        (ofLex row.2.1).1 ≤ number ∧ number < (ofLex row.2.1).1 + (ofLex row.2.1).2 := by
    omega
  rw [pairRows, outputRows_cons, weightOf_append, weightOf_numbers]
  simp only [inside]

theorem weightOf_pairRows_of_absent {value : V}
    (absent : ∀ entry ∈ (scheme V).counts rows, entry.1 ≠ value) (number : ℤ) :
    weightOf (pairRows rows) (toLex (value, number)) = 0 := by
  induction rows with
  | nil => rfl
  | cons _ _ ih =>
    rw [counts, map_cons, forall_mem_cons] at absent
    rw [weightOf_pairRows_cons, ih absent.2]
    simp [absent.1]

/-- If rows put out consecutive numbers then their numbers are right. -/
theorem exact_of_pairRows {start : ℤ} (sorted : SortedMap.Sorted rows)
    (lawful : (scheme V).Lawful rows)
    (same : ∀ value number, weightOf (pairRows rows) (toLex (value, number)) =
      weightOf (pairRows ((scheme V).assign start ((scheme V).counts rows)))
        (toLex (value, number))) :
    Exact start rows := by
  induction rows generalizing start with
  | nil => trivial
  | cons row rows ih =>
    rw [RowScheme.Lawful, forall_mem_cons] at lawful
    have weight : row.2.2 = 1 := (neg_inj.mp lawful.1.1).symm
    have absent : ∀ entry ∈ (scheme V).counts rows, entry.1 ≠ row.1 := by
      rw [counts, forall_mem_map]
      exact fun other member => (sorted.head_lt member).ne'
    have absentAssigned : ∀ entry ∈ (scheme V).counts ((scheme V).assign
        (advance start (ofLex row.2.1).2) ((scheme V).counts rows)), entry.1 ≠ row.1 := by
      rwa [counts_assign]
    have assigned : (scheme V).assign start ((scheme V).counts (row :: rows)) =
        (row.1, toLex (start, (ofLex row.2.1).2), 1) :: (scheme V).assign
          (advance start (ofLex row.2.1).2) ((scheme V).counts rows) := rfl
    simp only [assigned, weightOf_pairRows_cons, weight, ofLex_toLex] at same
    refine ⟨fun positive => ?_, ih sorted.tail lawful.2 fun value number => ?_⟩
    · -- Both rows put out their first number, so neither begins before the other.
      have atOwn := same row.1 (ofLex row.2.1).1
      have atRight := same row.1 start
      simp only [weightOf_pairRows_of_absent absent,
        weightOf_pairRows_of_absent absentAssigned, true_and] at atOwn atRight
      split_ifs at atOwn atRight <;> omega
    · rw [← advance_eq]
      by_cases own : value = row.1
      · subst own
        rw [weightOf_pairRows_of_absent absent, weightOf_pairRows_of_absent absentAssigned]
      · simpa [Ne.symm own] using same value number

end

section

variable {table : ZSet (V ×ₗ RowNumbers)} {group : ZSet V}

/-- The output for a stored table is right for every output function if its numbers are. -/
theorem flatMap_numberedRows (stored : Stored table group)
    (exact : Exact 1 (tableRows table)) (outputFunc : ℤ → V → Out) :
    table.flatMap (numberedRows outputFunc) = consecutivelyNumbered outputFunc group := by
  rw [ZSet.flatMap, ← map_toRow_tableRows, consecutivelyNumbered, ← stored.represents.counts,
    ← outputRows_of_exact stored.represents.lawful exact, outputRows]

/-- The numbers of a stored table are right if the numbers put out are. -/
theorem exact_of_flatMap (stored : Stored table group)
    (same : table.flatMap (numberedRows fun number value => toLex (value, number)) =
      consecutivelyNumbered (fun number value => toLex (value, number)) group) :
    Exact 1 (tableRows table) := by
  refine exact_of_pairRows stored.represents.sorted stored.represents.lawful fun value number => ?_
  have right : Exact 1 ((scheme V).assign 1 group.entries) :=
    (exact_assign_iff _).mpr fun wrong => absurd rfl wrong
  have weights := congrArg (ZSet.weight · (toLex (value, number))) same
  rw [stored.represents.counts, pairRows, pairRows,
    outputRows_of_exact ((scheme V).lawful_assign 1 group.nonzero) right,
    counts_assign]
  simpa [ZSet.flatMap, consecutivelyNumbered, outputRows, map_toRow_tableRows] using weights

end

end RowNumber

namespace RowNumberCircuit

/-- What holds after any inputs: every group is stored, and the output is what the stored
rows stand for. -/
structure Invariant (outputFunc : ℤ → V → Out) (inputs : List (KeyedStep K V))
    (circuit : RowNumberCircuit K V Out) : Prop where
  stored : ∀ key, RowNumber.Stored (circuit.trace.group key) ((integral inputs).group key)
  output : ∀ key, circuit.output.group key =
    (circuit.trace.group key).flatMap (RowNumber.numberedRows outputFunc)

/-- The numbers of all groups are right. -/
def Exact (circuit : RowNumberCircuit K V Out) : Prop :=
  ∀ key, RowNumber.Exact 1 (tableRows (circuit.trace.group key))

variable {inputs : List (KeyedStep K V)}

/-- One step keeps the invariant, and keeps the numbers right exactly if it is numberable
for every group. -/
theorem step_spec {outputFunc : ℤ → V → Out} {circuit : RowNumberCircuit K V Out}
    (invariant : Invariant outputFunc inputs circuit) (input : KeyedStep K V) :
    ∃ next, step outputFunc circuit input = some next ∧
      Invariant outputFunc (inputs ++ [input]) next ∧
      (circuit.Exact → (next.Exact ↔
        ∀ key, RowNumber.Numberable ((integral inputs).group key) (input.changes.group key))) := by
  have spec := fun key =>
    RowNumber.newTable_spec (invariant.stored key) (input.changes.group key)
  obtain ⟨chunks, evaluated, tables⟩ := eval_eq input fun key => (spec key).1
  refine ⟨_, by rw [step, evaluated]; rfl, ⟨fun key => ?_, fun key => ?_⟩, fun exact => ?_⟩
  · rw [tables key, integral_append_singleton, group_add]
    exact (spec key).2.1
  · have mapped := flatMapIndex_sum (RowNumber.numberedRows outputFunc) (chunks.map Prod.fst)
    rw [map_map] at mapped
    rw [group_add, group_add, ZSet.flatMap_add, invariant.output key,
      ← group_flatMapIndex _ (ChunkBuffer.sumOf chunks), ChunkBuffer.sumOf, ← mapped]
    rfl
  · refine forall_congr' fun key => ?_
    rw [tables key]
    exact (spec key).2.2 (exact key)

/-- Every step of a run is numberable for every group. -/
def AllNumberable (inputs : List (KeyedStep K V)) : Prop :=
  ∀ earlier input later, inputs = earlier ++ input :: later → ∀ key,
    RowNumber.Numberable ((integral earlier).group key) (input.changes.group key)

variable (outputFunc : ℤ → V → Out)

theorem invariant_empty : Invariant outputFunc [] ({} : RowNumberCircuit K V Out) :=
  ⟨fun _ => ⟨⟨rfl, by simp [tableRows, RowScheme.Lawful]⟩, trivial⟩, fun _ => rfl⟩

section

variable (inputs : List (KeyedStep K V))

/-- Any run succeeds and keeps the invariant. -/
theorem run_invariant : ∃ circuit, Run.run (step outputFunc) {} inputs = some circuit ∧
      Invariant outputFunc inputs circuit := by
  refine Run.invariant (fun _ => True) (Invariant outputFunc) (fun _ _ _ => trivial)
    (invariant_empty outputFunc) (fun inputs input circuit _ invariant => ?_) inputs trivial
  obtain ⟨next, stepped, nextInvariant, -⟩ := step_spec invariant input
  exact ⟨next, stepped, nextInvariant⟩

/-- A run of numberable steps keeps the numbers right. -/
theorem run_exact (numberable : AllNumberable inputs) :
    ∃ circuit, Run.run (step outputFunc) {} inputs = some circuit ∧
      Invariant outputFunc inputs circuit ∧ circuit.Exact := by
  refine Run.invariant AllNumberable
    (fun inputs circuit => Invariant outputFunc inputs circuit ∧ circuit.Exact)
    (fun inputs input numberable earlier other later split => ?_)
    ⟨invariant_empty outputFunc, fun _ => trivial⟩
    (fun inputs input circuit numberable invariant => ?_) inputs numberable
  · exact numberable earlier other (later ++ [input]) (by simp [split])
  · obtain ⟨next, stepped, nextInvariant, exact⟩ := step_spec invariant.1 input
    exact ⟨next, stepped, nextInvariant, (exact invariant.2).mpr (numberable inputs input [] rfl)⟩

end

/-- Numbers that are put out right are stored right. -/
theorem Invariant.exact {circuit : RowNumberCircuit K V (V ×ₗ ℤ)}
    (invariant : Invariant (fun number value => toLex (value, number)) inputs circuit)
    (numbered : ∀ key, circuit.output.group key =
      consecutivelyNumbered (fun number value => toLex (value, number))
        ((integral inputs).group key)) :
    circuit.Exact := fun key =>
  RowNumber.exact_of_flatMap (invariant.stored key)
    ((invariant.output key).symm.trans (numbered key))

/-- In every run the output numbers the rows of every group consecutively after every
step, whatever the output function, exactly if every step is numberable. -/
theorem output_consecutivelyNumbered_iff (inputs : List (KeyedStep K V)) :
    (∀ (Out : Type v) [LinearOrder Out] (outputFunc : ℤ → V → Out)
        (earlier later : List (KeyedStep K V)), inputs = earlier ++ later →
        ∃ circuit, Run.run (step outputFunc) {} earlier = some circuit ∧
          ∀ key, circuit.output.group key =
            consecutivelyNumbered outputFunc ((integral earlier).group key)) ↔
      AllNumberable inputs := by
  constructor
  · intro numbered earlier input later split
    have right := numbered (V ×ₗ ℤ) fun number value => toLex (value, number)
    obtain ⟨circuit, reached, invariant⟩ :=
      run_invariant (fun number (value : V) => toLex (value, number)) earlier
    obtain ⟨next, stepped, nextInvariant, exact⟩ := step_spec invariant input
    have reachedNext : Run.run (step fun number (value : V) => toLex (value, number)) {}
        (earlier ++ [input]) = some next := by
      rw [Run.run_append_singleton, reached, Option.bind_some, stepped]
    obtain ⟨_, sameRun, numberedBefore⟩ := right earlier (input :: later) split
    obtain rfl := Option.some.inj (sameRun.symm.trans reached)
    obtain ⟨_, sameRun, numberedNext⟩ := right (earlier ++ [input]) later (by simp [split])
    obtain rfl := Option.some.inj (sameRun.symm.trans reachedNext)
    exact (exact (invariant.exact numberedBefore)).mp (nextInvariant.exact numberedNext)
  · intro numberable Out _ outputFunc earlier later split
    obtain ⟨circuit, reached, invariant, exact⟩ := run_exact outputFunc earlier
      fun first input rest inner => numberable first input (rest ++ later) (by simp [split, inner])
    refine ⟨circuit, reached, fun key => ?_⟩
    rw [invariant.output key,
      RowNumber.flatMap_numberedRows (invariant.stored key) (exact key) outputFunc]

/-- A new group in which the value 1 of weight minus one comes before the value 2: the row
of 2 gets the number zero. -/
theorem new_group_numbers_from_zero : let inputs : List (KeyedStep ℕ ℕ) :=
      [⟨some (IndexedZSet.ofTuples [((0, 1), -1), ((0, 2), 1)]), 10⟩]
    ∃ circuit, Run.run (step fun number (value : ℕ) => toLex (value, number)) {} inputs =
        some circuit ∧
      circuit.output.group 0 = ZSet.ofTuples [(toLex (2, 0), 1)] ∧
      consecutivelyNumbered (fun number value => toLex (value, number))
        ((integral inputs).group 0) = ZSet.ofTuples [(toLex (2, 1), 1)] ∧
      circuit.output.group 0 ≠ consecutivelyNumbered (fun number value => toLex (value, number))
        ((integral inputs).group 0) := by
  refine ⟨_, rfl, ?_, ?_, ?_⟩ <;> decide

end RowNumberCircuit

end OpenDera.Group
