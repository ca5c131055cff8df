import OpenDera.Group.LagForward
import OpenDera.Group.LagUpdates
import OpenDera.Std.FlatMap

/-!
# The two passes of lag together

The output of a key depends on its weight and on the `lag` occurrences before it. For a
key that the forward pass leaves alone these are the same before and after the change.
So the retractions of the forward pass and the new output of the backward pass bring the
output of a group up to date.
-/

namespace OpenDera.Group.Lag

open List ZSet

section

variable {V Out : Type*} [LinearOrder V] {operator : Lag V Out}

/-- The output for a group: every occurrence with the one `lag` positions before it. -/
def allRows (operator : Lag V Out) (entries : List (V × ℤ)) : List ((V × Out) × ℤ) :=
  (withLater operator.lag (occurrences entries)).map fun pair =>
    ((pair.1, operator.project pair.2), 1)

theorem newRows_eq_filter (entries : List (V × ℤ)) (key : V) :
    newRows operator entries key = (allRows operator entries).filter fun row => row.1.1 = key := by
  rw [newRows, allRows, filter_map]
  rfl

variable {entries : List (V × ℤ)} {entry : V × ℤ}

/-- The output of a key from its weight and the occurrences before it. -/
theorem newRows_of_mem (descending : Descending entries) (member : entry ∈ entries) :
    newRows operator entries entry.1 = (range entry.2.toNat).map fun index =>
      ((entry.1, operator.project (replicate entry.2.toNat entry.1 ++
        occurrences (entries.filter fun other => other.1 < entry.1))[index + operator.lag]?), 1) := by
  obtain ⟨before, after, rfl⟩ := append_of_mem member
  obtain ⟨-, rest, cross⟩ := pairwise_append.mp descending
  have below : (before ++ entry :: after).filter (fun other => other.1 < entry.1) = after := by
    rw [filter_append, filter_cons_of_neg (by simp), filter_eq_nil_iff.mpr,
      filter_eq_self.mpr, nil_append]
    · intro other later
      exact decide_eq_true ((pairwise_cons.mp rest).1 other later)
    · intro other earlier
      simpa using (cross other earlier entry mem_cons_self).le
  rw [newRows_of_startsAt descending ⟨before, after, rfl, rfl⟩, below]
  refine map_congr_left fun index _ => ?_
  rw [occurrences_append, occurrences_cons, Nat.add_assoc, getElem?_append_right (by omega),
    Nat.add_sub_cancel_left]

variable {old new : List (V × ℤ)}

/-- Two groups that agree from `lag` occurrences before a key up to the key have the same
output for it. -/
theorem newRows_eq_of_common (oldDescending : Descending old) (newDescending : Descending new)
    (inOld : entry ∈ old) (inNew : entry ∈ new) {common oldRest newRest : List V}
    (oldBelow : occurrences (old.filter fun other => other.1 < entry.1) = common ++ oldRest)
    (newBelow : occurrences (new.filter fun other => other.1 < entry.1) = common ++ newRest)
    (enough : operator.lag ≤ common.length) :
    newRows operator old entry.1 = newRows operator new entry.1 := by
  rw [newRows_of_mem oldDescending inOld, newRows_of_mem newDescending inNew, oldBelow, newBelow]
  refine map_congr_left fun index member => ?_
  have inRun := mem_range.mp member
  have inCommon : ∀ rest : List V, (replicate entry.2.toNat entry.1 ++
      (common ++ rest))[index + operator.lag]? =
        (replicate entry.2.toNat entry.1 ++ common)[index + operator.lag]? := by
    intro rest
    rw [← append_assoc, getElem?_append_left (by simp; omega)]
  rw [inCommon, inCommon]

variable {rows : List ((V × Out) × ℤ)}

/-- Rows with the weights of the whole output of a group stand for as many occurrences as
there are in the group. -/
theorem rowCount_filter [DecidableEq Out] (positive : ∀ row ∈ rows, 0 < row.2)
    (same : ∀ row, weightOf rows row = weightOf (allRows operator entries) row) (keep : V → Bool) :
    rowCount (rows.filter fun row => keep row.1.1) =
      (occurrences (entries.filter fun entry => keep entry.1)).length := by
  have counted : ((rowCount (rows.filter fun row => keep row.1.1) : ℕ) : ℤ) =
      ((rows.filter fun row => keep row.1.1).map Prod.snd).sum := by
    have positive' : ∀ row ∈ rows.filter fun row => keep row.1.1, 0 < row.2 :=
      fun row member => positive row (mem_of_mem_filter member)
    generalize rows.filter (fun row => keep row.1.1) = kept at positive'
    induction kept with
    | nil => rfl
    | cons _ _ ih =>
      rw [forall_mem_cons] at positive'
      have rest := ih positive'.2
      simp only [rowCount, map_cons, sum_cons] at rest ⊢
      omega
  have whole : (((allRows operator entries).filter fun row => keep row.1.1).map Prod.snd).sum =
      ((occurrences entries).filter keep).length := by
    rw [← map_fst_withLater operator.lag (occurrences entries), filter_map, allRows,
      filter_map, map_map]
    simp [Function.comp_def]
  rw [filter_occurrences] at whole
  have sums := sum_filter_congr same fun row : V × Out => keep row.1
  omega

/-- A key that occurs in a group has output. -/
theorem exists_row_of_occurs [DecidableEq Out] (positive : ∀ row ∈ rows, 0 < row.2)
    (same : ∀ row, weightOf rows row = weightOf (allRows operator entries) row) {key : V}
    (occurs : key ∈ occurrences entries) : ∃ row ∈ rows, row.1.1 = key := by
  have counted := rowCount_filter positive same fun other => other = key
  rw [← filter_occurrences fun other => other = key] at counted
  have some : 0 < ((occurrences entries).filter fun other => other = key).length :=
    length_pos_of_mem (mem_filter.mpr ⟨occurs, decide_eq_true rfl⟩)
  have notEmpty : rows.filter (fun row => row.1.1 = key) ≠ [] := by
    intro empty
    rw [empty] at counted
    simp only [rowCount, map_nil, sum_nil] at counted
    omega
  obtain ⟨row, member⟩ := exists_mem_of_ne_nil _ notEmpty
  exact ⟨row, mem_of_mem_filter member, by simpa using (mem_filter.mp member).2⟩

/-- What happens to a group: its values change at the changed keys only. -/
structure Changes (inputDelta old new : List (V × ℤ)) : Prop where
  sorted : SortedMap.Sorted inputDelta
  oldDescending : Descending old
  newDescending : Descending new
  nonzero : ∀ entry ∈ new, entry.2 ≠ 0
  unchanged : ∀ keep : V → Bool, (∀ change ∈ inputDelta, keep change.1 = false) →
    (old.filter fun entry => keep entry.1) = new.filter fun entry => keep entry.1

variable {inputDelta : List (V × ℤ)} (changes : Changes inputDelta old new)

include changes

/-- A key that is not changed has the same entries before and after. -/
theorem Changes.mem_iff (notChanged : ∀ change ∈ inputDelta, change.1 ≠ entry.1) :
    entry ∈ old ↔ entry ∈ new := by
  have same := changes.unchanged (fun key => key = entry.1) fun change member => by
    simpa using notChanged change member
  have filtered : ∀ entries : List (V × ℤ), entry ∈ entries ↔
      entry ∈ entries.filter fun other => other.1 = entry.1 := by simp
  rw [filtered old, same, ← filtered]

/-- Below a key that is far from the changes before it, at least `lag` occurrences are the
same before and after. -/
theorem Changes.common {key : V} {lag : Nat} (far : ∀ change ∈ inputDelta, change.1 < key → lag ≤
      (occurrences (old.filter fun entry => change.1 < entry.1 ∧ entry.1 < key)).length) :
    (old.filter fun entry => entry.1 < key) = (new.filter fun entry => entry.1 < key) ∨
      ∃ common oldRest newRest, lag ≤ common.length ∧
        occurrences (old.filter fun entry => entry.1 < key) = common ++ oldRest ∧
        occurrences (new.filter fun entry => entry.1 < key) = common ++ newRest := by
  cases isLast : (inputDelta.filter fun change => change.1 < key).getLast? with
  | none =>
    refine .inl (changes.unchanged (fun other => other < key) fun change member => ?_)
    have noneBelow := getLast?_eq_none_iff.mp isLast
    simpa using filter_eq_nil_iff.mp noneBelow change member
  | some last =>
    obtain ⟨member, below⟩ := mem_filter.mp (mem_of_getLast? isLast)
    have greatest := (changes.sorted.filter _).le_getLast? isLast
    have same := changes.unchanged (fun other => last.1 < other ∧ other < key) fun change changed => by
      rw [decide_eq_false_iff_not]
      rintro ⟨above, lower⟩
      exact (greatest change (mem_filter.mpr ⟨changed, decide_eq_true lower⟩)).not_gt above
    have split : ∀ {entries : List (V × ℤ)}, Descending entries →
        ∃ rest, occurrences (entries.filter fun entry => entry.1 < key) = occurrences
          (entries.filter fun entry => last.1 < entry.1 ∧ entry.1 < key) ++ rest := by
      intro entries descending
      have parts := OrderedList.filter_append_filter_not
        (descending.sublist (filter_sublist (p := fun entry => entry.1 < key)))
        (fun entry => last.1 < entry.1) fun first _ second order kept =>
          decide_eq_true ((of_decide_eq_true kept).trans order)
      refine ⟨occurrences ((entries.filter fun entry => entry.1 < key).filter fun entry =>
        !decide (last.1 < entry.1)), ?_⟩
      nth_rewrite 1 [← parts]
      rw [occurrences_append]
      nth_rewrite 1 [filter_filter]
      simp only [Bool.decide_and]
    obtain ⟨oldRest, oldSplit⟩ := split changes.oldDescending
    obtain ⟨newRest, newSplit⟩ := split changes.newDescending
    exact .inr ⟨_, oldRest, newRest, far last member (of_decide_eq_true below), oldSplit,
      by rw [newSplit, same]⟩

/-- The output of a key that the forward pass leaves alone does not change. -/
theorem newRows_eq_of_not_affected [DecidableEq Out] (positive : ∀ row ∈ rows, 0 < row.2)
    (same : ∀ row, weightOf rows row = weightOf (allRows operator old) row) {lag : Nat}
    {result : List V × List ((V × Out) × ℤ)}
    (forward : Forward operator lag inputDelta rows result) {key : V}
    (notAffected : key ∉ result.1) : newRows operator old key = newRows operator new key := by
  have notChanged : ∀ change ∈ inputDelta, change.1 ≠ key := fun change member equal =>
    notAffected (equal ▸ forward.changed change member)
  by_cases occurs : key ∈ occurrences old
  · obtain ⟨row, rowMember, rfl⟩ := exists_row_of_occurs positive same occurs
    obtain ⟨entry, inOld, isKey, -⟩ := mem_occurrences.mp occurs
    rw [← isKey] at notChanged notAffected ⊢
    have inNew := (changes.mem_iff notChanged).mp inOld
    have far : ∀ change ∈ inputDelta, change.1 < entry.1 → operator.lag ≤ (occurrences
        (old.filter fun other => change.1 < other.1 ∧ other.1 < entry.1)).length := by
      intro change changed below
      rw [← rowCount_filter positive same fun other => change.1 < other ∧ other < entry.1]
      have counted := forward.far row rowMember (isKey ▸ notAffected) change changed (isKey ▸ below)
      rwa [← isKey] at counted
    rcases changes.common far with equal | ⟨common, oldRest, newRest, enough, oldBelow, newBelow⟩
    · rw [newRows_of_mem changes.oldDescending inOld, newRows_of_mem changes.newDescending inNew,
        equal]
    · exact newRows_eq_of_common changes.oldDescending changes.newDescending inOld inNew oldBelow
        newBelow enough
  · have absent : Absent old key := fun entry member equal => not_lt.mp fun occursHere =>
      occurs (mem_occurrences.mpr ⟨entry, member, equal, occursHere⟩)
    rw [newRows_of_absent absent, newRows_of_absent fun entry member equal =>
      absent entry ((changes.mem_iff (equal ▸ notChanged)).mpr member) equal]

omit changes

theorem weightOf_newRows [DecidableEq Out] (entries : List (V × ℤ)) (key : V) (row : V × Out) :
    weightOf (newRows operator entries key) row =
      if row.1 = key then weightOf (allRows operator entries) row else 0 := by
  rw [newRows_eq_filter, weightOf_filter fun row : V × Out => row.1 = key]
  simp only [decide_eq_true_eq]

/-- The output of some keys has the weights of the whole output at these keys. -/
theorem weightOf_flatMap_newRows [DecidableEq Out] (entries : List (V × ℤ))
    {keys : List V} (distinct : keys.Nodup) (row : V × Out) :
    weightOf (keys.flatMap (newRows operator entries)) row =
      if row.1 ∈ keys then weightOf (allRows operator entries) row else 0 := by
  induction keys with
  | nil => simp
  | cons key _ ih =>
    rw [nodup_cons] at distinct
    rw [flatMap_cons, weightOf_append, weightOf_newRows, ih distinct.2]
    by_cases same : row.1 = key
    · simp [same, distinct.1]
    · simp [same]

/-- The two passes bring the output of a group up to date. -/
theorem transformAlong_eq [DecidableEq Out] (along : operator.keyCmp = compare)
    (changes : Changes inputDelta old new) (byKey : ByKey rows) (positive : ∀ row ∈ rows, 0 < row.2)
    (same : ∀ row, weightOf rows row = weightOf (allRows operator old) row) :
    ∃ output, operator.transformAlong inputDelta rows new = some output ∧
      ∀ row, weightOf rows row + weightOf output row = weightOf (allRows operator new) row := by
  have forward := forward_computeRetractions along (Nat.zero_le _) changes.sorted byKey
  refine ⟨_, by rw [transformAlong, computeUpdates_eq along changes.newDescending changes.nonzero
    forward.ordered, Option.map_some], fun row => ?_⟩
  generalize operator.computeRetractions 0 inputDelta rows = result at forward
  have distinct : result.1.Nodup := forward.ordered.imp fun below => ne_of_lt below
  rw [weightOf_append, forward.retracted, retract, weightOf_map_neg,
    weightOf_filter fun row : V × Out => row.1 ∈ result.1,
    weightOf_flatMap_newRows new (nodup_reverse.mpr distinct)]
  simp only [mem_reverse, decide_eq_true_eq]
  split_ifs with affected
  · exact add_neg_cancel_left _ _
  · have untouched := congrArg (weightOf · row)
      (newRows_eq_of_not_affected changes positive same forward affected)
    simp only [weightOf_newRows, if_true] at untouched
    rw [neg_zero, add_zero, add_zero, same, untouched]

end

/-! ## Whole runs -/

variable {V Out : Type*} [LinearOrder V] [LinearOrder Out] (offset : ℤ)

/-- The occurrences in a group, in ascending order for a lag and in descending order for a
lead. -/
def expand (values : ZSet V) : List V :=
  if 0 < offset then occurrences values.entries else (occurrences values.entries).reverse

/-- Every occurrence in a group, paired with the projection of the occurrence a number of
positions before it. -/
def reference (project : Option V → Out) (values : ZSet V) : ZSet (V ×ₗ Out) :=
  ofTuples ((withEarlier offset.natAbs (expand offset values)).map fun pair =>
    (toLex (pair.1, project pair.2), 1))

variable (rows : List ((V × Out) × ℤ))

/-- Rows of output as tuples of a Z-set. -/
def rowTuples : List ((V ×ₗ Out) × ℤ) :=
  rows.map fun row => (toLex row.1, row.2)

theorem weightOf_rowTuples (row : V × Out) :
    weightOf (rowTuples rows) (toLex row) = weightOf rows row := by
  induction rows with
  | nil => rfl
  | cons _ _ ih =>
    rw [rowTuples] at ih
    simp [rowTuples, ih]

/-- The values of a group in the order of the backward pass. -/
def backward (entries : List (V × ℤ)) : List (V × ℤ) :=
  if 0 < offset then entries.reverse else entries

/-- The reference is the output that the backward pass computes for all keys. -/
theorem weight_reference (project : Option V → Out) (values : ZSet V) (row : V × Out) :
    (reference offset project values).weight (toLex row) =
      weightOf (allRows (dynLag offset project) (backward offset values.entries)) row := by
  have reversed : (expand offset values).reverse = occurrences (backward offset values.entries) := by
    rw [expand, backward]
    split_ifs
    · exact (occurrences_reverse _).symm
    · exact reverse_reverse _
  rw [reference, weight_ofTuples, withEarlier_eq_reverse, reversed, map_reverse,
    weightOf_perm (reverse_perm _), ← weightOf_rowTuples, rowTuples, allRows, map_map]
  rfl

variable (delta values : ZSet V)

/-- A change leaves the entries at other keys alone. -/
theorem filter_entries_add (keep : V → Bool)
    (others : ∀ change ∈ delta.entries, keep change.1 = false) :
    (values.entries.filter fun entry => keep entry.1) =
      (delta + values).entries.filter fun entry => keep entry.1 := by
  have none : (delta.entries.filter fun entry => keep entry.1) = [] :=
    filter_eq_nil_iff.mpr fun change member => by simp [others change member]
  rw [entries_add, ← sumEntries_filter delta.sorted values.sorted, none,
    sumEntries_nil_left fun entry member => values.nonzero entry (mem_of_mem_filter member)]

section

variable (project : Option V → Out) (values : ZSet V)

/-- The rows of the reference as a cursor reads them. -/
def outputRows : List ((V × Out) × ℤ) :=
  (reference offset project values).entries.map fun row => (ofLex row.1, row.2)

theorem weightOf_outputRows (row : V × Out) : weightOf (outputRows offset project values) row =
      weightOf (allRows (dynLag offset project) (backward offset values.entries)) row := by
  rw [← weightOf_rowTuples, ← weight_reference, rowTuples, outputRows, map_map]
  simp [Function.comp_def, weight]

theorem outputRows_pos : ∀ row ∈ outputRows offset project values, 0 < row.2 := by
  intro row member
  obtain ⟨entry, found, rfl⟩ := mem_map.mp member
  obtain ⟨weight, nonzero⟩ := mem_entries.mp found
  have nonneg : 0 ≤ (reference offset project values).weight entry.1 := by
    rw [reference, weight_ofTuples]
    refine weightOf_nonneg (fun tuple tupleMember => ?_) _
    obtain ⟨pair, -, rfl⟩ := mem_map.mp tupleMember
    exact Int.one_nonneg
  omega

theorem byKey_outputRows : ByKey (outputRows offset project values) := by
  refine pairwise_map.mpr ((reference offset project values).sorted.imp fun below => ?_)
  rcases Prod.Lex.lt_iff.mp below with first | ⟨same, -⟩
  · exact first.le
  · exact same.le

end

/-- A lag goes along the order of the values. -/
theorem changes_of_lag :
    Changes delta.entries values.entries.reverse (delta + values).entries.reverse where
  sorted := delta.sorted
  oldDescending := pairwise_reverse.mpr values.sorted
  newDescending := pairwise_reverse.mpr (delta + values).sorted
  nonzero entry member := (delta + values).nonzero entry (mem_reverse.mp member)
  unchanged keep others := by
    rw [filter_reverse, filter_reverse, filter_entries_add delta values keep others]

/-- A lead goes along the reverse order. -/
theorem changes_of_lead :
    @Changes Vᵒᵈ _ delta.entries.reverse values.entries (delta + values).entries where
  sorted := pairwise_reverse.mpr delta.sorted
  oldDescending := values.sorted
  newDescending := (delta + values).sorted
  nonzero := (delta + values).nonzero
  unchanged keep others := filter_entries_add delta values keep fun change member =>
    others change (mem_reverse.mpr member)

variable (offset : ℤ)

section

variable (project : Option V → Out)

/-- The transformer succeeds, and its output changes the weights to those for the new values. -/
theorem transform_weights (delta values : ZSet V) :
    ∃ rows, (dynLag offset project).transform delta values (reference offset project values) =
        some rows ∧
      ∀ row, weightOf (outputRows offset project values) row + weightOf rows row =
        weightOf (allRows (dynLag offset project) (backward offset (delta + values).entries)) row := by
  have same := weightOf_outputRows offset project values
  have positive := outputRows_pos offset project values
  have byKey := byKey_outputRows offset project values
  rw [transform, ← entries_add]
  by_cases isLag : 0 < offset
  · have along : (dynLag offset project).keyCmp = compare := by
      rw [dynLag, if_pos isLag]
    have asc : (dynLag offset project).asc = true := decide_eq_true isLag
    simp only [backward, if_pos isLag] at same ⊢
    rw [if_pos asc]
    exact transformAlong_eq along (changes_of_lag delta values) byKey positive same
  · have along : (dynLag offset project).keyCmp = fun first second => compare second first := by
      rw [dynLag, if_neg isLag]
    have desc : (dynLag offset project).asc ≠ true := by simp [dynLag, isLag]
    have sameReversed : ∀ row, weightOf (outputRows offset project values).reverse row = _ :=
      fun row => weightOf_perm (reverse_perm _) row
    simp only [backward, if_neg isLag] at same ⊢
    rw [if_neg desc]
    simp only [← sameReversed] at same ⊢
    -- The passes go along the reverse order.
    exact @transformAlong_eq Vᵒᵈ _ _ _ _ _ _ _ _ along (changes_of_lead delta values)
      (pairwise_reverse.mpr byKey) (fun row member => positive row (mem_reverse.mp member)) same

/-- The transformer brings the output of a group up to date. -/
theorem transform_eq (delta values : ZSet V) :
    ∃ rows, (dynLag offset project).transform delta values (reference offset project values) =
        some rows ∧
      reference offset project values + ofTuples (rowTuples rows) =
        reference offset project (values + delta) := by
  obtain ⟨rows, transformed, weights⟩ := transform_weights offset project delta values
  refine ⟨rows, transformed, ext fun row => ?_⟩
  have atRow := weights (ofLex row)
  rw [weightOf_outputRows, ← weight_reference, ← weight_reference,
    ← weightOf_rowTuples, toLex_ofLex, add_comm delta values] at atRow
  rw [weight_add, weight_ofTuples, atRow]

/-- What is kept for a group after some changes. -/
def Settled (deltas : List (ZSet V)) (group : LagGroup V Out) : Prop :=
  group.inputTrace = deltas.sum ∧ group.outputTrace = reference offset project deltas.sum

end

/-- One step brings a group up to date. -/
theorem step_settled {offset : ℤ} {project : Option V → Out} {deltas : List (ZSet V)}
    {group : LagGroup V Out} (settled : Settled offset project deltas group) (delta : ZSet V) :
    ∃ next, step (dynLag offset project) group delta = some next ∧
      Settled offset project (deltas ++ [delta]) next := by
  obtain ⟨input, output⟩ := settled
  obtain ⟨rows, transformed, updated⟩ := transform_eq offset project delta deltas.sum
  refine ⟨_, by rw [step, input, output, transformed, Option.map_some], ?_, ?_⟩
  · simp
  · simpa [rowTuples] using updated

/-- Incremental lag and lead equal recomputation: for every offset and projection, over any
sequence of changes of a group, the output adds up to every occurrence of the group paired
with the projection of the occurrence `|offset|` positions before it. -/
theorem outputTrace_eq_reference (offset : ℤ) (project : Option V → Out) (deltas : List (ZSet V)) :
    ∃ group, Run.run (step (dynLag offset project)) {} deltas = some group ∧
      group.outputTrace = reference offset project deltas.sum := by
  have initially : Settled offset project [] ({} : LagGroup V Out) := by
    refine ⟨rfl, ?_⟩
    simp [reference, expand, withEarlier, ZSet.ofTuples]
  obtain ⟨group, reached, -, output⟩ := Run.invariant (fun _ => True) (Settled offset project)
    (fun _ _ _ => trivial) initially
    (fun _ delta _ _ settled => step_settled settled delta) deltas trivial
  exact ⟨group, reached, output⟩

end OpenDera.Group.Lag
