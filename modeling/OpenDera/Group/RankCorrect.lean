import Mathlib.Algebra.Order.BigOperators.Group.List
import Mathlib.Data.Finset.Card
import OpenDera.Group.Rank

/-!
# Ranks of a group

The rank of a tie is one plus the weight of all values in smaller ties, for RANK, or
one plus the number of smaller ties, for DENSE_RANK. The state of the operator's loop
describes the values it has passed: the rank and the weight of the last tie. From any
such state the loop assigns the right ranks to the values that follow, and both a new
group and a stored one are ranked from such a state.
-/

namespace OpenDera.Group.Rank

open List Function SortedMap IndexedZSet RowScheme

section

section

variable {V Tie : Type*} [LinearOrder Tie] (tie : V → Tie) (entries : List (V × ℤ)) (own : Tie)

/-- The total weight of the values in a tie. -/
def tieWeight : ℤ :=
  ((entries.filter fun entry => tie entry.1 = own).map Prod.snd).sum

/-- The total weight of the values in smaller ties. -/
def smallerWeight : ℤ :=
  ((entries.filter fun entry => tie entry.1 < own).map Prod.snd).sum

/-- The smaller ties. -/
def smallerTies : Finset Tie :=
  ((entries.map fun entry => tie entry.1).filter fun other => other < own).toFinset

/-- The rank of a tie among the values of a group. -/
def rankOf (rankFunc : RankUpdateFunc) (entries : List (V × ℤ)) (own : Tie) : ℤ :=
  match rankFunc with
  | .updateRank => 1 + smallerWeight tie entries own
  | .updateDenseRank => 1 + (smallerTies tie entries own).card

variable {tie} (rankFunc : RankUpdateFunc)

/-- Values that are not in smaller ties do not count. -/
theorem rankOf_append_of_le {before later : List (V × ℤ)}
    {own : Tie} (notSmaller : ∀ entry ∈ later, own ≤ tie entry.1) :
    rankOf tie rankFunc (before ++ later) own = rankOf tie rankFunc before own := by
  have none : (later.filter fun entry => tie entry.1 < own) = [] := by
    simpa [filter_eq_nil_iff] using notSmaller
  have noTies : ((later.map fun entry => tie entry.1).filter fun other => other < own) = [] := by
    rw [filter_map, map_eq_nil_iff]
    exact none
  cases rankFunc with
  | updateRank => simp [rankOf, smallerWeight, none]
  | updateDenseRank => simp [rankOf, smallerTies, noTies]

variable {entries} {last own : Tie} (upTo : ∀ entry ∈ entries, tie entry.1 ≤ last)

include upTo

/-- All values up to a tie are in it or in smaller ones. -/
theorem smallerWeight_add_tieWeight :
    smallerWeight tie entries last + tieWeight tie entries last = (entries.map Prod.snd).sum := by
  induction entries with
  | nil => rfl
  | cons _ _ ih =>
    rw [forall_mem_cons] at upTo
    have rest := ih upTo.2
    rw [smallerWeight, tieWeight] at rest ⊢
    rcases upTo.1.lt_or_eq with smaller | same
    · simp only [filter_cons, smaller, smaller.ne, decide_true, decide_false, if_true,
        if_false, Bool.false_eq_true, map_cons, sum_cons]
      omega
    · simp only [filter_cons, same, lt_irrefl, decide_true, decide_false, if_true,
        if_false, Bool.false_eq_true, map_cons, sum_cons]
      omega

variable (occurs : ∃ entry ∈ entries, tie entry.1 = last) (below : last < own)

include occurs below

/-- The ties below the next one are the last one and those below it. -/
theorem smallerTies_next : smallerTies tie entries own = insert last (smallerTies tie entries last) := by
  ext other
  simp only [smallerTies, mem_toFinset, mem_filter, mem_map, decide_eq_true_eq, Finset.mem_insert]
  constructor
  · rintro ⟨⟨entry, member, rfl⟩, -⟩
    exact (upTo entry member).eq_or_lt.imp_right fun smaller => ⟨⟨entry, member, rfl⟩, smaller⟩
  · rintro (rfl | ⟨member, smaller⟩)
    · exact ⟨occurs, below⟩
    · exact ⟨member, smaller.trans below⟩

/-- The rank moves past the last tie by what the operator adds for it. -/
theorem rankOf_next : rankOf tie rankFunc entries own =
      rankFunc.apply (rankOf tie rankFunc entries last) (tieWeight tie entries last) := by
  cases rankFunc with
  | updateRank =>
    have all : smallerWeight tie entries own = (entries.map Prod.snd).sum := by
      rw [smallerWeight, filter_eq_self.mpr]
      exact fun entry member => decide_eq_true ((upTo entry member).trans_lt below)
    have split := smallerWeight_add_tieWeight upTo
    simp only [rankOf, RankUpdateFunc.apply]
    omega
  | updateDenseRank =>
    have fresh : last ∉ smallerTies tie entries last := by simp [smallerTies]
    simp only [rankOf, RankUpdateFunc.apply, smallerTies_next upTo occurs below,
      Finset.card_insert_of_notMem fresh]
    omega

end

variable {V P Tie : Type*} [LinearOrder V] [LinearOrder Tie] (operator : Rank V P)

/-- The order of the values agrees with the operator's comparison of projections, which
compares the ties of the values. -/
structure Consistent (tie : V → Tie) : Prop where
  monotone : Monotone tie
  keyCmp : ∀ value other,
    operator.keyCmp value (operator.projectionFunc other) = compare (tie value) (tie other)

/-- The state of the loop describes the values passed: the projection, the rank and the
weight of the last tie. -/
structure Describes (tie : V → Tie) (before : List (V × ℤ)) (state : RankState P) : Prop where
  atStart : before = [] → state = {}
  currentVal : ∀ last ∈ before.getLast?, ∃ other,
    state.currentVal = some (operator.projectionFunc other) ∧ tie other = tie last.1
  currentRank : ∀ last ∈ before.getLast?,
    state.currentRank = rankOf tie operator.rankFunc before (tie last.1)
  weight : ∀ last ∈ before.getLast?, state.weight = tieWeight tie before (tie last.1)

variable {operator} {tie : V → Tie}

omit [LinearOrder V] in
theorem describes_nil : Describes operator tie [] {} :=
  ⟨fun _ => rfl, by simp, by simp, by simp⟩

variable {before : List (V × ℤ)}

omit [LinearOrder V] in
/-- The last value passed is in the last tie, and the tie has positive weight. -/
theorem tieWeight_pos (positive : ∀ entry ∈ before, 0 < entry.2) {last : V × ℤ}
    (member : last ∈ before) : 0 < tieWeight tie before (tie last.1) := by
  have inTie : last.2 ∈ (before.filter fun entry => tie entry.1 = tie last.1).map Prod.snd :=
    mem_map_of_mem (mem_filter.mpr ⟨member, by simp⟩)
  refine sum_pos _ (fun weight weightMember => ?_) (ne_nil_of_mem inTie)
  obtain ⟨entry, entryMember, rfl⟩ := mem_map.mp weightMember
  exact positive entry (mem_filter.mp entryMember).1

variable {state : RankState P} (consistent : Consistent operator tie)
  (describes : Describes operator tie before state)

include consistent describes

/-- Moving on to a value keeps the rank within a tie and advances it to the next tie. -/
theorem Describes.moveTo (sorted : SortedMap.Sorted before)
    (positive : ∀ entry ∈ before, 0 < entry.2) {value : V}
    (upTo : ∀ entry ∈ before, entry.1 < value) :
    (∃ other, (operator.moveTo state value).currentVal = some (operator.projectionFunc other) ∧
        tie other = tie value) ∧
      (operator.moveTo state value).currentRank =
        rankOf tie operator.rankFunc before (tie value) ∧
      (operator.moveTo state value).weight = tieWeight tie before (tie value) := by
  rcases before.eq_nil_or_concat with rfl | ⟨earlier, last, rfl⟩
  · rw [describes.atStart rfl]
    refine ⟨⟨value, by simp [moveTo]⟩, ?_, by simp [moveTo, tieWeight]⟩
    cases operator.rankFunc <;> simp [moveTo, rankOf, smallerWeight, smallerTies]
  · rw [concat_eq_append] at describes sorted positive upTo ⊢
    have isLast : last ∈ (earlier ++ [last]).getLast? := by simp
    have member : last ∈ earlier ++ [last] := by simp
    have greatest : ∀ entry ∈ earlier ++ [last], tie entry.1 ≤ tie last.1 :=
      fun entry entryMember => consistent.monotone (sorted.le_getLast? isLast entry entryMember)
    obtain ⟨other, currentVal, sameTie⟩ := describes.currentVal last isLast
    have heavy : state.weight > 0 := by
      rw [describes.weight last isLast]
      exact tieWeight_pos positive member
    have compared : operator.keyCmp value (state.currentVal.getD (operator.projectionFunc value)) =
        compare (tie value) (tie last.1) := by
      rw [currentVal, Option.getD_some, consistent.keyCmp, sameTie]
    rw [moveTo, compared]
    by_cases tied : tie value = tie last.1
    · rw [if_neg (by simp [tied])]
      refine ⟨⟨other, by rw [currentVal]; rfl, sameTie.trans tied.symm⟩, ?_, ?_⟩
      · rw [tied]
        exact describes.currentRank last isLast
      · rw [tied]
        exact describes.weight last isLast
    · have below : tie last.1 < tie value :=
        lt_of_le_of_ne (consistent.monotone (upTo last member).le) (Ne.symm tied)
      have fresh : tieWeight tie (earlier ++ [last]) (tie value) = 0 := by
        rw [tieWeight, filter_eq_nil_iff.mpr]
        · rfl
        · intro entry entryMember
          simpa using ((greatest entry entryMember).trans_lt below).ne
      rw [if_pos ⟨heavy, by simpa [compare_eq_iff_eq] using tied⟩]
      refine ⟨⟨value, rfl, rfl⟩, ?_, fresh.symm⟩
      rw [rankOf_next operator.rankFunc greatest ⟨last, member, rfl⟩ below,
        ← describes.currentRank last isLast, ← describes.weight last isLast]

/-- Ranking a value gives it its rank among the values passed and describes them with it. -/
theorem Describes.insertValue (sorted : SortedMap.Sorted before)
    (positive : ∀ entry ∈ before, 0 < entry.2) {entry : V × ℤ}
    (upTo : ∀ other ∈ before, other.1 < entry.1) :
    (operator.insertValue state entry.1 entry.2).1 =
        (rankOf tie operator.rankFunc before (tie entry.1), entry.2) ∧
      Describes operator tie (before ++ [entry])
        (operator.insertValue state entry.1 entry.2).2 := by
  obtain ⟨currentVal, currentRank, weight⟩ :=
    describes.moveTo consistent sorted positive upTo
  have isLast : ∀ last, last ∈ (before ++ [entry]).getLast? ↔ last = entry := by
    simp [eq_comm]
  refine ⟨by rw [Rank.insertValue, currentRank], by simp, ?_, ?_, ?_⟩ <;>
    intro last member <;> rw [(isLast last).mp member]
  · exact currentVal
  · rw [rankOf_append_of_le operator.rankFunc (by simp)]
    exact currentRank
  · simp [Rank.insertValue, weight, tieWeight, filter_append]

attribute [local simp] Rank.insertValue

variable {entries : List (V × ℤ)}

/-- From a state that describes the values passed, all values that follow get their ranks. -/
theorem Describes.assign (sorted : SortedMap.Sorted (before ++ entries))
    (positive : ∀ entry ∈ before ++ entries, 0 < entry.2) :
    operator.scheme.assign state entries =
      entries.map fun entry =>
        (entry.1, rankOf tie operator.rankFunc (before ++ entries) (tie entry.1), entry.2) := by
  induction entries generalizing before state with
  | nil => rfl
  | cons entry entries ih =>
    have split : before ++ entry :: entries = before ++ [entry] ++ entries := by simp
    obtain ⟨sortedBefore, sortedLater, cross⟩ := pairwise_append.mp sorted
    obtain ⟨row, describesNext⟩ := describes.insertValue consistent sortedBefore
      (fun other member => positive other (mem_append_left _ member))
      fun other member => cross other member entry (by simp)
    rw [split] at sorted positive
    have rest := ih describesNext sorted positive
    have own : rankOf tie operator.rankFunc (before ++ entry :: entries) (tie entry.1) =
        rankOf tie operator.rankFunc before (tie entry.1) := by
      refine rankOf_append_of_le operator.rankFunc ?_
      rw [forall_mem_cons]
      exact ⟨le_rfl, fun other member =>
        consistent.monotone ((sorted_cons_iff.mp sortedLater).1 other member).le⟩
    rw [map_cons, own, split, ← rest]
    exact congrArg (· :: _) (congrArg (Prod.mk entry.1) row)

omit describes consistent

omit [LinearOrder V] in
/-- A new group is ranked as the loop over the joint cursor would rank it. -/
theorem newGroupLoop_eq (currentVal : P) (currentRank weight : ℤ) (value : V)
    (newWeight : ℤ) (heavy : 0 < weight + newWeight) (positive : ∀ entry ∈ entries, 0 < entry.2) :
    operator.newGroupLoop currentVal currentRank weight value newWeight entries =
      (value, currentRank, newWeight) :: operator.scheme.assign
        { currentVal := some currentVal, currentRank, weight := weight + newWeight } entries := by
  induction entries generalizing currentVal currentRank weight value newWeight with
  | nil => rfl
  | cons _ _ ih =>
    rw [forall_mem_cons] at positive
    rw [newGroupLoop]
    refine congrArg (_ :: ·) ?_
    split_ifs with differs <;> rw [ih _ _ _ _ _ (by omega) positive.2]
    · simp [assign, scheme, moveTo, heavy, differs]
    · simp [assign, scheme, moveTo, not_not.mp differs]

omit [LinearOrder V] in
theorem newGroupRows_eq (positive : ∀ entry ∈ entries, 0 < entry.2) :
    operator.newGroupRows entries = operator.scheme.assign {} entries := by
  cases entries with
  | nil => rfl
  | cons =>
    rw [forall_mem_cons] at positive
    rw [newGroupRows, newGroupLoop_eq _ _ _ _ _ (by omega) positive.2]
    simp [assign, scheme, moveTo]

end

/-! ## Whole runs -/

variable {K V P Tie : Type*} [LinearOrder K]
  [LinearOrder V] [LinearOrder Tie] {operator : Rank V P} {tie : V → Tie}

/-- Every value of a group with its rank and its weight. -/
def rankedRows (operator : Rank V P) (tie : V → Tie) (entries : List (V × ℤ)) : List (V × ℤ × ℤ) :=
  entries.map fun entry =>
    (entry.1, rankOf tie operator.rankFunc entries (tie entry.1), entry.2)

omit [LinearOrder V] in
theorem filter_rankedRows (keep : V → Bool) (entries : List (V × ℤ)) :
    (rankedRows operator tie entries).filter (fun row => keep row.1) =
      (entries.filter fun entry => keep entry.1).map fun entry =>
        (entry.1, rankOf tie operator.rankFunc entries (tie entry.1), entry.2) := by
  simp [rankedRows, filter_map, comp_def]

variable {entries : List (V × ℤ)}

theorem sorted_rankedRows (sorted : SortedMap.Sorted entries) :
    SortedMap.Sorted (rankedRows operator tie entries) :=
  List.Pairwise.map _ (fun _ _ below => below) sorted

variable {rows : List (V × ℤ × ℤ)} {first : V}

/-- From a row below the first changed value on, the weights below it are added up and the
cursor ends at the first changed value. -/
theorem sumBelow_eq (sorted : SortedMap.Sorted rows)
    (startsBelow : ∀ row ∈ rows.head?, row.1 < first) (weight : ℤ) :
    sumBelow first weight rows =
      (weight + ((rowsBelow first rows).map fun row => row.2.2).sum, rowsFrom first rows) := by
  fun_induction sumBelow first weight rows with
  | case1 => simp [rowsBelow, rowsFrom]
  | case2 _ row =>
    have below : row.1 < first := startsBelow row rfl
    rw [rowsBelow_cons below, rowsFrom_cons below]
    simp [rowsBelow, rowsFrom]
  | case3 _ row next rows above =>
    have below : row.1 < first := startsBelow row rfl
    have rest : ∀ other ∈ next :: rows, first ≤ other.1 := by
      rw [forall_mem_cons]
      exact ⟨above, fun other member => above.trans (sorted.tail.head_lt member).le⟩
    rw [rowsBelow_cons below, rowsFrom_cons below, rowsBelow_eq_nil rest, rowsFrom_eq_self rest]
    simp
  | case4 _ row next _ notAbove ih =>
    have below : row.1 < first := startsBelow row rfl
    rw [ih sorted.tail (by simpa using notAbove), rowsBelow_cons below (next :: _),
      rowsFrom_cons below (next :: _), map_cons, sum_cons, add_assoc]

/-- The weights of the rows below the first changed value, from the last tie there on, add
up to the weight of that tie. -/
theorem sum_rowsBelow_tie (monotone : Monotone tie) (sorted : SortedMap.Sorted entries)
    {last : V × ℤ} (isLast : last ∈ (entries.filter fun entry => entry.1 < first).getLast?) :
    ((rowsBelow first ((rankedRows operator tie entries).filter fun row =>
        tie last.1 ≤ tie row.1)).map fun row => row.2.2).sum =
      tieWeight tie (entries.filter fun entry => entry.1 < first) (tie last.1) := by
  have greatest := (sorted.filter _).le_getLast? isLast
  have sameTie : ((entries.filter fun entry => entry.1 < first).filter fun entry =>
        tie last.1 ≤ tie entry.1) =
      (entries.filter fun entry => entry.1 < first).filter fun entry => tie entry.1 = tie last.1 := by
    refine filter_congr fun entry member => decide_eq_decide.mpr ?_
    have below := monotone (greatest entry member)
    exact ⟨fun above => le_antisymm below above, fun same => same.ge⟩
  rw [filter_rankedRows fun value => tie last.1 ≤ tie value, rowsBelow, filter_map,
    map_map, tieWeight, ← sameTie, filter_filter, filter_filter]
  simp only [comp_def, Bool.and_comm]

/-- Seeking the first value that does not compare below a tie skips the smaller ties. -/
theorem seekKeyWith_keyCmp (consistent : Consistent operator tie) (sorted : SortedMap.Sorted rows)
    (last : V) :
    Cursor.seekKeyWith
        (fun value => operator.keyCmp value (operator.projectionFunc last) != .lt) rows =
      rows.filter fun row => tie last ≤ tie row.1 := by
  have compared : ∀ value, (operator.keyCmp value (operator.projectionFunc last) != .lt) =
      decide (tie last ≤ tie value) := by
    intro value
    rw [consistent.keyCmp, Bool.eq_iff_iff, bne_iff_ne, decide_eq_true_eq, ne_eq,
      compare_lt_iff_lt, not_lt]
  simp only [compared]
  refine Cursor.seekKeyWith_eq_filter sorted fun first second below found => ?_
  exact decide_eq_true ((of_decide_eq_true found).trans (consistent.monotone below.le))

/-- From a value on, all values are in its tie or greater ones. -/
theorem rowsFrom_filter_tie (monotone : Monotone tie) {last : V} (below : last < first)
    (rows : List (V × ℤ × ℤ)) :
    rowsFrom first (rows.filter fun row => tie last ≤ tie row.1) = rowsFrom first rows := by
  rw [rowsFrom, rowsFrom, filter_filter]
  refine filter_congr fun row _ => ?_
  rw [Bool.and_eq_left_iff_imp]
  intro above
  exact decide_eq_true (monotone (below.le.trans (of_decide_eq_true above)))

/-- The rank of a value is decided below it. -/
theorem rankOf_filter_lt (monotone : Monotone tie) (rankFunc : RankUpdateFunc)
    (sorted : SortedMap.Sorted entries) {value : V} (below : value < first) :
    rankOf tie rankFunc (entries.filter fun entry => entry.1 < first) (tie value) =
      rankOf tie rankFunc entries (tie value) := by
  have cut : rankOf tie rankFunc ((entries.filter fun entry => entry.1 < first) ++
      entries.filter fun entry => first ≤ entry.1) (tie value) = _ :=
    rankOf_append_of_le rankFunc fun entry member =>
      monotone (below.le.trans (by simpa using (mem_filter.mp member).2))
  rw [← cut, filter_lt_append_filter_le sorted]

/-- The operator starts in a state that describes the values below the first changed one. -/
theorem startFrom_spec (consistent : Consistent operator tie) (sorted : SortedMap.Sorted entries)
    (first : V) :
    ∃ state, operator.startFrom first (rankedRows operator tie entries) =
        (state, rowsFrom first (rankedRows operator tie entries)) ∧
      Describes operator tie (entries.filter fun entry => entry.1 < first) state := by
  have rowsSorted : SortedMap.Sorted (rankedRows operator tie entries) := sorted_rankedRows sorted
  have lastRow := Cursor.seekKeyWithReverse_eq_getLast? (fun value => decide (value < first))
    (rankedRows operator tie entries)
  rw [filter_rankedRows fun value => value < first, getLast?_map] at lastRow
  rw [startFrom, lastRow]
  cases isLast : (entries.filter fun entry => entry.1 < first).getLast? with
  | none =>
    rw [getLast?_eq_none_iff] at isLast
    refine ⟨{}, ?_, isLast ▸ describes_nil⟩
    have above : ∀ row ∈ rankedRows operator tie entries, first ≤ row.1 := by
      rw [rankedRows, forall_mem_map]
      simpa [filter_eq_nil_iff] using isLast
    simp [rowsFrom_eq_self above]
  | some last =>
    have member : last ∈ entries.filter fun entry => entry.1 < first :=
      mem_of_getLast? isLast
    have below : last.1 < first := by simpa using (mem_filter.mp member).2
    have inTie : (last.1, rankOf tie operator.rankFunc entries (tie last.1), last.2) ∈
        (rankedRows operator tie entries).filter fun row => tie last.1 ≤ tie row.1 :=
      mem_filter.mpr ⟨mem_map_of_mem (mem_filter.mp member).1, by simp⟩
    have startsBelow : ∀ row ∈ ((rankedRows operator tie entries).filter fun row =>
        tie last.1 ≤ tie row.1).head?, row.1 < first := fun row isFirst =>
      ((rowsSorted.filter _).head?_le isFirst _ inTie).trans_lt below
    simp only [Option.map_some, seekKeyWith_keyCmp consistent rowsSorted]
    rw [sumBelow_eq (rowsSorted.filter _) startsBelow,
      sum_rowsBelow_tie consistent.monotone sorted isLast,
      rowsFrom_filter_tie consistent.monotone below]
    refine ⟨_, rfl, fun empty => absurd empty (ne_nil_of_mem member), ?_, ?_, ?_⟩ <;>
      intro other isOther <;> obtain rfl := Option.some.inj (isLast.symm.trans isOther)
    · exact ⟨last.1, rfl, rfl⟩
    · exact (rankOf_filter_lt consistent.monotone operator.rankFunc sorted below).symm
    · exact zero_add _

variable {table : ZSet (V ×ₗ ℤ)} {group delta : ZSet V}
  (ranked : tableRows table = rankedRows operator tie group.entries)

include ranked in
theorem represents_of_rankedRows : operator.scheme.Represents table group := by
  constructor
  · rw [ranked]
    simp [counts, rankedRows, scheme, comp_def]
  · rw [ranked, RowScheme.Lawful, rankedRows, forall_mem_map]
    exact fun entry member => ⟨rfl, group.nonzero entry member⟩

section

variable (consistent : Consistent operator tie)

include consistent

/-- A new group is ranked. -/
theorem updateGroup_new (positive : ∀ entry ∈ delta.entries, 0 < entry.2) :
    Ordered (operator.updateGroup delta none) ∧
      tableRows (ZSet.ofTuples (operator.updateGroup delta none).flatten) =
        rankedRows operator tie delta.entries := by
  have rows : operator.newGroupRows delta.entries = rankedRows operator tie delta.entries := by
    rw [newGroupRows_eq positive]
    exact describes_nil.assign consistent delta.sorted positive
  have counts : operator.scheme.counts (operator.newGroupRows delta.entries) = delta.entries := by
    rw [newGroupRows_eq positive, counts_assign]
  have lawful : operator.scheme.Lawful (operator.newGroupRows delta.entries) := by
    rw [newGroupRows_eq positive]
    exact operator.scheme.lawful_assign {} delta.nonzero
  obtain ⟨flat, ordered⟩ := ordered_rows counts lawful
  refine ⟨ordered, ?_⟩
  have tuples : (operator.updateGroup delta none).flatten =
      (operator.newGroupRows delta.entries).map toRow := flat
  rw [tuples, (represents_ofTuples counts lawful).1, rows]

variable (positive : ∀ entry ∈ (group + delta).entries, 0 < entry.2)

include ranked positive

/-- A stored group is ranked anew from the first change on. -/
theorem updateGroup_stored {first : V × ℤ} {later : List (V × ℤ)} (entries : delta.entries = first :: later) :
    Ordered (operator.updateGroup delta (some table)) ∧
      tableRows (table + ZSet.ofTuples (operator.updateGroup delta (some table)).flatten) =
        rankedRows operator tie (group + delta).entries := by
  have least : ∀ entry ∈ delta.entries, first.1 ≤ entry.1 :=
    delta.sorted.head?_le (by simp [entries])
  obtain ⟨state, start, describes⟩ := startFrom_spec consistent group.sorted first.1
  have unfolded : operator.updateGroup delta (some table) = operator.scheme.update state
      (outerJoin delta.entries (rowsFrom first.1 (tableRows table))) := by
    simp only [updateGroup, entries, ranked, start]
  obtain ⟨ordered, rows, -⟩ := (represents_of_rankedRows ranked).update least state
  rw [← unfolded] at ordered rows
  refine ⟨ordered, ?_⟩
  have split := filter_lt_append_filter_le (group + delta).sorted first.1
  -- The ranks below the first change are decided by values that do not change.
  have kept : rowsBelow first.1 (tableRows table) =
      ((group + delta).entries.filter fun entry => entry.1 < first.1).map fun entry =>
        (entry.1, rankOf tie operator.rankFunc (group + delta).entries (tie entry.1), entry.2) := by
    rw [ranked, rowsBelow, filter_rankedRows fun value => value < first.1,
      filter_lt_entries_add least]
    refine map_congr_left fun entry member => ?_
    have below : entry.1 < first.1 := by simpa using (mem_filter.mp member).2
    rw [← rankOf_filter_lt consistent.monotone operator.rankFunc group.sorted below,
      ← rankOf_filter_lt consistent.monotone operator.rankFunc (group + delta).sorted below,
      filter_lt_entries_add least]
  rw [← filter_lt_entries_add least] at describes
  rw [rows, describes.assign consistent (split.symm ▸ (group + delta).sorted)
    (split.symm ▸ positive), split, kept, ← map_append, split, rankedRows]

/-- The changes of a step keep the table of a group ranked. -/
theorem newTable_ranked :
    (delta ≠ 0 → Ordered (operator.updateGroup delta (found table))) ∧
      tableRows (newTable operator.updateGroup table delta) =
        rankedRows operator tie (group + delta).entries := by
  have empty := (represents_of_rankedRows ranked).table_eq_zero_iff
  by_cases unchanged : delta = 0
  · subst unchanged
    exact ⟨fun changed => absurd rfl changed, by simpa [newTable] using ranked⟩
  rw [newTable, if_neg unchanged, found]
  by_cases isNew : group = 0
  · have noTable := empty.mpr isNew
    subst isNew noTable
    rw [zero_add] at positive
    obtain ⟨ordered, rows⟩ := updateGroup_new consistent positive
    simpa using ⟨fun _ => ordered, rows⟩
  · rw [if_neg (mt empty.mp isNew)]
    obtain ⟨first, later, entries⟩ := exists_cons_of_ne_nil
      (mt ZSet.entries_eq_nil_iff.mp unchanged)
    obtain ⟨ordered, rows⟩ := updateGroup_stored ranked consistent positive entries
    exact ⟨fun _ => ordered, rows⟩

variable (inputs : List (KeyedStep K V))

/-- No step leaves a negative weight behind. -/
def NonNegative : Prop :=
  ∀ earlier later, inputs = earlier ++ later → ∀ key value, 0 ≤ (integral earlier).weight key value

omit ranked positive in
/-- A run that leaves no negative weights behind succeeds and keeps every group ranked. -/
theorem run_ranked (nonNegative : NonNegative inputs) :
    ∃ trace, Run.run operator.step 0 inputs = some trace ∧
      ∀ key, tableRows (trace.group key) =
        rankedRows operator tie ((integral inputs).group key).entries := by
  refine Run.invariant NonNegative (fun inputs (trace : IndexedZSet K (V ×ₗ ℤ)) =>
      ∀ key, tableRows (trace.group key) =
        rankedRows operator tie ((integral inputs).group key).entries)
    (fun inputs input nonNegative earlier later split => nonNegative earlier (later ++ [input])
      (by simp [split]))
    (fun key => rfl) (fun inputs input trace nonNegative ranked => ?_) inputs nonNegative
  have positive : ∀ key, ∀ entry ∈
      ((integral inputs).group key + input.changes.group key).entries, 0 < entry.2 := by
    intro key entry member
    obtain ⟨weight, nonzero⟩ := ZSet.mem_entries.mp member
    have := nonNegative (inputs ++ [input]) [] (by simp) key entry.1
    rw [integral_append_singleton, IndexedZSet.weight, group_add, weight] at this
    omega
  have spec := fun key => newTable_ranked (ranked key) consistent (positive key)
  obtain ⟨chunks, evaluated, tables⟩ := eval_eq input fun key => (spec key).1
  refine ⟨_, by rw [step, evaluated]; rfl, fun key => ?_⟩
  rw [tables key, integral_append_singleton, group_add]
  exact (spec key).2

end

/-- Every value of a ranked table is paired with one rank. -/
theorem weightOf_map_pair (data : V → ℤ) (entries : List (V × ℤ)) (value : V) (rank : ℤ) :
    weightOf (entries.map fun entry => (toLex (entry.1, data entry.1), entry.2))
        (toLex (value, rank)) =
      if rank = data value then weightOf entries value else 0 := by
  induction entries with
  | nil => simp
  | cons entry _ ih =>
    rw [map_cons, weightOf_cons, ih, weightOf_cons]
    by_cases own : entry.1 = value
    · subst own
      by_cases right : rank = data entry.1
      · simp [right]
      · simp [right, Ne.symm right]
    · simp [own]

/-- Incremental ranking equals ranking: after any steps that leave no negative weights
behind, the output adds up to every value of every group paired with its rank, under its
weight. The ranks are those of the sum of the changes, whatever the steps and chunks. -/
theorem output_eq_ranked (consistent : Consistent operator tie)
    (inputs : List (KeyedStep K V)) (nonNegative : NonNegative inputs) :
    ∃ trace, Run.run operator.step 0 inputs = some trace ∧
      ∀ key value rank, trace.weight key (toLex (value, rank)) =
        if rank = rankOf tie operator.rankFunc ((integral inputs).group key).entries (tie value)
        then (integral inputs).weight key value else 0 := by
  obtain ⟨trace, reached, ranked⟩ := run_ranked consistent inputs nonNegative
  refine ⟨trace, reached, fun key value rank => ?_⟩
  have tuples : (trace.group key).entries = ((integral inputs).group key).entries.map fun entry =>
      (toLex (entry.1, rankOf tie operator.rankFunc ((integral inputs).group key).entries
        (tie entry.1)), entry.2) := by
    rw [← map_toRow_tableRows, ranked key, rankedRows, map_map]
    rfl
  rw [IndexedZSet.weight, ZSet.weight, tuples, weightOf_map_pair fun value =>
    rankOf tie operator.rankFunc ((integral inputs).group key).entries (tie value)]
  rfl

/-- Three values ranked by their tens, in two steps with chunks of one tuple; the second
step adds a row to the first tie and takes the last value away. -/
theorem output_eq_ranked_two_steps :
    let operator : Rank ℕ ℕ := ⟨fun value => value / 10, fun value tens => compare (value / 10) tens,
      .updateRank⟩
    let inputs : List (KeyedStep ℕ ℕ) :=
      [⟨some (IndexedZSet.ofTuples [((0, 11), 1), ((0, 12), 2), ((0, 25), 1), ((0, 31), 1)]), 1⟩,
        ⟨some (IndexedZSet.ofTuples [((0, 12), 1), ((0, 31), -1)]), 1⟩]
    ∃ trace, Run.run operator.step 0 inputs = some trace ∧
      ∀ key value rank, trace.weight key (toLex (value, rank)) =
        if rank = rankOf (fun value => value / 10) operator.rankFunc
          ((integral inputs).group key).entries (value / 10)
        then (integral inputs).weight key value else 0 := by
  intro operator inputs
  have consistent : Consistent operator fun value => value / 10 :=
    ⟨fun _ _ order => Nat.div_le_div_right order, fun _ _ => rfl⟩
  have nonNegative : ∀ earlier ∈ inputs.inits, ∀ tuple ∈ (integral earlier).tuples,
      0 ≤ tuple.2 := by decide
  refine output_eq_ranked consistent inputs fun earlier later split key value => ?_
  rw [← weightOf_tuples]
  exact weightOf_nonneg (nonNegative earlier ((mem_inits _ _).mpr ⟨later, split.symm⟩)) (key, value)

end OpenDera.Group.Rank
