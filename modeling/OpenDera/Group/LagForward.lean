import Mathlib.Algebra.Order.BigOperators.Group.List
import Mathlib.Algebra.Order.Group.Nat
import Mathlib.Data.List.TakeWhile
import OpenDera.Group.Lag

/-!
# The forward pass of lag

The forward pass returns keys in order, among them every changed key, and retracts
exactly the old output of these keys. Old output that it leaves alone is far from every
change before it: between the changed key and the key of the output there are at least
`lag` occurrences. What the pass still has to retract for changes it has processed is a
number of occurrences from the front of the old output.
-/

namespace OpenDera.Group.Lag

open List

variable {V Out : Type*} [LinearOrder V] {operator : Lag V Out}

/-- Rows of output in the order of their first components. -/
def ByKey (rows : List ((V × Out) × ℤ)) : Prop :=
  rows.Pairwise fun first second => first.1.1 ≤ second.1.1

omit [LinearOrder V] in
theorem rowCount_append (first second : List ((V × Out) × ℤ)) :
    rowCount (first ++ second) = rowCount first + rowCount second := by
  simp [rowCount]

omit [LinearOrder V] in
theorem rowCount_le_of_sublist {first second : List ((V × Out) × ℤ)}
    (sublist : first.Sublist second) : rowCount first ≤ rowCount second :=
  List.Sublist.sum_le_sum (sublist.map _) fun _ _ => Nat.zero_le _

/-- The occurrences of output for keys below a key. -/
def countBelow (key : V) (rows : List ((V × Out) × ℤ)) : Nat :=
  rowCount (rows.filter fun row => row.1.1 < key)

/-- The occurrences of output for keys between two keys. -/
def countBetween (first last : V) (rows : List ((V × Out) × ℤ)) : Nat :=
  rowCount (rows.filter fun row => first < row.1.1 ∧ row.1.1 < last)

theorem countBelow_eq_countBetween {first : V} {rows : List ((V × Out) × ℤ)}
    (above : ∀ row ∈ rows, first < row.1.1) (last : V) :
    countBelow last rows = countBetween first last rows :=
  congrArg rowCount (filter_congr fun row member => by simp [above row member])

/-- What the forward pass achieves from a position on, when `lag` occurrences are to be
retracted from the front. -/
structure Forward (operator : Lag V Out) (lag : Nat) (inputDelta : List (V × ℤ))
    (outputTrace : List ((V × Out) × ℤ))
    (result : List V × List ((V × Out) × ℤ)) : Prop where
  ordered : result.1.Pairwise (· < ·)
  changed : ∀ change ∈ inputDelta, change.1 ∈ result.1
  among : ∀ key ∈ result.1, (∃ change ∈ inputDelta, change.1 = key) ∨
    ∃ row ∈ outputTrace, row.1.1 = key
  retracted : result.2 = retract (outputTrace.filter fun row => row.1.1 ∈ result.1)
  farFromFront : ∀ row ∈ outputTrace, row.1.1 ∉ result.1 → lag ≤ countBelow row.1.1 outputTrace
  far : ∀ row ∈ outputTrace, row.1.1 ∉ result.1 → ∀ change ∈ inputDelta, change.1 < row.1.1 →
    operator.lag ≤ countBetween change.1 row.1.1 outputTrace

variable {inputDelta : List (V × ℤ)}

/-- Without old output there is only the record of the changes. -/
theorem Forward.noOutput (lag : Nat) (sorted : SortedMap.Sorted inputDelta) :
    Forward operator lag inputDelta [] (inputDelta.map Prod.fst, []) where
  ordered := pairwise_map.mpr sorted
  changed _ member := mem_map_of_mem member
  among key member := by
    obtain ⟨change, changed, same⟩ := mem_map.mp member
    exact .inl ⟨change, changed, same⟩
  retracted := rfl
  farFromFront := by simp
  far := by simp

/-- When nothing is left to do, the old output stays. -/
theorem Forward.done (outputTrace : List ((V × Out) × ℤ)) :
    Forward operator 0 [] outputTrace ([], []) where
  ordered := .nil
  changed := by simp
  among := by simp
  retracted := by simp [retract]
  farFromFront := by simp
  far := by simp

/-- The rows of the first key and the rows of greater keys. -/
theorem keyRows_append_afterKeyRows (row : (V × Out) × ℤ) (outputTrace : List ((V × Out) × ℤ)) :
    keyRows row outputTrace ++ afterKeyRows row outputTrace = row :: outputTrace := by
  rw [keyRows, afterKeyRows, cons_append, takeWhile_append_dropWhile]

variable {row other : (V × Out) × ℤ} {outputTrace : List ((V × Out) × ℤ)}

theorem eq_of_mem_keyRows (member : other ∈ keyRows row outputTrace) : other.1.1 = row.1.1 := by
  rcases mem_cons.mp member with rfl | member
  · rfl
  · simpa using mem_takeWhile_imp member

variable (byKey : ByKey (row :: outputTrace))

include byKey

theorem lt_of_mem_afterKeyRows (member : other ∈ afterKeyRows row outputTrace) : row.1.1 < other.1.1 := by
  obtain ⟨first, ordered⟩ := pairwise_cons.mp byKey
  rw [afterKeyRows, OrderedList.dropWhile_eq_filter ordered fun earlier before later order same =>
    decide_eq_true (le_antisymm (order.trans (of_decide_eq_true same).le) (first earlier before))]
    at member
  obtain ⟨later, other⟩ := mem_filter.mp member
  exact lt_of_le_of_ne (first _ later) fun same => by simp [same] at other

theorem byKey_afterKeyRows : ByKey (afterKeyRows row outputTrace) :=
  (pairwise_cons.mp byKey).2.sublist (dropWhile_sublist _)

variable {result : List V × List ((V × Out) × ℤ)} {lag : Nat}

/-- Retracting the first key, because of the changes behind it or because it is changed. -/
theorem Forward.retractKey {remaining : Nat} {inputDelta rest : List (V × ℤ)}
    (forward : Forward operator remaining rest (afterKeyRows row outputTrace) result)
    (above : ∀ change ∈ rest, row.1.1 < change.1) (kept : ∀ change ∈ rest, change ∈ inputDelta)
    (processed : ∀ change ∈ inputDelta, change ∈ rest ∨
      change.1 = row.1.1 ∧ operator.lag ≤ remaining)
    (enough : lag ≤ rowCount (keyRows row outputTrace) + remaining) :
    Forward operator lag inputDelta (row :: outputTrace)
      (row.1.1 :: result.1, retract (keyRows row outputTrace) ++ result.2) := by
  have resultAbove : ∀ key ∈ result.1, row.1.1 < key := by
    intro key member
    rcases forward.among key member with ⟨change, changed, rfl⟩ | ⟨other, later, rfl⟩
    · exact above change changed
    · exact lt_of_mem_afterKeyRows byKey later
  have inRest : ∀ other ∈ row :: outputTrace, other.1.1 ∉ row.1.1 :: result.1 →
      other ∈ afterKeyRows row outputTrace := by
    intro other member absent
    rw [← keyRows_append_afterKeyRows, mem_append] at member
    exact member.resolve_left fun first =>
      absent (mem_cons.mpr (.inl (eq_of_mem_keyRows first)))
  have sublist : (afterKeyRows row outputTrace).Sublist (row :: outputTrace) :=
    (dropWhile_sublist _).cons _
  constructor
  case ordered => exact pairwise_cons.mpr ⟨resultAbove, forward.ordered⟩
  case changed =>
    intro change member
    rcases processed change member with later | ⟨same, -⟩
    · exact mem_cons_of_mem _ (forward.changed change later)
    · exact mem_cons.mpr (.inl same)
  case among =>
    intro key member
    rcases mem_cons.mp member with rfl | member
    · exact .inr ⟨row, mem_cons_self, rfl⟩
    · exact (forward.among key member).imp
        (fun ⟨change, changed, same⟩ => ⟨change, kept change changed, same⟩)
        fun ⟨other, later, same⟩ => ⟨other, sublist.subset later, same⟩
  case retracted =>
    have firstAll : (keyRows row outputTrace).filter (fun other => other.1.1 ∈ row.1.1 :: result.1) =
        keyRows row outputTrace :=
      filter_eq_self.mpr fun other member => by simp [eq_of_mem_keyRows member]
    have restSame : (afterKeyRows row outputTrace).filter
          (fun other => other.1.1 ∈ row.1.1 :: result.1) =
        (afterKeyRows row outputTrace).filter fun other => other.1.1 ∈ result.1 :=
      filter_congr fun other member => by
        simp [(lt_of_mem_afterKeyRows byKey member).ne']
    rw [← keyRows_append_afterKeyRows, filter_append, firstAll, restSame, forward.retracted]
    simp [retract]
  case farFromFront =>
    intro other member absent
    have later := inRest other member absent
    have counted := forward.farFromFront other later (mt (mem_cons_of_mem _) absent)
    have firstAll : (keyRows row outputTrace).filter (fun first => first.1.1 < other.1.1) =
        keyRows row outputTrace :=
      filter_eq_self.mpr fun first firstMember => by
        simpa [eq_of_mem_keyRows firstMember] using lt_of_mem_afterKeyRows byKey later
    have split : countBelow other.1.1 (row :: outputTrace) =
        rowCount (keyRows row outputTrace) +
          countBelow other.1.1 (afterKeyRows row outputTrace) := by
      rw [countBelow, ← keyRows_append_afterKeyRows, filter_append, firstAll, rowCount_append]
      rfl
    omega
  case far =>
    intro other member absent change changed below
    have later := inRest other member absent
    have notLater := mt (mem_cons_of_mem row.1.1) absent
    have more : countBetween change.1 other.1.1 (afterKeyRows row outputTrace) ≤
        countBetween change.1 other.1.1 (row :: outputTrace) :=
      rowCount_le_of_sublist (sublist.filter _)
    rcases processed change changed with later' | ⟨same, enough⟩
    · exact (forward.far other later notLater change later' below).trans more
    · have counted := forward.farFromFront other later notLater
      rw [countBelow_eq_countBetween fun _ => lt_of_mem_afterKeyRows byKey, ← same] at counted
      omega

omit byKey

/-- A key that is new to the output is recorded. -/
theorem Forward.newKey {change : V × ℤ} (sorted : SortedMap.Sorted (change :: inputDelta))
    (above : ∀ row ∈ outputTrace, change.1 < row.1.1) (bounded : lag ≤ operator.lag)
    (forward : Forward operator operator.lag inputDelta outputTrace result) :
    Forward operator lag (change :: inputDelta) outputTrace (change.1 :: result.1, result.2) := by
  constructor
  case ordered =>
    refine pairwise_cons.mpr ⟨fun key member => ?_, forward.ordered⟩
    rcases forward.among key member with ⟨later, changed, rfl⟩ | ⟨row, rowMember, rfl⟩
    · exact sorted.head_lt changed
    · exact above row rowMember
  case changed =>
    exact forall_mem_cons.mpr ⟨mem_cons_self, fun other member =>
      mem_cons_of_mem _ (forward.changed other member)⟩
  case among =>
    refine forall_mem_cons.mpr ⟨.inl ⟨change, mem_cons_self, rfl⟩, fun key member => ?_⟩
    exact (forward.among key member).imp_left fun ⟨later, changed, same⟩ =>
      ⟨later, mem_cons_of_mem _ changed, same⟩
  case retracted =>
    rw [forward.retracted]
    congr 1
    refine filter_congr fun row member => ?_
    simp [(above row member).ne']
  case farFromFront =>
    intro row member absent
    exact bounded.trans (forward.farFromFront row member (mt (mem_cons_of_mem _) absent))
  case far =>
    intro row member absent other changed below
    have notLater := mt (mem_cons_of_mem change.1) absent
    rcases mem_cons.mp changed with rfl | changed
    · exact (forward.farFromFront row member notLater).trans_eq (countBelow_eq_countBetween above _)
    · exact forward.far row member notLater other changed below

/-- When nothing is to be retracted, the old output below the next change stays. -/
theorem Forward.seek (below : (V × Out) × ℤ → Bool)
    (skipped : ∀ row ∈ outputTrace.takeWhile below, ∀ key, (∃ change ∈ inputDelta, change.1 = key) ∨
      (∃ other ∈ outputTrace.dropWhile below, other.1.1 = key) → row.1.1 < key)
    (forward : Forward operator 0 inputDelta (outputTrace.dropWhile below) result) :
    Forward operator 0 inputDelta outputTrace result := by
  have sublist := outputTrace.dropWhile_sublist below
  have notAffected : ∀ row ∈ outputTrace.takeWhile below, row.1.1 ∉ result.1 := by
    intro row member affected
    exact lt_irrefl _ (skipped row member _ (forward.among _ affected))
  constructor
  case ordered => exact forward.ordered
  case changed => exact forward.changed
  case among =>
    intro key member
    exact (forward.among key member).imp_right fun ⟨row, found, same⟩ =>
      ⟨row, sublist.subset found, same⟩
  case retracted =>
    have firstNone : (outputTrace.takeWhile below).filter (fun row => row.1.1 ∈ result.1) = [] :=
      filter_eq_nil_iff.mpr fun row member => by simpa using notAffected row member
    rw [forward.retracted]
    nth_rewrite 2 [← takeWhile_append_dropWhile (p := below) (l := outputTrace)]
    rw [filter_append, firstNone, nil_append]
  case farFromFront => exact fun _ _ _ => Nat.zero_le _
  case far =>
    intro row member absent change changed lower
    rw [← takeWhile_append_dropWhile (p := below) (l := outputTrace), mem_append] at member
    rcases member with first | later
    · exact absurd lower (skipped row first _ (.inl ⟨change, changed, rfl⟩)).not_gt
    · exact (forward.far row later absent change changed lower).trans
        (rowCount_le_of_sublist (sublist.filter _))

/-- After the last change, the pass retracts from the front. -/
theorem forward_finishRetractions (byKey : ByKey outputTrace) :
    Forward operator lag [] outputTrace (finishRetractions lag outputTrace) := by
  fun_induction finishRetractions lag outputTrace with
  | case1 lag => exact .noOutput lag .nil
  | case2 _ _ _ _ _ ih =>
    exact (ih (byKey_afterKeyRows byKey)).retractKey byKey (by simp) (by simp) (by simp) (by omega)
  | case3 lag =>
    have zero : lag = 0 := by omega
    exact zero ▸ .done _

/-- The forward pass achieves what it is for. -/
theorem forward_computeRetractions (along : operator.keyCmp = compare)
    (bounded : lag ≤ operator.lag) (sorted : SortedMap.Sorted inputDelta)
    (byKey : ByKey outputTrace) :
    Forward operator lag inputDelta outputTrace
      (operator.computeRetractions lag inputDelta outputTrace) := by
  fun_induction operator.computeRetractions lag inputDelta outputTrace with
  | case1 => exact forward_finishRetractions byKey
  | case2 lag => exact .noOutput lag sorted
  | case3 _ change _ row _ compared _ _ ih =>
    have below : row.1.1 < change.1 := compare_lt_iff_lt.mp (along ▸ compared)
    exact (ih (by omega) sorted (byKey_afterKeyRows byKey)).retractKey byKey
      (sorted.forall_lt below) (fun _ member => member) (fun _ member => .inl member) (by omega)
  | case4 lag change _ row outputTrace compared _ ih =>
    have zero : lag = 0 := by omega
    subst zero
    -- the row itself is below the change, so the seek may as well start on it
    let below : (V × Out) × ℤ → Bool := fun other =>
      !(operator.keyCmp other.1.1 change.1 != .lt)
    have belowIff : ∀ other, below other = true ↔ other.1.1 < change.1 := by
      simp [below, along, compare_lt_iff_lt]
    have fromRow : Cursor.seekKeyWith (fun other => operator.keyCmp other.1 change.1 != .lt)
        outputTrace = (row :: outputTrace).dropWhile below := by
      rw [dropWhile_cons_of_pos (by simp [below, compared])]
      rfl
    have rest : (row :: outputTrace).dropWhile below =
        (row :: outputTrace).filter fun other => !below other :=
      OrderedList.dropWhile_eq_filter byKey fun first _ second order kept =>
        (belowIff first).mpr (order.trans_lt ((belowIff second).mp kept))
    rw [fromRow] at ih ⊢
    refine (ih bounded sorted (byKey.sublist (dropWhile_sublist _))).seek below ?_
    rintro other skipped key (⟨later, changed, rfl⟩ | ⟨later, kept, rfl⟩)
    · exact sorted.forall_lt ((belowIff other).mp (mem_takeWhile_imp skipped)) later changed
    · have lower := (belowIff other).mp (mem_takeWhile_imp skipped)
      rw [rest, mem_filter, Bool.not_eq_true', ← Bool.not_eq_true, belowIff, not_lt] at kept
      exact lower.trans_le kept.2
  | case5 _ change _ row _ compared _ ih =>
    have same : row.1.1 = change.1 := compare_eq_iff_eq.mp (along ▸ compared)
    refine (ih le_rfl sorted.tail (byKey_afterKeyRows byKey)).retractKey byKey
      (fun other member => same ▸ sorted.head_lt member)
      (fun _ member => mem_cons_of_mem _ member) (fun other member => ?_) (by omega)
    rcases mem_cons.mp member with rfl | member
    · exact .inr ⟨same.symm, le_rfl⟩
    · exact .inl member
  | case6 _ change _ row _ compared _ ih =>
    have above : change.1 < row.1.1 := compare_gt_iff_gt.mp (along ▸ compared)
    exact (ih le_rfl sorted.tail byKey).newKey sorted (forall_mem_cons.mpr ⟨above, fun other member =>
      above.trans_le ((pairwise_cons.mp byKey).1 other member)⟩) bounded

end OpenDera.Group.Lag
