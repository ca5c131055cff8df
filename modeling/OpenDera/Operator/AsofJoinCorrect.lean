import Mathlib.Tactic.Ring
import OpenDera.Operator.AsofJoin
import OpenDera.Std.FlatMap

/-!
# What an asof-join puts out for one key

Going down the affected timestamps, the operator's descending cursors are never past
the values it still has to visit. So for each timestamp it visits exactly the left
values of that timestamp and finds their matches, among the old values and among the
new ones. Since the timestamps cover all changes, the output is the difference between
the new and the old join of the key.
-/

namespace OpenDera.AsofJoin

open List SortedMap ZSet

universe u

variable {K L R T OK OV : Type u} [LinearOrder L] [LinearOrder R]
  [LinearOrder T] (operator : AsofJoin K L R T OK OV)

/-- The join of the values of one key. -/
def joinRows (key : K) (multiplier : ℤ) (left : List (L × ℤ)) (right : List (R × ℤ)) :
    List ((OK × OV) × ℤ) :=
  left.flatMap fun row => operator.joinRow key multiplier row (operator.matchOf right row.1)

/-- Descending cursors that are not past any value of a timestamp or below it. -/
structure NotPast (left : ZSet L) (right : ZSet R) (time : T)
    (cursor1 : Option (List (L × ℤ))) (cursor2 : List (R × ℤ)) : Prop where
  left : ∃ ahead, cursor1.getD [] = (left.entries.filter ahead).reverse ∧
    ∀ row, operator.tsFunc1 row.1 ≤ time → ahead row = true
  right : ∃ ahead, cursor2 = (right.entries.filter ahead).reverse ∧
    ∀ row, operator.tsFunc2 row.1 ≤ time → ahead row = true

variable {operator} {left : ZSet L} {right : ZSet R} {time : T} {cursor1 : Option (List (L × ℤ))}
  {cursor2 : List (R × ℤ)}

theorem NotPast.mono (notPast : operator.NotPast left right time cursor1 cursor2) {earlier : T}
    (order : earlier ≤ time) : operator.NotPast left right earlier cursor1 cursor2 := by
  obtain ⟨⟨leftAhead, leftEq, leftCovers⟩, ⟨rightAhead, rightEq, rightCovers⟩⟩ := notPast
  exact ⟨⟨leftAhead, leftEq, fun row early => leftCovers row (early.trans order)⟩,
    ⟨rightAhead, rightEq, fun row early => rightCovers row (early.trans order)⟩⟩

/-- Seeking the match of a left value finds it. -/
theorem seekKeyWith_match (right : ZSet R) {ahead : R × ℤ → Bool} {row : L}
    (notPast : ∀ other, operator.tsFunc2 other.1 ≤ operator.tsFunc1 row → ahead other = true) :
    Cursor.seekKeyWith (fun value => operator.tscmpFunc row value != .lt)
        (right.entries.filter ahead).reverse =
      (right.entries.filter fun other =>
        operator.tsFunc2 other.1 ≤ operator.tsFunc1 row).reverse := by
  simp only [tscmpFunc_bne_lt]
  refine Cursor.seekKeyWith_reverse right.sorted (fun first second below found => ?_)
    fun other found => notPast other (of_decide_eq_true found)
  exact decide_eq_true ((operator.monotone2 below.le).trans (of_decide_eq_true found))

/-- The loop visits the left values of one timestamp and finds their matches. -/
theorem evalValLoop_eq (right : ZSet R) (key : K) (multiplier : ℤ) {same rest : List (L × ℤ)}
    (sameTime : ∀ row ∈ same, operator.tsFunc1 row.1 = time)
    (restBefore : ∀ row ∈ rest, operator.tsFunc1 row.1 < time) (ahead : R × ℤ → Bool)
    (notPast : ∀ other, operator.tsFunc2 other.1 ≤ time → ahead other = true) :
    ∃ ahead' : R × ℤ → Bool,
      (∀ other, operator.tsFunc2 other.1 ≤ time → ahead' other = true) ∧
      operator.evalValLoop key time multiplier (same ++ rest) (right.entries.filter ahead).reverse =
        (operator.joinRows key multiplier same right.entries, rest,
          (right.entries.filter ahead').reverse) := by
  induction same generalizing ahead with
  | nil =>
    refine ⟨ahead, notPast, ?_⟩
    cases rest with
    | nil => rfl
    | cons row =>
      have other : operator.valtsCmpFunc row.1 time ≠ .eq := by
        simpa [valtsCmpFunc, compare_eq_iff_eq] using (restBefore row (by simp)).ne
      rw [nil_append, evalValLoop, if_neg other]
      rfl
  | cons row _ ih =>
    rw [forall_mem_cons] at sameTime
    have own : operator.valtsCmpFunc row.1 time = .eq := by
      simpa [valtsCmpFunc, compare_eq_iff_eq] using sameTime.1
    obtain ⟨ahead', notPast', rows⟩ := ih sameTime.2
      (fun other => operator.tsFunc2 other.1 ≤ operator.tsFunc1 row.1)
      fun other early => decide_eq_true (sameTime.1 ▸ early)
    refine ⟨ahead', notPast', ?_⟩
    rw [cons_append, evalValLoop, if_pos own,
      seekKeyWith_match right fun other early => notPast other (sameTime.1 ▸ early)]
    simp only [rows, head?_reverse]
    rfl

/-- The values up to a timestamp are those before it and those of it. -/
theorem filter_le_eq_append (left : ZSet L) (time : T) :
    (left.entries.filter fun row => operator.tsFunc1 row.1 ≤ time) =
      (left.entries.filter fun row => operator.tsFunc1 row.1 < time) ++
        left.entries.filter fun row => operator.tsFunc1 row.1 = time := by
  have split := filter_append_filter_not
    (left.sorted.filter fun row => operator.tsFunc1 row.1 ≤ time)
    (fun row => operator.tsFunc1 row.1 < time)
    fun first second below kept => decide_eq_true
      ((operator.monotone1 (le_of_lt below)).trans_lt (of_decide_eq_true kept))
  rw [← split, filter_filter, filter_filter]
  congr 1 <;> refine filter_congr fun row _ => ?_
  · simpa using le_of_lt
  · simp only [← decide_not, not_lt, ← Bool.decide_and, decide_eq_decide]
    exact (le_antisymm_iff.trans and_comm).symm

/-- The cursor over left values is moved to a timestamp. -/
theorem seekKeyWith_valtsCmpFunc (left : ZSet L) {ahead : L × ℤ → Bool}
    (notPast : ∀ row, operator.tsFunc1 row.1 ≤ time → ahead row = true) :
    Cursor.seekKeyWith (fun value => operator.valtsCmpFunc value time != .gt)
        (left.entries.filter ahead).reverse =
      (left.entries.filter fun row => operator.tsFunc1 row.1 ≤ time).reverse := by
  have compared : ∀ value, (operator.valtsCmpFunc value time != .gt) =
      decide (operator.tsFunc1 value ≤ time) := by
    intro value
    rw [valtsCmpFunc, Bool.eq_iff_iff, bne_iff_ne, decide_eq_true_eq, ne_eq, compare_gt_iff_gt,
      not_lt]
  simp only [compared]
  refine Cursor.seekKeyWith_reverse left.sorted (fun first second below found => ?_)
    fun row found => notPast row (of_decide_eq_true found)
  exact decide_eq_true ((operator.monotone1 below.le).trans (of_decide_eq_true found))

/-- Computing the join for a timestamp joins the left values of the timestamp with their
matches, and moves the cursors past none of the earlier ones. -/
theorem NotPast.evalVal (notPast : operator.NotPast left right time cursor1 cursor2) (key : K)
    (multiplier : ℤ) :
    (operator.evalVal key time multiplier cursor1 cursor2).1 =
        operator.joinRows key multiplier
          (left.entries.filter fun row => operator.tsFunc1 row.1 = time).reverse right.entries ∧
      ∀ earlier < time, operator.NotPast left right earlier
        (operator.evalVal key time multiplier cursor1 cursor2).2.1
        (operator.evalVal key time multiplier cursor1 cursor2).2.2 := by
  obtain ⟨⟨leftAhead, leftEq, leftCovers⟩, ⟨rightAhead, rightEq, rightCovers⟩⟩ := id notPast
  have sought := seekKeyWith_valtsCmpFunc left leftCovers
  rw [filter_le_eq_append, reverse_append, ← leftEq] at sought
  have sameTime : ∀ row ∈ (left.entries.filter fun row => operator.tsFunc1 row.1 = time).reverse,
      operator.tsFunc1 row.1 = time := fun row member => by
    simpa using (mem_filter.mp (mem_reverse.mp member)).2
  have restBefore : ∀ row ∈ (left.entries.filter fun row => operator.tsFunc1 row.1 < time).reverse,
      operator.tsFunc1 row.1 < time := fun row member => by
    simpa using (mem_filter.mp (mem_reverse.mp member)).2
  obtain ⟨ahead, covers, rows⟩ :=
    evalValLoop_eq right key multiplier sameTime restBefore rightAhead rightCovers
  rw [← sought, ← rightEq] at rows
  cases cursor1 with
  | none =>
    have empty := append_eq_nil_iff.mp sought.symm
    rw [empty.1]
    exact ⟨rfl, fun earlier before => notPast.mono before.le⟩
  | some =>
    simp only [AsofJoin.evalVal]
    rw [Option.getD_some] at rows
    rw [rows]
    exact ⟨rfl, fun earlier before =>
      ⟨⟨fun row => operator.tsFunc1 row.1 < time, rfl, fun row early =>
        decide_eq_true (early.trans_lt before)⟩,
      ⟨ahead, rfl, fun row early => covers row (early.trans before.le)⟩⟩⟩

/-- Cursors just moved to the end are not past anything. -/
theorem notPast_fastForward (left : ZSet L) (right : ZSet R) (time : T) :
    operator.NotPast left right time ((trySeek left.entries).map reverse)
      ((trySeek right.entries).getD []).reverse := by
  refine ⟨⟨fun _ => true, ?_, fun _ _ => rfl⟩, ⟨fun _ => true, ?_, fun _ _ => rfl⟩⟩
  · rw [filter_true]
    cases left.entries <;> rfl
  · rw [getD_trySeek, filter_true]

section

variable [LinearOrder OK] [LinearOrder OV]

/-- The weight of one left value in the output. -/
def rowWeight (operator : AsofJoin K L R T OK OV) (key : K)
    (right : List (R × ℤ)) (output : OK × OV) (row : L × ℤ) : ℤ :=
  weightOf (operator.joinRow key 1 row (operator.matchOf right row.1)) output

variable (key : K)

/-- The output of a list of left values weighs what its values do. -/
theorem weightOf_joinRows (multiplier : ℤ) (rows : List (L × ℤ))
    (right : List (R × ℤ)) (output : OK × OV) :
    weightOf (operator.joinRows key multiplier rows right) output =
      multiplier * (rows.map (operator.rowWeight key right output)).sum := by
  have scaled : ∀ row, weightOf (operator.joinRow key multiplier row
      (operator.matchOf right row.1)) output =
        multiplier * operator.rowWeight key right output row := by
    intro row
    rw [rowWeight, joinRow, joinRow, weightOf_map_const, weightOf_map_const]
    ring
  rw [joinRows, weightOf_flatMap]
  simp only [scaled, sum_map_mul_left]

/-- The weight of the left values of one timestamp in the output. -/
def timeWeight (operator : AsofJoin K L R T OK OV) (key : K)
    (left : ZSet L) (right : ZSet R) (output : OK × OV) (time : T) : ℤ :=
  ((left.entries.filter fun row => operator.tsFunc1 row.1 = time).map
    (operator.rowWeight key right.entries output)).sum

/-- Going down the timestamps replaces the old join of each by the new one. -/
theorem weightOf_evalTimes {old1 new1 : ZSet L} {old2 new2 : ZSet R}
    (output : OK × OV) {times : List T} (descending : times.Pairwise (· > ·))
    (cursors : Cursors L R)
    (oldNotPast : ∀ time ∈ times,
      operator.NotPast old1 old2 time cursors.delayedCursor1 cursors.delayedCursor2)
    (newNotPast : ∀ time ∈ times,
      operator.NotPast new1 new2 time cursors.cursor1 cursors.cursor2) :
    weightOf (operator.evalTimes key times cursors) output =
      (times.map (operator.timeWeight key new1 new2 output)).sum -
        (times.map (operator.timeWeight key old1 old2 output)).sum := by
  induction times generalizing cursors with
  | nil => rfl
  | cons _ _ ih =>
    rw [forall_mem_cons] at oldNotPast newNotPast
    obtain ⟨retracted, oldNext⟩ := oldNotPast.1.evalVal key (-1)
    obtain ⟨inserted, newNext⟩ := newNotPast.1.evalVal key 1
    obtain ⟨later, descendingLater⟩ := pairwise_cons.mp descending
    rw [evalTimes]
    simp only [weightOf_append, retracted, inserted, weightOf_joinRows, map_reverse,
      sum_reverse, map_cons, sum_cons]
    rw [ih descendingLater _ (fun earlier member => oldNext earlier (later earlier member))
      fun earlier member => newNext earlier (later earlier member)]
    simp only [timeWeight]
    ring

/-- Values of distinct timestamps add up to the values of any of them. -/
theorem sum_timeWeight (left : ZSet L) (right : ZSet R)
    (output : OK × OV) {times : List T} (distinct : times.Nodup) :
    (times.map (operator.timeWeight key left right output)).sum =
      ((left.entries.filter fun row => operator.tsFunc1 row.1 ∈ times).map
        (operator.rowWeight key right.entries output)).sum := by
  change (times.map fun time => ((left.entries.filter fun row =>
    operator.tsFunc1 row.1 = time).map (operator.rowWeight key right.entries output)).sum).sum = _
  induction left.entries with
  | nil => simp
  | cons row rows ih =>
    have split : ∀ time, (((row :: rows).filter fun row => operator.tsFunc1 row.1 = time).map
        (operator.rowWeight key right.entries output)).sum =
          (if time = operator.tsFunc1 row.1 then
            operator.rowWeight key right.entries output row else 0) +
          ((rows.filter fun row => operator.tsFunc1 row.1 = time).map
            (operator.rowWeight key right.entries output)).sum := by
      intro time
      by_cases own : operator.tsFunc1 row.1 = time
      · simp [own]
      · simp [own, Ne.symm own]
    have once := weightOf_map_const_of_nodup distinct
      (operator.rowWeight key right.entries output row) (operator.tsFunc1 row.1)
    simp only [weightOf, map_map, Function.comp_def] at once
    rw [map_congr_left fun time _ => split time, sum_map_add, ih, once]
    by_cases member : operator.tsFunc1 row.1 ∈ times <;> simp [member]

variable (delta1 delayed1 : ZSet L) (delta2 delayed2 : ZSet R) (output : OK × OV)

/-- A left value at a timestamp that is not affected has the same weight and the same
match before and after the changes. -/
theorem unaffected_rows :
    let unaffected := fun row : L × ℤ =>
      !decide (operator.tsFunc1 row.1 ∈ operator.affectedTimes delta1 delayed1 delta2 delayed2)
    ((delta1 + delayed1).entries.filter unaffected).map
        (operator.rowWeight key (delta2 + delayed2).entries output) =
      (delayed1.entries.filter unaffected).map
        (operator.rowWeight key delayed2.entries output) := by
  intro unaffected
  have rows : (delta1 + delayed1).entries.filter unaffected = delayed1.entries.filter unaffected := by
    refine eq_of_lookup_eq ((delta1 + delayed1).sorted.filter _)
      (delayed1.sorted.filter _) fun value => ?_
    let keep := fun value : L =>
      !decide (operator.tsFunc1 value ∈ operator.affectedTimes delta1 delayed1 delta2 delayed2)
    rw [lookup_filter_key (delta1 + delayed1).sorted keep, lookup_filter_key delayed1.sorted keep]
    split_ifs with kept
    · have unchanged : delta1.weight value = 0 := by
        by_contra changed
        have affected := operator.mem_affectedTimes_of_left delta1 delayed1 delta2 delayed2
          (mem_entries.mpr ⟨rfl, changed⟩)
        simp [keep, affected] at kept
      rw [lookup_eq, lookup_eq, weight_add, unchanged, zero_add]
    · rfl
  rw [rows]
  refine map_congr_left fun row member => ?_
  obtain ⟨rowMember, notAffected⟩ := mem_filter.mp member
  have sameMatch : operator.matchOf (delta2 + delayed2).entries row.1 =
      operator.matchOf delayed2.entries row.1 := by
    by_contra differs
    have affected := operator.mem_affectedTimes_of_right delta1 delayed1 delta2 delayed2 rowMember
      (Ne.symm differs)
    simp [unaffected, affected] at notAffected
  rw [rowWeight, rowWeight, sameMatch]

/-- The weight of the join of one key. -/
def joinWeight (operator : AsofJoin K L R T OK OV)
    (output : OK × OV) (key : K) (left : ZSet L) (right : ZSet R) : ℤ :=
  weightOf (operator.joinRows key 1 left.entries right.entries) output

/-- The join of a key consists of its affected and its unaffected values. -/
theorem joinWeight_eq_add (left : ZSet L) (right : ZSet R)
    (output : OK × OV) (affected : L × ℤ → Bool) :
    operator.joinWeight output key left right =
      ((left.entries.filter affected).map (operator.rowWeight key right.entries output)).sum +
        ((left.entries.filter fun row => !affected row).map
          (operator.rowWeight key right.entries output)).sum := by
  rw [joinWeight, weightOf_joinRows, one_mul, ← sum_append, ← map_append]
  exact ((filter_append_perm affected left.entries).map _).sum_eq.symm

/-- The output for a key is the change of its join. -/
theorem weightOf_evalKey :
    weightOf (operator.evalKey key delta1.entries delta2.entries delayed1.entries delayed2.entries)
        output =
      operator.joinWeight output key (delta1 + delayed1) (delta2 + delayed2) -
        operator.joinWeight output key delayed1 delayed2 := by
  have ascending := operator.pairwise_affectedTimes delta1 delayed1 delta2 delayed2
  have distinct := ascending.imp fun below => ne_of_lt below
  have unfolded : operator.evalKey key delta1.entries delta2.entries delayed1.entries
      delayed2.entries = operator.evalTimes key
        (operator.affectedTimes delta1 delayed1 delta2 delayed2).reverse
        ⟨(trySeek delayed1.entries).map reverse, ((trySeek delayed2.entries).getD []).reverse,
          (trySeek (delta1 + delayed1).entries).map reverse,
          ((trySeek (delta2 + delayed2).entries).getD []).reverse⟩ := by
    rw [entries_add, entries_add]
    rfl
  rw [unfolded, weightOf_evalTimes key output (pairwise_reverse.mpr ascending) _
    (fun time _ => notPast_fastForward delayed1 delayed2 time)
    (fun time _ => notPast_fastForward (delta1 + delayed1) (delta2 + delayed2) time),
    map_reverse, sum_reverse, map_reverse, sum_reverse,
    sum_timeWeight _ _ _ _ distinct, sum_timeWeight _ _ _ _ distinct,
    joinWeight_eq_add key (delta1 + delayed1) (delta2 + delayed2) output fun row =>
      operator.tsFunc1 row.1 ∈ operator.affectedTimes delta1 delayed1 delta2 delayed2,
    joinWeight_eq_add key delayed1 delayed2 output fun row =>
      operator.tsFunc1 row.1 ∈ operator.affectedTimes delta1 delayed1 delta2 delayed2,
    unaffected_rows]
  ring

end

end OpenDera.AsofJoin
