import Mathlib.Data.List.Sort
import OpenDera.Std.ChunkBuffer
import OpenDera.Std.Run
import OpenDera.Std.ZSetJoin
import OpenDera.Trace.Cursor

/-!
# The asof-join operator

`AsofJoin` joins every left value with the greatest right value under the same key whose
timestamp does not exceed its own, or with nothing. It keeps no output: on a pair of changes
it finds, key by key, the timestamps at which the result may change, and for each of them,
in descending order, it retracts the old matches and inserts the new ones. The old values
are read from the delayed traces, the new ones from cursors that merge the changes in.

Cursors over the values of one key are lists of the entries ahead, ascending while
timestamps are collected and descending, after `fast_forward_vals`, while matches are
computed. A cursor that did not find the key is `none`.
-/

namespace OpenDera

open List Option ZSet Cursor

universe u

variable {K L R T OK OV : Type u} [LinearOrder K] [LinearOrder L]
  [LinearOrder R] [LinearOrder T] [LinearOrder OK] [LinearOrder OV]

/-- The parameters of the operator. Values are ordered consistently with their
timestamps on both sides. -/
structure AsofJoin (K L R T OK OV : Type u) [LinearOrder L] [LinearOrder R] [LinearOrder T] where
  tsFunc1 : L → T
  tsFunc2 : R → T
  joinFunc : K → L → Option R → List (OK × OV)
  monotone1 : Monotone tsFunc1
  monotone2 : Monotone tsFunc2

/-- Remove consecutive repetitions. -/
def dedup {T : Type u} [DecidableEq T] : List T → List T
  | [] => []
  | [time] => [time]
  | time :: next :: times =>
    if time = next then dedup (next :: times) else time :: dedup (next :: times)

namespace AsofJoin

variable (operator : AsofJoin K L R T OK OV)

/-- Compare the timestamps of a left and a right value. -/
def tscmpFunc (left : L) (right : R) : Ordering :=
  compare (operator.tsFunc1 left) (operator.tsFunc2 right)

/-- Compare the timestamp of a left value with a timestamp. -/
def valtsCmpFunc (left : L) (time : T) : Ordering :=
  compare (operator.tsFunc1 left) time

/-- Seek to a key: `none` if nothing is found under it. -/
def trySeek {V : Type u} (entries : List (V × ℤ)) : Option (List (V × ℤ)) :=
  if entries.isEmpty then none else some entries

/-- Whether a seek to `target` skips a value; nothing is skipped without a target. -/
def skips (target : Option R) (value : R) : Bool :=
  match target with
  | some target => value < target
  | none => false

/-- The timestamps of old left values that changes of the right side may affect: from each
changed right value up to the next right value that is left after the changes. -/
def affectedByRight (target : Option R) : List (R × ℤ) → List (L × ℤ) → List (R × ℤ) → List T
  | [], _, _ => []
  | changed :: delta2, delayedCursor1, cursor2 =>
    if skips target changed.1 then
      affectedByRight target delta2 delayedCursor1 cursor2
    else
      let delayedCursor1 := seekKeyWith
        (fun value => operator.tscmpFunc value changed.1 != .lt) delayedCursor1
      match seekKeyWith (fun value => changed.1 < value) cursor2 with
      | [] => delayedCursor1.map fun row => operator.tsFunc1 row.1
      | next :: cursor2 =>
        let precedes := fun row : L × ℤ => operator.tscmpFunc row.1 next.1 == .lt
        let rest := delayedCursor1.dropWhile precedes
        ((delayedCursor1.takeWhile precedes).map fun row => operator.tsFunc1 row.1) ++
          if rest.isEmpty then []
          else affectedByRight (some next.1) delta2 rest (next :: cursor2)

/-- All timestamps at which the result may change, in ascending order. -/
def computeAffectedTimes (delta1 : List (L × ℤ)) (delta2 : List (R × ℤ))
    (delayedCursor1 : Option (List (L × ℤ))) (cursor2 : List (R × ℤ)) : List T :=
  let times := delta1.map fun row => operator.tsFunc1 row.1
  dedup <| match delayedCursor1 with
    | some delayedCursor1 =>
      (times ++ operator.affectedByRight none delta2 delayedCursor1 cursor2).insertionSort (· ≤ ·)
    | none => times

variable (key : K)

/-- The output for a left value and its match, if it has one. -/
def joinRow (multiplier : ℤ) (row : L × ℤ) (matched : Option (R × ℤ)) : List ((OK × OV) × ℤ) :=
  (operator.joinFunc key row.1 (matched.map Prod.fst)).map fun output =>
    (output, row.2 * (matched.map Prod.snd).getD 1 * multiplier)

/-- The loop over the left values of one timestamp. Both cursors are descending. -/
def evalValLoop (key : K) (time : T) (multiplier : ℤ) :
    List (L × ℤ) → List (R × ℤ) → List ((OK × OV) × ℤ) × List (L × ℤ) × List (R × ℤ)
  | [], cursor2 => ([], [], cursor2)
  | row :: cursor1, cursor2 =>
    if operator.valtsCmpFunc row.1 time = .eq then
      let cursor2 := seekKeyWith
        (fun value => operator.tscmpFunc row.1 value != .lt) cursor2
      let rest := evalValLoop key time multiplier cursor1 cursor2
      (operator.joinRow key multiplier row cursor2.head? ++ rest.1, rest.2)
    else
      ([], row :: cursor1, cursor2)

/-- Compute the join for one timestamp, and move the cursors past it. -/
def evalVal (time : T) (multiplier : ℤ) (cursor1 : Option (List (L × ℤ))) (cursor2 : List (R × ℤ)) :
    List ((OK × OV) × ℤ) × Option (List (L × ℤ)) × List (R × ℤ) :=
  match cursor1 with
  | none => ([], none, cursor2)
  | some cursor1 =>
    let rows := operator.evalValLoop key time multiplier
      (seekKeyWith (fun value => operator.valtsCmpFunc value time != .gt) cursor1) cursor2
    (rows.1, some rows.2.1, rows.2.2)

/-- The descending cursors over one key: the old values and the new ones. -/
structure Cursors (L R : Type u) where
  delayedCursor1 : Option (List (L × ℤ))
  delayedCursor2 : List (R × ℤ)
  cursor1 : Option (List (L × ℤ))
  cursor2 : List (R × ℤ)

/-- The loop over the affected timestamps, given in descending order. -/
def evalTimes (key : K) : List T → Cursors L R → List ((OK × OV) × ℤ)
  | [], _ => []
  | time :: times, cursors =>
    let retracted :=
      operator.evalVal key time (-1) cursors.delayedCursor1 cursors.delayedCursor2
    let inserted := operator.evalVal key time 1 cursors.cursor1 cursors.cursor2
    retracted.1 ++ inserted.1 ++ evalTimes key times
      { delayedCursor1 := retracted.2.1
        delayedCursor2 := retracted.2.2
        cursor1 := inserted.2.1
        cursor2 := inserted.2.2 }

/-- The output for one key with the given changes on the two sides. -/
def evalKey (delta1 : List (L × ℤ)) (delta2 : List (R × ℤ))
    (delayed1 : List (L × ℤ)) (delayed2 : List (R × ℤ)) :
    List ((OK × OV) × ℤ) :=
  let delayedCursor1 := trySeek delayed1
  let delayedCursor2 := trySeek delayed2
  let cursor1 := trySeek (sumEntries delta1 delayed1)
  let cursor2 := trySeek (sumEntries delta2 delayed2)
  let times := operator.computeAffectedTimes delta1 delta2 delayedCursor1 (cursor2.getD [])
  operator.evalTimes key times.reverse
    { delayedCursor1 := delayedCursor1.map reverse
      delayedCursor2 := (delayedCursor2.getD []).reverse
      cursor1 := cursor1.map reverse
      cursor2 := (cursor2.getD []).reverse }

/-- One iteration of the loops over the changed keys: the output of the key is added to
the pending tuples, which are handed out if there are enough of them. -/
def evalItem (chunkSize : Nat) (trace1 : IndexedZSet K L) (trace2 : IndexedZSet K R)
    (buffer : ChunkBuffer OK OV)
    (changed : K × Option (ZSet L) × Option (ZSet R)) : ChunkBuffer OK OV :=
  let tuples := operator.evalKey changed.1 (changed.2.1.getD 0).entries (changed.2.2.getD 0).entries
    (trace1.group changed.1).entries (trace2.group changed.1).entries
  (tuples.foldl ChunkBuffer.pushVal buffer).yieldFull chunkSize

end AsofJoin

/-- What the operator keeps between calls: the changes received since the last flush. -/
structure AsofJoinState (K L R : Type u) [LinearOrder K] [LinearOrder L] [LinearOrder R] where
  delta1 : Option (IndexedZSet K L) := none
  delta2 : Option (IndexedZSet K R) := none
  flush : Bool := false

namespace AsofJoin

variable (operator : AsofJoin K L R T OK OV)

/-- `AsofJoin::eval`: the next state and the chunks it yields. It fails if it is flushed
before both sides have delivered their changes. -/
def eval (state : AsofJoinState K L R) (chunkSize : Nat)
    (delta1 : Option (IndexedZSet K L)) (delayedTrace1 : IndexedZSet K L)
    (delta2 : Option (IndexedZSet K R)) (delayedTrace2 : IndexedZSet K R) :
    Option (AsofJoinState K L R × List (IndexedZSet OK OV × Bool)) :=
  let state := { state with delta1 := delta1.or state.delta1, delta2 := delta2.or state.delta2 }
  if state.flush then do
    let delta1 ← state.delta1
    let delta2 ← state.delta2
    let buffer := (SortedMap.outerJoin delta1.groups delta2.groups).foldl
      (operator.evalItem chunkSize delayedTrace1 delayedTrace2) {}
    return ({}, buffer.finish)
  else
    some (state, [(0, true)])

end AsofJoin

/-- One step of the circuit: the changes of both sides and the size of output chunks. -/
structure AsofJoinStep (K L R : Type u) [LinearOrder K] [LinearOrder L] [LinearOrder R] where
  delta1 : IndexedZSet K L
  delta2 : IndexedZSet K R
  chunkSize : Nat

/-- The circuit around the operator: its state, the integrals of both sides and
everything it put out. -/
structure AsofJoinCircuit (K L R OK OV : Type u) [LinearOrder K]
    [LinearOrder L] [LinearOrder R] [LinearOrder OK] [LinearOrder OV] where
  state : AsofJoinState K L R := {}
  trace1 : IndexedZSet K L := 0
  trace2 : IndexedZSet K R := 0
  output : IndexedZSet OK OV := 0

namespace AsofJoinCircuit

/-- Evaluate the operator on the traces before the changes, then add the changes. -/
def step (operator : AsofJoin K L R T OK OV) (circuit : AsofJoinCircuit K L R OK OV)
    (input : AsofJoinStep K L R) :
    Option (AsofJoinCircuit K L R OK OV) := do
  let (state, chunks) ← operator.eval { circuit.state with flush := true } input.chunkSize
    (some input.delta1) circuit.trace1 (some input.delta2) circuit.trace2
  return {
    state
    trace1 := circuit.trace1 + input.delta1
    trace2 := circuit.trace2 + input.delta2
    output := circuit.output + ChunkBuffer.sumOf chunks }

end AsofJoinCircuit

/-! ## The affected timestamps -/

section

variable {T : Type u}

@[simp] theorem mem_dedup [DecidableEq T] {time : T} (times : List T) :
    time ∈ dedup times ↔ time ∈ times := by
  fun_induction dedup times with
  | case1 => rfl
  | case2 => rfl
  | case3 _ _ ih => simp [ih]
  | case4 _ _ _ _ ih => simp [ih]

/-- Without repetitions an ascending list is strictly ascending. -/
theorem pairwise_lt_dedup [LinearOrder T] {times : List T}
    (sorted : times.Pairwise (· ≤ ·)) : (dedup times).Pairwise (· < ·) := by
  fun_induction dedup times with
  | case1 => simp
  | case2 => simp
  | case3 _ _ ih => exact ih sorted.tail
  | case4 time next _ differs ih =>
    refine pairwise_cons.mpr ⟨fun other member => ?_, ih sorted.tail⟩
    rw [mem_dedup] at member
    have first : time < next := lt_of_le_of_ne (rel_of_pairwise_cons sorted (by simp)) differs
    rcases mem_cons.mp member with rfl | later
    · exact first
    · exact first.trans_le (rel_of_pairwise_cons sorted.tail later)

end

namespace AsofJoin

variable {K L R T OK OV : Type u} [LinearOrder L] [LinearOrder R]
  [LinearOrder T] (operator : AsofJoin K L R T OK OV)

theorem tscmpFunc_bne_lt (left : L) (right : R) : (operator.tscmpFunc left right != .lt) =
      decide (operator.tsFunc2 right ≤ operator.tsFunc1 left) := by
  rw [tscmpFunc, Bool.eq_iff_iff, bne_iff_ne, decide_eq_true_eq, ne_eq, compare_lt_iff_lt, not_lt]

variable {rows : List (L × ℤ)}

/-- The cursor over old left values is moved to the timestamp of a changed right value. -/
theorem seekKeyWith_tscmpFunc (sorted : SortedMap.Sorted rows) (value : R) :
    seekKeyWith (fun left => operator.tscmpFunc left value != .lt) rows =
      rows.filter fun row => operator.tsFunc2 value ≤ operator.tsFunc1 row.1 := by
  simp only [tscmpFunc_bne_lt]
  refine seekKeyWith_eq_filter sorted fun first second below found => ?_
  exact decide_eq_true ((of_decide_eq_true found).trans (operator.monotone1 below.le))

/-- The left values that do not precede a right value follow those that do. -/
theorem dropWhile_tscmpFunc (sorted : SortedMap.Sorted rows) (value : R) :
    (rows.dropWhile fun row => operator.tscmpFunc row.1 value == .lt) =
      rows.filter fun row => operator.tsFunc2 value ≤ operator.tsFunc1 row.1 :=
  operator.seekKeyWith_tscmpFunc sorted value ▸ by
    simp [seekKeyWith, bne]

variable {row : L × ℤ}

/-- A timestamp between a changed right value and the next one that is left is affected. -/
theorem mem_affectedByRight {target : Option R} {delta2 cursor2 : List (R × ℤ)}
    {delayedCursor1 : List (L × ℤ)} (delta2Sorted : SortedMap.Sorted delta2)
    (leftSorted : SortedMap.Sorted delayedCursor1) (rightSorted : SortedMap.Sorted cursor2)
    {changed : R × ℤ} (changedMember : changed ∈ delta2)
    (reached : ∀ value ∈ target, value ≤ changed.1) (rowMember : row ∈ delayedCursor1)
    (notBefore : operator.tsFunc2 changed.1 ≤ operator.tsFunc1 row.1)
    (noneBetween : ∀ next ∈ cursor2, changed.1 < next.1 →
      operator.tsFunc1 row.1 < operator.tsFunc2 next.1) :
    operator.tsFunc1 row.1 ∈ operator.affectedByRight target delta2 delayedCursor1 cursor2 := by
  induction delta2 generalizing target delayedCursor1 cursor2 with
  | nil => simp at changedMember
  | cons first delta2 ih =>
    rw [affectedByRight]
    split_ifs with skipped
    · -- A skipped value lies below the target, so it is not the changed one.
      rcases mem_cons.mp changedMember with rfl | later
      · cases target with
        | none => simp [skips] at skipped
        | some target =>
          exact absurd (of_decide_eq_true skipped) (reached target rfl).not_gt
      · exact ih delta2Sorted.tail leftSorted rightSorted later reached rowMember noneBetween
    · have order : first.1 ≤ changed.1 := by
        rcases mem_cons.mp changedMember with rfl | later
        · exact le_rfl
        · exact (delta2Sorted.head_lt later).le
      have ahead : row ∈ delayedCursor1.filter fun row =>
          operator.tsFunc2 first.1 ≤ operator.tsFunc1 row.1 :=
        mem_filter.mpr ⟨rowMember, decide_eq_true ((operator.monotone2 order).trans notBefore)⟩
      have rightAhead : seekKeyWith (fun value => first.1 < value) cursor2 =
          cursor2.filter fun next => first.1 < next.1 :=
        seekKeyWith_eq_filter rightSorted fun one other below found => by
          simpa using (of_decide_eq_true found).trans below
      rw [operator.seekKeyWith_tscmpFunc leftSorted, rightAhead]
      cases nextValues : cursor2.filter fun next => first.1 < next.1 with
      | nil => exact mem_map_of_mem ahead
      | cons next later =>
        have nextMember : next ∈ cursor2 ∧ first.1 < next.1 := by
          have member : next ∈ cursor2.filter fun next => first.1 < next.1 := by
            simp [nextValues]
          simpa using mem_filter.mp member
        rw [← takeWhile_append_dropWhile
          (p := fun row : L × ℤ => operator.tscmpFunc row.1 next.1 == .lt)
          (l := delayedCursor1.filter _), mem_append] at ahead
        rw [mem_append]
        refine ahead.imp (fun taken => mem_map_of_mem taken) fun left => ?_
        rw [if_neg (by simpa using ne_nil_of_mem left)]
        have after : operator.tsFunc2 next.1 ≤ operator.tsFunc1 row.1 := by
          rw [operator.dropWhile_tscmpFunc (leftSorted.filter _)] at left
          simpa using (mem_filter.mp left).2
        -- The next right value is no later than the row, so the change is not before it.
        have beyond : next.1 ≤ changed.1 := not_lt.mp fun before =>
          (noneBetween next nextMember.1 before).not_ge after
        have laterChange : changed ∈ delta2 := by
          rcases mem_cons.mp changedMember with rfl | member
          · exact absurd nextMember.2 beyond.not_gt
          · exact member
        refine ih delta2Sorted.tail ((leftSorted.filter _).sublist (dropWhile_sublist _))
          (nextValues ▸ rightSorted.filter _) laterChange (by simpa using beyond) left ?_
        intro other member
        rw [← nextValues] at member
        exact noneBetween other (mem_filter.mp member).1

/-- The match of a left value: the greatest right value whose timestamp is not greater. -/
def matchOf (right : List (R × ℤ)) (left : L) : Option (R × ℤ) :=
  (right.filter fun row => operator.tsFunc2 row.1 ≤ operator.tsFunc1 left).getLast?

variable {right : List (R × ℤ)} {left : L}

/-- A match is a right value that is not later than the left one. -/
theorem mem_of_matchOf {matched : R × ℤ} (found : operator.matchOf right left = some matched) :
    matched ∈ right ∧ operator.tsFunc2 matched.1 ≤ operator.tsFunc1 left := by
  simpa using mem_filter.mp (mem_of_getLast? found)

/-- No right value after the match is early enough. -/
theorem lt_of_matchOf (sorted : SortedMap.Sorted right) {matched : R × ℤ}
    (found : operator.matchOf right left = some matched) {next : R × ℤ}
    (member : next ∈ right) (after : matched.1 < next.1) :
    operator.tsFunc1 left < operator.tsFunc2 next.1 := by
  refine not_le.mp fun early => after.not_ge ?_
  exact (sorted.filter _).le_getLast? found next (mem_filter.mpr ⟨member, decide_eq_true early⟩)

theorem lt_of_matchOf_eq_none (absent : operator.matchOf right left = none) {next : R × ℤ}
    (member : next ∈ right) : operator.tsFunc1 left < operator.tsFunc2 next.1 := by
  rw [matchOf, getLast?_eq_none_iff, filter_eq_nil_iff] at absent
  simpa using absent next member

/-- A right value early enough has a match that is not before it. -/
theorem exists_matchOf (sorted : SortedMap.Sorted right) {row : R × ℤ} (member : row ∈ right)
    (early : operator.tsFunc2 row.1 ≤ operator.tsFunc1 left) :
    ∃ matched, operator.matchOf right left = some matched ∧ row.1 ≤ matched.1 := by
  have candidate : row ∈ right.filter fun row => operator.tsFunc2 row.1 ≤ operator.tsFunc1 left :=
    mem_filter.mpr ⟨member, decide_eq_true early⟩
  obtain ⟨matched, found⟩ := isSome_iff_exists.mp
    (getLast?_isSome.mpr (ne_nil_of_mem candidate))
  exact ⟨matched, found, (sorted.filter _).le_getLast? found row candidate⟩

/-- If the match of a left value changes then a right value changes that is early enough
and after which no right value that is left is. -/
theorem exists_changed_of_matchOf_ne {old delta : ZSet R}
    (differs : operator.matchOf old.entries left ≠ operator.matchOf (delta + old).entries left) :
    ∃ changed ∈ delta.entries, operator.tsFunc2 changed.1 ≤ operator.tsFunc1 left ∧
      ∀ next ∈ (delta + old).entries, changed.1 < next.1 →
        operator.tsFunc1 left < operator.tsFunc2 next.1 := by
  have isChange : ∀ row ∈ old.entries, (delta + old).weight row.1 = 0 →
      ∃ changed ∈ delta.entries, changed.1 = row.1 := by
    intro row member gone
    obtain ⟨weight, nonzero⟩ := mem_entries.mp member
    rw [weight_add] at gone
    exact ⟨(row.1, delta.weight row.1), mem_entries.mpr ⟨rfl, by omega⟩, rfl⟩
  have present : ∀ value, (delta + old).weight value ≠ 0 →
      (value, (delta + old).weight value) ∈ (delta + old).entries := fun value nonzero =>
    mem_entries.mpr ⟨rfl, nonzero⟩
  cases new : operator.matchOf (delta + old).entries left with
  | none =>
    obtain ⟨matched, found⟩ := ne_none_iff_exists'.mp (new ▸ differs)
    obtain ⟨member, early⟩ := operator.mem_of_matchOf found
    obtain ⟨changed, changedMember, same⟩ := isChange matched member (by
      by_contra nonzero
      exact (operator.lt_of_matchOf_eq_none new (present _ nonzero)).not_ge early)
    exact ⟨changed, changedMember, same ▸ early, fun next nextMember _ =>
      operator.lt_of_matchOf_eq_none new nextMember⟩
  | some matched =>
    obtain ⟨member, early⟩ := operator.mem_of_matchOf new
    by_cases unchanged : delta.weight matched.1 = 0
    · -- The new match is an old value, so the old match lies after it and is gone.
      obtain ⟨weight, nonzero⟩ := mem_entries.mp member
      rw [weight_add, unchanged, zero_add] at weight
      have wasThere : matched ∈ old.entries := mem_entries.mpr ⟨weight, nonzero⟩
      obtain ⟨oldMatched, found, order⟩ := operator.exists_matchOf old.sorted wasThere early
      obtain ⟨oldMember, oldEarly⟩ := operator.mem_of_matchOf found
      have after : matched.1 < oldMatched.1 := by
        refine lt_of_le_of_ne order fun same => differs ?_
        have sameWeight := (mem_entries.mp oldMember).1
        rw [found, new, some_inj]
        exact Prod.ext same.symm (by rw [← sameWeight, ← weight, same])
      obtain ⟨changed, changedMember, same⟩ := isChange oldMatched oldMember (by
        by_contra nonzero
        exact (operator.lt_of_matchOf (delta + old).sorted new (present _ nonzero) after).not_ge
          oldEarly)
      refine ⟨changed, changedMember, same ▸ oldEarly, fun next nextMember beyond => ?_⟩
      exact operator.lt_of_matchOf (delta + old).sorted new nextMember (after.trans (same ▸ beyond))
    · exact ⟨(matched.1, delta.weight matched.1), mem_entries.mpr ⟨rfl, unchanged⟩, early,
        fun next nextMember beyond =>
          operator.lt_of_matchOf (delta + old).sorted new nextMember beyond⟩

section

variable (delta1 delayed1 : ZSet L) (delta2 delayed2 : ZSet R)

/-- The affected timestamps of one key. -/
def affectedTimes : List T :=
  operator.computeAffectedTimes delta1.entries delta2.entries (trySeek delayed1.entries)
    ((trySeek (sumEntries delta2.entries delayed2.entries)).getD [])

theorem pairwise_affectedTimes :
    (operator.affectedTimes delta1 delayed1 delta2 delayed2).Pairwise (· < ·) := by
  refine pairwise_lt_dedup ?_
  cases trySeek delayed1.entries with
  | none =>
    refine List.Pairwise.map _ (fun first second below => ?_) delta1.sorted
    exact operator.monotone1 (le_of_lt below)
  | some => exact pairwise_insertionSort _ _

/-- The timestamp of a changed left value is affected. -/
theorem mem_affectedTimes_of_left (member : row ∈ delta1.entries) :
    operator.tsFunc1 row.1 ∈ operator.affectedTimes delta1 delayed1 delta2 delayed2 := by
  have listed : operator.tsFunc1 row.1 ∈ delta1.entries.map fun row => operator.tsFunc1 row.1 :=
    mem_map_of_mem member
  rw [affectedTimes]
  cases trySeek delayed1.entries with
  | none => exact (mem_dedup _).mpr listed
  | some =>
    refine (mem_dedup _).mpr ((mem_insertionSort _).mpr ?_)
    exact mem_append_left _ listed

/-- Reading from a missing cursor is reading from an empty one. -/
@[simp] theorem getD_trySeek {V : Type u} (entries : List (V × ℤ)) :
    (trySeek entries).getD [] = entries := by
  cases entries <;> rfl

/-- The timestamp of an old left value whose match changes is affected. -/
theorem mem_affectedTimes_of_right (member : row ∈ delayed1.entries)
    (differs : operator.matchOf delayed2.entries row.1 ≠
      operator.matchOf (delta2 + delayed2).entries row.1) :
    operator.tsFunc1 row.1 ∈ operator.affectedTimes delta1 delayed1 delta2 delayed2 := by
  obtain ⟨changed, changedMember, notBefore, noneBetween⟩ :=
    operator.exists_changed_of_matchOf_ne differs
  have found : trySeek delayed1.entries = some delayed1.entries := by
    simp [trySeek, ne_nil_of_mem member]
  rw [affectedTimes, found, getD_trySeek, ← entries_add]
  refine (mem_dedup _).mpr ((mem_insertionSort _).mpr (mem_append_right _ ?_))
  exact operator.mem_affectedByRight delta2.sorted delayed1.sorted (delta2 + delayed2).sorted
    changedMember (by simp) member notBefore noneBetween

end

end AsofJoin

end OpenDera
