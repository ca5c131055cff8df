import OpenDera.Group.LagBackward

/-!
# The output of the backward pass

The loop of the backward pass goes through the affected keys. Between two keys it is on
course, or it has to seek the next key, or the key it sought was found with a negative
weight; then the cursor does not move until the next seek. In each case what is left to
do is the new output of the keys that are still to be processed.
-/

namespace OpenDera.Group.Lag

open List

variable {V Out : Type*} [LinearOrder V] {operator : Lag V Out}

/-- The keys to be processed stay the same, and keys are only taken from those not yet seen. -/
structure KeepsKeys (before after : LagState V) : Prop where
  pendingKeys_eq : pendingKeys after = pendingKeys before
  length_le : after.nextKeys.length ≤ before.nextKeys.length

omit [LinearOrder V] in
theorem KeepsKeys.trans {first second third : LagState V} (earlier : KeepsKeys first second)
    (later : KeepsKeys second third) : KeepsKeys first third :=
  ⟨later.pendingKeys_eq.trans earlier.pendingKeys_eq, later.length_le.trans earlier.length_le⟩

variable (state : LagState V)

omit [LinearOrder V] in
theorem keepsKeys_recordSkipped : KeepsKeys state (operator.recordSkipped state) where
  pendingKeys_eq := by
    simp [pendingKeys, recordSkipped, Function.comp_def]
  length_le := (dropWhile_sublist _).length_le

theorem keepsKeys_recordEncountered : KeepsKeys state (recordEncountered state) := by
  unfold recordEncountered
  split
  case h_1 _ _ _ _ _ next =>
    split_ifs
    · exact ⟨by simp [pendingKeys, next], by simp [next]⟩
    · exact ⟨rfl, le_rfl⟩
  case h_2 => exact ⟨rfl, le_rfl⟩

theorem keepsKeys_stepReverse : KeepsKeys state (operator.stepReverse state) := by
  simp only [stepReverse]
  generalize (if 0 < state.remainingWeight then state.remainingWeight - 1
    else state.remainingWeight) = weight
  split_ifs with ended
  · have moved : KeepsKeys state (stepKeyReverse { state with
        offsetFromPrev := state.offsetFromPrev + 1, remainingWeight := weight }) := ⟨rfl, le_rfl⟩
    exact moved.trans ((keepsKeys_recordSkipped _).trans (keepsKeys_recordEncountered _))
  · exact ⟨rfl, le_rfl⟩

section

variable (along : operator.keyCmp = compare) {entries : List (V × ℤ)}
  (descending : Descending entries)

include along descending

variable {state} {position : Nat} {first : ℤ} (onCourse : OnCourse entries state position first)

include onCourse

/-- Any number of steps backward keeps the pass on course. -/
theorem OnCourse.stepKeyReverseN (steps : Nat) :
    OnCourse entries (operator.stepKeyReverseN steps state) (position + steps) first ∧
      KeepsKeys state (operator.stepKeyReverseN steps state) := by
  induction steps generalizing state position with
  | zero => exact ⟨onCourse, rfl, le_rfl⟩
  | succ _ ih =>
    rw [Lag.stepKeyReverseN]
    split_ifs with empty
    · have ended := isEmpty_iff.mp empty
      have none : ahead state = [] := by rw [ahead, ended]
      refine ⟨⟨onCourse.suffix, onCourse.ordered, ?_, fun valid => absurd ended valid,
        onCourse.nextBelow, ?_⟩, rfl, le_rfl⟩
      · rw [none, eq_comm, ← drop_drop, ← onCourse.ahead_eq, none, drop_nil]
      · obtain ⟨last, chain, -⟩ := onCourse.chain
        exact ⟨last, chain, fun valid => absurd ended valid⟩
    · have stepped := onCourse.stepReverse along descending (by simpa using empty)
      obtain ⟨next, keeps⟩ := ih stepped
      exact ⟨by rwa [Nat.add_right_comm] at next, (keepsKeys_stepReverse state).trans keeps⟩

omit along descending in
/-- On course, the cursor is on the occurrence at its position. -/
theorem OnCourse.head?_cursor :
    state.cursor.head?.map Prod.fst = (occurrences entries)[position]? := by
  rw [← head?_drop, ← onCourse.ahead_eq, ahead]
  cases onEntry : state.cursor with
  | nil => rfl
  | cons =>
    have positive := onCourse.positive (by simp [onEntry])
    obtain ⟨count, succ⟩ := Nat.exists_eq_succ_of_ne_zero (n := state.remainingWeight.toNat)
      (by omega)
    simp [succ, replicate_succ]

/-- The output that is inserted for a key pairs it with the occurrences from the position on. -/
theorem OnCourse.insertRows (key : V) (count : Nat) :
    (operator.insertRows key count state).1 = ((range count).map fun index =>
        ((key, operator.project (occurrences entries)[position + index]?), 1)) ∧
      OnCourse entries (operator.insertRows key count state).2 (position + count) first ∧
      KeepsKeys state (operator.insertRows key count state).2 := by
  induction count generalizing state position with
  | zero => exact ⟨rfl, onCourse, rfl, le_rfl⟩
  | succ _ ih =>
    obtain ⟨stepped, keeps⟩ := onCourse.stepKeyReverseN along descending 1
    obtain ⟨rows, next, keepsRest⟩ := ih stepped
    refine ⟨?_, by rwa [Nat.add_right_comm] at next, keeps.trans keepsRest⟩
    rw [Lag.insertRows]
    rw [rows, onCourse.head?_cursor, range_succ_eq_map, map_cons, map_map]
    simp [Function.comp_def, Nat.add_right_comm, Nat.add_assoc]

end

/-- The states between two iterations of the loop. -/
inductive Reached (operator : Lag V Out) (entries : List (V × ℤ)) : LagState V → Prop
  /-- The next key has to be sought. -/
  | seeking {state : LagState V} (nothingRecorded : state.encounteredKeys = [])
      (ordered : state.nextKeys.Pairwise (· > ·))
      (notPassed : NotPassed entries state.cursor state.nextKeys) : Reached operator entries state
  /-- The cursor is `lag` positions behind the end of the last key. -/
  | following {state : LagState V} {position : Nat} {first : ℤ}
      (onCourse : OnCourse entries state position first)
      (behind : (position : ℤ) = first + operator.lag) : Reached operator entries state
  /-- The key that was sought has a negative weight. -/
  | stuck {state : LagState V} {entry : V × ℤ} {cursor : List (V × ℤ)}
      (onEntry : state.cursor = entry :: cursor) (negative : entry.2 < 0)
      (remaining : state.remainingWeight = entry.2)
      (recorded : state.encounteredKeys =
        [{ key := entry.1, weight := entry.2, offset := some operator.lag }])
      (absent : Absent entries entry.1) (ordered : state.nextKeys.Pairwise (· > ·))
      (notPassed : NotPassed entries state.cursor state.nextKeys) : Reached operator entries state

/-- The number of iterations that a state leaves to do is at most this. -/
def iterations (state : LagState V) : Nat :=
  (pendingKeys state).length + state.nextKeys.length

omit [LinearOrder V] in
theorem KeepsKeys.iterations_le {before after : LagState V} (keeps : KeepsKeys before after) :
    iterations after ≤ iterations before := by
  have shorter := keeps.length_le
  simp only [iterations, keeps.pendingKeys_eq]
  omega

section

variable (along : operator.keyCmp = compare) {entries : List (V × ℤ)}
  (descending : Descending entries) {cursor : List (V × ℤ)}

/-- A seek passes no occurrence of the keys not yet seen. -/
theorem NotPassed.seek {key : V} {keys : List V} (along : operator.keyCmp = compare)
    (ordered : (key :: keys).Pairwise (· > ·))
    (notPassed : NotPassed entries cursor (key :: keys)) :
    NotPassed entries
      (Cursor.seekKeyWith (fun other => operator.keyCmp other key != .gt) cursor) (key :: keys) := by
  obtain ⟨passed, split, above⟩ := notPassed
  refine ⟨passed ++ cursor.takeWhile fun entry => !(operator.keyCmp entry.1 key != .gt), ?_, ?_⟩
  · rw [append_assoc, Cursor.seekKeyWith, takeWhile_append_dropWhile, split]
  · intro entry before positive other member
    rcases mem_append.mp before with earlier | sought
    · exact above entry earlier positive other member
    · have keyBelow : key < entry.1 := by
        simpa [along, compare_gt_iff_gt] using mem_takeWhile_imp sought
      rcases mem_cons.mp member with rfl | later
      · exact keyBelow
      · exact ((pairwise_cons.mp ordered).1 other later).trans keyBelow

include along descending

variable {entry : V × ℤ}

omit along in
/-- From a key that was sought and found, the pass follows its course. -/
theorem reached_of_found (nonzero : ∀ entry ∈ entries, entry.2 ≠ 0) {nextKeys : List V}
    (ordered : (entry.1 :: nextKeys).Pairwise (· > ·))
    (notPassed : NotPassed entries (entry :: cursor) (entry.1 :: nextKeys)) :
    Reached operator entries
      { cursor := entry :: cursor
        remainingWeight := entry.2
        offsetFromPrev := -entry.2
        encounteredKeys := [{ key := entry.1, weight := entry.2, offset := some operator.lag }]
        nextKeys } := by
  obtain ⟨keysBelow, ordered⟩ := pairwise_cons.mp ordered
  have later := notPassed.mono (subset_cons_self _ _)
  obtain ⟨passed, rfl, -⟩ := notPassed
  obtain ⟨-, rest, cross⟩ := pairwise_append.mp descending
  rcases lt_or_gt_of_ne (nonzero entry (by simp)) with negative | positive
  · refine .stuck rfl negative rfl rfl ?_ ordered later
    intro other member same
    rcases mem_append.mp member with before | after
    · exact absurd same (cross other before entry mem_cons_self).ne'
    · rcases mem_cons.mp after with rfl | after
      · exact negative.le
      · exact absurd same ((pairwise_cons.mp rest).1 other after).ne
  · let position := (occurrences passed).length
    have onCourse : OnCourse (passed ++ entry :: cursor)
        { cursor := entry :: cursor
          remainingWeight := entry.2
          offsetFromPrev := -entry.2
          encounteredKeys := [{ key := entry.1, weight := entry.2, offset := some operator.lag }]
          nextKeys } position (position - operator.lag) :=
      { suffix := ⟨passed, rfl⟩
        ordered
        ahead_eq := by simp [ahead, position]
        positive := fun _ => positive
        nextBelow := fun key member => ⟨entry, rfl, keysBelow key member⟩
        chain := ⟨position + entry.2, ⟨positive, position, ⟨passed, cursor, rfl, rfl⟩, by omega, rfl⟩,
          fun _ => by simp only; omega⟩ }
    exact .following onCourse (by omega)

omit descending in
theorem le_of_mem_head?_seek {key : V} (isHead : entry ∈ (Cursor.seekKeyWith
      (fun other => operator.keyCmp other key != .gt) cursor).head?) :
    entry.1 ≤ key := by
  have stopped := head?_dropWhile_not
    (fun entry : V × ℤ => !(operator.keyCmp entry.1 key != .gt)) cursor
  rw [Cursor.seekKeyWith] at isHead
  rw [isHead] at stopped
  simpa [along, compare_gt_iff_gt] using stopped

variable {state}

omit along descending in
/-- If the seek passed over keys without finding one, there are fewer keys left. -/
theorem reached_of_skipped (nothingRecorded : state.encounteredKeys = [])
    {skipped nextKeys : List V} (split : skipped ++ nextKeys = state.nextKeys)
    (some : skipped ≠ []) (absent : ∀ other ∈ skipped, Absent entries other)
    (ordered : nextKeys.Pairwise (· > ·)) (notPassed : NotPassed entries cursor nextKeys) :
    Reached operator entries { state with cursor, nextKeys } ∧
      iterations { state with cursor, nextKeys } < iterations state ∧
      ∃ skipped, state.nextKeys = skipped ++ pendingKeys { state with cursor, nextKeys } ∧
        ∀ other ∈ skipped, Absent entries other := by
  have shorter := length_pos_iff.mpr some
  refine ⟨.seeking nothingRecorded ordered notPassed, ?_, skipped, ?_, absent⟩
  · simp only [iterations, pendingKeys, nothingRecorded, map_nil, nil_append, ← split,
      length_append]
    omega
  · rw [pendingKeys, nothingRecorded, map_nil, nil_append, split]

/-- A seek passes over keys that do not occur. -/
theorem reached_seekNextKey (nonzero : ∀ entry ∈ entries, entry.2 ≠ 0)
    (nothingRecorded : state.encounteredKeys = []) (ordered : state.nextKeys.Pairwise (· > ·))
    (notPassed : NotPassed entries state.cursor state.nextKeys) {key : V} {keys : List V}
    (next : state.nextKeys = key :: keys) :
    Reached operator entries (operator.seekNextKey key state) ∧
      iterations (operator.seekNextKey key state) < iterations state ∧
      ∃ skipped, state.nextKeys = skipped ++ pendingKeys (operator.seekNextKey key state) ∧
        ∀ other ∈ skipped, Absent entries other := by
  have sought := (next ▸ notPassed).seek along (next ▸ ordered)
  rw [← next] at sought
  have notAbove := fun entry => @le_of_mem_head?_seek _ _ _ operator along state.cursor entry key
  unfold seekNextKey
  generalize Cursor.seekKeyWith (fun other => operator.keyCmp other key != .gt) state.cursor =
    cursor at sought notAbove
  have absent : ∀ other ∈ state.nextKeys.takeWhile (operator.isPast cursor),
      Absent entries other := fun other member => absent_of_isPast along descending sought
    ((takeWhile_sublist _).subset member) (mem_takeWhile_imp member)
  have split := takeWhile_append_dropWhile (p := operator.isPast cursor) (l := state.nextKeys)
  have notPast := fun other => @le_head_of_mem_dropWhile _ _ _ operator other along cursor
    state.nextKeys ordered
  have leftOrdered := ordered.sublist (state.nextKeys.dropWhile_sublist (operator.isPast cursor))
  have leftNotPassed :=
    sought.mono (state.nextKeys.dropWhile_sublist (operator.isPast cursor)).subset
  simp only
  generalize skippedKeys : state.nextKeys.takeWhile (operator.isPast cursor) = skipped at *
  generalize leftKeys : state.nextKeys.dropWhile (operator.isPast cursor) = left at *
  -- if no key was skipped, the first key was found
  have found : skipped = [] → ∃ entry ∈ cursor.head?, key = entry.1 ∧ left = key :: keys := by
    rintro rfl
    have all : left = key :: keys := by simpa [next] using split
    obtain ⟨entry, isHead, notBelow⟩ := notPast key (by simp [all])
    exact ⟨entry, isHead, le_antisymm notBelow (notAbove entry isHead), all⟩
  split
  case h_1 =>
    split_ifs with same
    · subst same
      refine ⟨reached_of_found descending nonzero leftOrdered leftNotPassed, ?_, skipped, ?_, absent⟩
      · simp only [iterations, pendingKeys, nothingRecorded, ← split, map_cons, map_nil,
          length_append, length_cons, length_nil]
        omega
      · simpa [pendingKeys] using split.symm
    · refine reached_of_skipped nothingRecorded split (fun none => same ?_) absent leftOrdered
        leftNotPassed
      obtain ⟨_, isHead, equal, all⟩ := found none
      rw [head?_cons, Option.mem_some_iff] at isHead
      rw [(cons.inj all).1, isHead, equal]
  case h_2 other =>
    refine reached_of_skipped nothingRecorded split (fun none => ?_) absent leftOrdered leftNotPassed
    obtain ⟨entry, isHead, -, all⟩ := found none
    obtain ⟨rest, onEntry⟩ := head?_eq_some_iff.mp isHead
    exact other _ _ _ _ onEntry all

omit along in
theorem OnCourse.notPassed {position : Nat} {first : ℤ}
    (onCourse : OnCourse entries state position first) :
    NotPassed entries state.cursor state.nextKeys := by
  obtain ⟨passed, split⟩ := onCourse.suffix
  refine ⟨passed, split.symm, fun entry before _ key member => ?_⟩
  obtain ⟨head, isHead, below⟩ := onCourse.nextBelow key member
  rw [← split] at descending
  exact below.trans
    ((pairwise_append.mp descending).2.2 entry before head (mem_of_mem_head? isHead))

omit along descending in
/-- While the cursor is on an entry of negative weight, steps do not move it. -/
theorem stepKeyReverseN_of_negative (operator : Lag V Out) (state : LagState V)
    (negative : state.remainingWeight < 0) (steps : Nat) :
    ∃ offset, operator.stepKeyReverseN steps state = { state with offsetFromPrev := offset } := by
  induction steps generalizing state with
  | zero => exact ⟨_, rfl⟩
  | succ _ ih =>
    rw [Lag.stepKeyReverseN]
    split_ifs
    · exact ⟨_, rfl⟩
    · have stays : operator.stepReverse state =
          { state with offsetFromPrev := state.offsetFromPrev + 1 } := by
        simp [stepReverse, negative.not_gt, negative.ne]
      rw [stays]
      obtain ⟨offset, same⟩ := ih
        { state with offsetFromPrev := state.offsetFromPrev + 1 } negative
      exact ⟨offset, same⟩

omit along descending in
/-- With some fuel the loop computes the new output of the keys that are still to be
processed. -/
def LoopCorrect (operator : Lag V Out) (entries : List (V × ℤ)) (fuel : Nat) : Prop :=
  ∀ state, Reached operator entries state → iterations state < fuel →
    operator.updateLoop fuel state =
      some ((pendingKeys state).flatMap (newRows operator entries))

variable {fuel : Nat}

section

variable (correct : LoopCorrect operator entries fuel)

include correct

theorem LoopCorrect.seeking
    (nonzero : ∀ entry ∈ entries, entry.2 ≠ 0) (nothingRecorded : state.encounteredKeys = [])
    (ordered : state.nextKeys.Pairwise (· > ·))
    (notPassed : NotPassed entries state.cursor state.nextKeys)
    (enough : iterations state < fuel + 1) :
    operator.updateLoop (fuel + 1) state =
      some ((pendingKeys state).flatMap (newRows operator entries)) := by
  have pending : pendingKeys state = state.nextKeys := by
    rw [pendingKeys, nothingRecorded, map_nil, nil_append]
  cases next : state.nextKeys with
  | nil => simp [updateLoop, nothingRecorded, next, pending]
  | cons key =>
    obtain ⟨reached, fewer, skipped, split, absent⟩ :=
      reached_seekNextKey along descending nonzero nothingRecorded ordered notPassed next
    have nothing : skipped.flatMap (newRows operator entries) = [] :=
      flatMap_eq_nil_iff.mpr fun other member => newRows_of_absent (absent other member)
    have step : operator.updateLoop (fuel + 1) state =
        operator.updateLoop fuel (operator.seekNextKey key state) := by
      simp [updateLoop, nothingRecorded, next]
    rw [step, correct _ reached (by omega), pending, split, flatMap_append, nothing, nil_append]

theorem LoopCorrect.following
    {position : Nat} {first : ℤ} (onCourse : OnCourse entries state position first)
    (behind : (position : ℤ) = first + operator.lag) {recorded : EncounteredKey V}
    {encounteredKeys : List (EncounteredKey V)}
    (encountered : state.encounteredKeys = recorded :: encounteredKeys)
    (enough : iterations state < fuel + 1) :
    operator.updateLoop (fuel + 1) state =
      some ((pendingKeys state).flatMap (newRows operator entries)) := by
  have pending : pendingKeys state =
      recorded.key :: pendingKeys { state with encounteredKeys } := by
    simp [pendingKeys, encountered]
  have fewer : iterations { state with encounteredKeys } + 1 = iterations state := by
    simp only [iterations, pending, length_cons]
    omega
  obtain ⟨last, chain, offset⟩ := onCourse.chain
  rw [encountered] at chain
  rw [pending, flatMap_cons]
  obtain ⟨key, weight, _ | steps⟩ := recorded
  · have step : operator.updateLoop (fuel + 1) state =
        operator.updateLoop fuel { state with encounteredKeys } := by
      simp [updateLoop, encountered]
    have popped : OnCourse entries { state with encounteredKeys } position first :=
      { onCourse with chain := ⟨last, chain.2, offset⟩ }
    rw [step, correct _ (.following popped behind) (by omega), newRows_of_absent chain.1,
      nil_append]
  · obtain ⟨positive, start, starts, moved, rest⟩ := chain
    have popped : OnCourse entries { state with encounteredKeys } position (start + weight) :=
      { onCourse with chain := ⟨last, rest, offset⟩ }
    obtain ⟨stepped, keepsStepping⟩ := popped.stepKeyReverseN along descending steps
    obtain ⟨rows, next, keepsInserting⟩ :=
      stepped.insertRows along descending key weight.toNat
    have keeps := keepsStepping.trans keepsInserting
    have step : operator.updateLoop (fuel + 1) state = (operator.updateLoop fuel
        (operator.insertRows key weight.toNat
          (operator.stepKeyReverseN steps { state with encounteredKeys })).2).map
        ((operator.insertRows key weight.toNat
          (operator.stepKeyReverseN steps { state with encounteredKeys })).1 ++ ·) := by
      simp [updateLoop, encountered]
    have atStart : position + steps = start + operator.lag := by omega
    have notMore := keeps.iterations_le
    rw [step, correct _ (.following next (by push_cast; omega)) (by omega), keeps.pendingKeys_eq,
      rows, newRows_of_startsAt descending starts, Option.map_some]
    simp only [atStart, Nat.add_right_comm]

omit along descending in
theorem LoopCorrect.stuck (negative : entry.2 < 0) (remaining : state.remainingWeight = entry.2)
    (recorded : state.encounteredKeys =
        [{ key := entry.1, weight := entry.2, offset := some operator.lag }])
    (absent : Absent entries entry.1) (ordered : state.nextKeys.Pairwise (· > ·))
    (notPassed : NotPassed entries state.cursor state.nextKeys)
    (enough : iterations state < fuel + 1) :
    operator.updateLoop (fuel + 1) state =
      some ((pendingKeys state).flatMap (newRows operator entries)) := by
  obtain ⟨offset, stays⟩ := stepKeyReverseN_of_negative operator
    { state with encounteredKeys := [] } (by simp only; omega) operator.lag
  have none : entry.2.toNat = 0 := by omega
  have step : operator.updateLoop (fuel + 1) state = operator.updateLoop fuel
      { state with encounteredKeys := [], offsetFromPrev := offset } := by
    simp [updateLoop, recorded, none, insertRows, stays]
  have reached : Reached operator entries
      { state with encounteredKeys := [], offsetFromPrev := offset } :=
    .seeking rfl ordered notPassed
  rw [step, correct _ reached ?_]
  · simp [pendingKeys, recorded, newRows_of_absent absent]
  · simp only [iterations, pendingKeys, recorded, map_cons, map_nil, length_append,
      length_cons, length_nil] at enough ⊢
    omega

end

variable (nonzero : ∀ entry ∈ entries, entry.2 ≠ 0)

include nonzero

/-- The loop computes the new output of the keys that are still to be processed. -/
theorem loopCorrect (fuel : Nat) : LoopCorrect operator entries fuel := by
  induction fuel with
  | zero => exact fun _ _ enough => absurd enough (Nat.not_lt_zero _)
  | succ _ ih =>
    intro state reached enough
    cases reached with
    | seeking nothingRecorded ordered notPassed =>
      exact ih.seeking along descending nonzero nothingRecorded ordered notPassed enough
    | following onCourse behind =>
      cases recorded : state.encounteredKeys with
      | nil =>
        exact ih.seeking along descending nonzero recorded onCourse.ordered
          (onCourse.notPassed descending) enough
      | cons =>
        exact ih.following along descending onCourse behind recorded enough
    | stuck _ negative remaining recorded absent ordered notPassed =>
      exact ih.stuck negative remaining recorded absent ordered notPassed enough

/-- The backward pass computes the new output of all affected keys. -/
theorem computeUpdates_eq {affectedKeys : List V} (ordered : affectedKeys.Pairwise (· < ·)) :
    operator.computeUpdates affectedKeys entries =
      some (affectedKeys.reverse.flatMap (newRows operator entries)) := by
  refine loopCorrect along descending nonzero _ _ (.seeking rfl ?_ ?_) ?_
  · exact pairwise_reverse.mpr ordered
  · refine ⟨entries.takeWhile fun entry => entry.2 ≤ 0, ?_, fun entry skipped positive => ?_⟩
    · exact takeWhile_append_dropWhile.symm
    · have notPositive : entry.2 ≤ 0 := by simpa using mem_takeWhile_imp skipped
      omega
  · simp only [iterations, pendingKeys, map_nil, nil_append, length_reverse]
    omega

end

end OpenDera.Group.Lag
