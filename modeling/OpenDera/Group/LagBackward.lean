import Mathlib.Data.List.TakeWhile
import OpenDera.Group.Lag
import OpenDera.Std.Occurrences

/-!
# The backward pass of lag

The backward pass computes the new output of the affected keys. Its cursor walks the
occurrences of the new values from the end. With `position` counted in occurrences, the
cursor stands `lag` positions behind the end of the key that was processed last, and
the offsets of the recorded keys lead from the end of one recorded key to the start of
the next. So the cursor is on the delayed occurrence whenever output is computed.
-/

namespace OpenDera.Group.Lag

open List

variable {V Out : Type*} [LinearOrder V] (entries : List (V × ℤ))

/-- Entries in the order of the backward pass. -/
def Descending : Prop :=
  entries.Pairwise fun first second => second.1 < first.1

/-- The output for a key: its occurrences with the occurrences `lag` positions before. -/
def newRows (operator : Lag V Out) (entries : List (V × ℤ)) (key : V) : List ((V × Out) × ℤ) :=
  ((withLater operator.lag (occurrences entries)).filter fun pair => pair.1 = key).map fun pair =>
    ((pair.1, operator.project pair.2), 1)

/-- A key that has no occurrence. -/
def Absent (key : V) : Prop :=
  ∀ entry ∈ entries, entry.1 = key → entry.2 ≤ 0

/-- The occurrences of a key start at a position. -/
def StartsAt (key : V) (weight : ℤ) (position : Nat) : Prop :=
  ∃ before after, entries = before ++ (key, weight) :: after ∧
    (occurrences before).length = position

variable {entries} {operator : Lag V Out} {key : V}

theorem newRows_of_absent (absent : Absent entries key) : newRows operator entries key = [] := by
  have notMember : key ∉ occurrences entries := by
    rw [mem_occurrences]
    rintro ⟨entry, member, same, positive⟩
    exact absurd (absent entry member same) (not_le.mpr positive)
  rw [newRows, filter_withLater_of_not_mem notMember, map_nil]

variable {position : Nat}

theorem newRows_of_startsAt (descending : Descending entries) {weight : ℤ}
    (starts : StartsAt entries key weight position) :
    newRows operator entries key = (range weight.toNat).map fun index =>
      ((key, operator.project (occurrences entries)[position + index + operator.lag]?), 1) := by
  obtain ⟨before, after, rfl, rfl⟩ := starts
  obtain ⟨-, rest, cross⟩ := pairwise_append.mp descending
  have notBefore : key ∉ occurrences before := by
    rw [mem_occurrences]
    rintro ⟨entry, member, same, -⟩
    exact (cross entry member _ mem_cons_self).ne same.symm
  have notAfter : key ∉ occurrences after := by
    rw [mem_occurrences]
    rintro ⟨entry, member, same, -⟩
    exact ((pairwise_cons.mp rest).1 entry member).ne same
  rw [newRows, occurrences_append, occurrences_cons, filter_withLater_run notBefore notAfter,
    map_map]
  rfl

variable (state : LagState V)

/-- The occurrences from the cursor on. -/
def ahead : List V :=
  match state.cursor with
  | [] => []
  | entry :: cursor => replicate state.remainingWeight.toNat entry.1 ++ occurrences cursor

/-- The keys that are still to be processed. -/
def pendingKeys : List V :=
  state.encounteredKeys.map EncounteredKey.key ++ state.nextKeys

/-- The recorded keys lead from the end of one occurring key to that of the next: `first`
is the end of the key before them, `last` the end of the last of them. -/
def Chain (entries : List (V × ℤ)) (first : ℤ) : List (EncounteredKey V) → ℤ → Prop
  | [], last => first = last
  | { key, offset := none, .. } :: encountered, last =>
    Absent entries key ∧ Chain entries first encountered last
  | { key, weight, offset := some offset } :: encountered, last =>
    0 < weight ∧ ∃ position, StartsAt entries key weight position ∧ first + offset = position ∧
      Chain entries (position + weight) encountered last

omit [LinearOrder V] in
theorem Chain.append {first middle last : ℤ}
    {encountered more : List (EncounteredKey V)} (chain : Chain entries first encountered middle)
    (extended : Chain entries middle more last) :
    Chain entries first (encountered ++ more) last := by
  induction encountered generalizing first with
  | nil => exact chain ▸ extended
  | cons recorded _ ih =>
    obtain ⟨key, weight, _ | offset⟩ := recorded
    · exact ⟨chain.1, ih chain.2⟩
    · obtain ⟨positive, position, starts, moved, rest⟩ := chain
      exact ⟨positive, position, starts, moved, ih rest⟩

omit [LinearOrder V] in
theorem chain_skipped (first : ℤ) {keys : List V} (absent : ∀ key ∈ keys, Absent entries key) :
    Chain entries first (keys.map fun key => { key, offset := none }) first := by
  induction keys with
  | nil => rfl
  | cons _ _ ih =>
    rw [forall_mem_cons] at absent
    exact ⟨absent.1, ih absent.2⟩

/-- The cursor has not passed any occurrence of some keys. -/
def NotPassed (entries cursor : List (V × ℤ)) (keys : List V) : Prop :=
  ∃ passed, entries = passed ++ cursor ∧ ∀ entry ∈ passed, 0 < entry.2 → ∀ key ∈ keys, key < entry.1

theorem NotPassed.mono {cursor : List (V × ℤ)} {keys fewer : List V}
    (notPassed : NotPassed entries cursor keys) (subset : fewer ⊆ keys) :
    NotPassed entries cursor fewer := by
  obtain ⟨passed, split, above⟩ := notPassed
  exact ⟨passed, split, fun entry before positive key member =>
    above entry before positive key (subset member)⟩

section

variable (along : operator.keyCmp = compare) {cursor : List (V × ℤ)} {keys : List V}

include along

/-- Keys that the cursor is past without having passed an occurrence of them do not occur. -/
theorem absent_of_isPast (descending : Descending entries) (notPassed : NotPassed entries cursor keys)
    (member : key ∈ keys) (past : operator.isPast cursor key = true) :
    Absent entries key := by
  obtain ⟨passed, rfl, above⟩ := notPassed
  intro entry entryMember same
  rcases mem_append.mp entryMember with before | after
  · by_contra positive
    exact (above entry before (not_le.mp positive) key member).ne same.symm
  · cases cursor with
    | nil => exact absurd after not_mem_nil
    | cons head =>
      have headBelow : head.1 < key := by
        simpa [isPast, along, compare_lt_iff_lt] using past
      have notAbove : entry.1 ≤ head.1 := by
        rcases mem_cons.mp after with rfl | after
        · exact le_rfl
        · exact ((pairwise_cons.mp (pairwise_append.mp descending).2.1).1 entry after).le
      exact absurd same (notAbove.trans_lt headBelow).ne

attribute [local simp] isPast compare_lt_iff_lt in
/-- The cursor is on or before the keys that it is not past. -/
theorem le_head_of_mem_dropWhile (ordered : keys.Pairwise (· > ·))
    (member : key ∈ keys.dropWhile (operator.isPast cursor)) :
    ∃ entry ∈ cursor.head?, key ≤ entry.1 := by
  rw [OrderedList.dropWhile_eq_filter ordered] at member
  · have notPast := (mem_filter.mp member).2
    cases cursor with
    | nil => simp at notPast
    | cons head =>
      exact ⟨head, rfl, by simpa [along] using notPast⟩
  · intro first _ second below past
    cases cursor with
    | nil => rfl
    | cons head =>
      have secondPast : head.1 < second := by
        simpa [along] using past
      simpa [along] using secondPast.trans below

end

variable (entries)

/-- The cursor has just moved to an entry, or to the end, at a position; `first` is the end
of the key that was processed last. -/
structure Arrived (state : LagState V) (position : Nat) (first : ℤ) : Prop where
  notPassed : NotPassed entries state.cursor state.nextKeys
  ordered : state.nextKeys.Pairwise (· > ·)
  ahead_eq : ahead state = (occurrences entries).drop position
  onStart : ∀ entry ∈ state.cursor.head?, state.remainingWeight = entry.2 ∧ 0 < entry.2
  chain : ∃ last, Chain entries first state.encounteredKeys last ∧
    (state.cursor ≠ [] → state.offsetFromPrev = position - last ∧ last ≤ position)

/-- The cursor is at a position, and all keys up to it are recorded; `first` is the end of
the key that was processed last. -/
structure OnCourse (state : LagState V) (position : Nat) (first : ℤ) : Prop where
  suffix : state.cursor <:+ entries
  ordered : state.nextKeys.Pairwise (· > ·)
  ahead_eq : ahead state = (occurrences entries).drop position
  positive : state.cursor ≠ [] → 0 < state.remainingWeight
  nextBelow : ∀ key ∈ state.nextKeys, ∃ entry ∈ state.cursor.head?, key < entry.1
  chain : ∃ last, Chain entries first state.encounteredKeys last ∧
    (state.cursor ≠ [] → state.offsetFromPrev = position - last ∧
      last ≤ position + state.remainingWeight)

variable {entries} {state : LagState V} {first : ℤ} {entry : V × ℤ} {cursor : List (V × ℤ)}

section

variable (arrived : Arrived entries state position first)

include arrived

/-- An entry that the cursor has arrived at starts at the position. -/
theorem Arrived.startsAt
    (onEntry : state.cursor = entry :: cursor) : StartsAt entries entry.1 entry.2 position := by
  obtain ⟨passed, split, -⟩ := arrived.notPassed
  obtain ⟨weight, positive⟩ := arrived.onStart entry (by rw [onEntry]; rfl)
  refine ⟨passed, cursor, by rw [split, onEntry], ?_⟩
  have remaining := congrArg length arrived.ahead_eq
  simp only [ahead, onEntry, split, weight, length_append, length_replicate,
    length_drop, occurrences_append, occurrences_cons] at remaining
  omega

/-- Keys that the cursor came past are recorded as not occurring. -/
theorem Arrived.recordSkipped (along : operator.keyCmp = compare) (descending : Descending entries) :
    Arrived entries (operator.recordSkipped state) position first := by
  obtain ⟨last, chain, offset⟩ := arrived.chain
  have absent : ∀ key ∈ state.nextKeys.takeWhile (operator.isPast state.cursor),
      Absent entries key := fun key member =>
    absent_of_isPast along descending arrived.notPassed (takeWhile_sublist _ |>.subset member)
      (mem_takeWhile_imp member)
  have sublist := state.nextKeys.dropWhile_sublist (operator.isPast state.cursor)
  exact {
    notPassed := arrived.notPassed.mono sublist.subset
    ordered := arrived.ordered.sublist sublist
    ahead_eq := arrived.ahead_eq
    onStart := arrived.onStart
    chain := ⟨last, chain.append (chain_skipped last absent), offset⟩ }

/-- If all keys up to the cursor are recorded, the pass is on course. -/
theorem Arrived.onCourse
    (below : ∀ key ∈ state.nextKeys, ∃ entry ∈ state.cursor.head?, key < entry.1) :
    OnCourse entries state position first := by
  obtain ⟨passed, split, -⟩ := arrived.notPassed
  obtain ⟨last, chain, offset⟩ := arrived.chain
  have positive : state.cursor ≠ [] → 0 < state.remainingWeight := by
    intro valid
    obtain ⟨entry, cursor, onEntry⟩ := exists_cons_of_ne_nil valid
    have weight := arrived.onStart entry (by rw [onEntry]; rfl)
    omega
  refine ⟨⟨passed, split.symm⟩, arrived.ordered, arrived.ahead_eq, positive, below, last, chain,
    fun valid => ?_⟩
  have moved := offset valid
  have weight := positive valid
  omega

/-- The key that the cursor is on is recorded, and then all keys up to it are. -/
theorem Arrived.recordEncountered
    (notPast : ∀ key ∈ state.nextKeys, ∃ entry ∈ state.cursor.head?, key ≤ entry.1) :
    OnCourse entries (recordEncountered state) position first := by
  unfold Lag.recordEncountered
  split
  case h_1 entry _ key _ onEntry next =>
    obtain ⟨keysBelow, ordered⟩ := pairwise_cons.mp (next ▸ arrived.ordered)
    have weight := arrived.onStart entry (by rw [onEntry]; rfl)
    split_ifs with same
    · obtain ⟨passed, split, -⟩ := arrived.notPassed
      obtain ⟨last, chain, offset⟩ := arrived.chain
      obtain ⟨moved, notBefore⟩ := offset (by simp [onEntry])
      refine ⟨⟨passed, split.symm⟩, ordered, arrived.ahead_eq, fun _ => by simp [weight],
        fun other member => ⟨entry, by simp [onEntry], same ▸ keysBelow other member⟩,
        position + entry.2, chain.append ?_, fun _ => ?_⟩
      · refine ⟨by simp [weight], position, ?_, by omega, by simp [Chain, weight]⟩
        rw [weight.1, ← same]
        exact arrived.startsAt onEntry
      · simp only [weight.1]
        omega
    · refine arrived.onCourse fun other member => ⟨entry, by simp [onEntry], ?_⟩
      have headBelow : key < entry.1 := by
        obtain ⟨_, isHead, notAbove⟩ := notPast key (by simp [next])
        rw [onEntry, head?_cons, Option.mem_some_iff] at isHead
        exact lt_of_le_of_ne (isHead ▸ notAbove) fun equal => same equal.symm
      rcases mem_cons.mp (next ▸ member) with rfl | later
      · exact headBelow
      · exact (keysBelow other later).trans headBelow
  case h_2 other =>
    refine arrived.onCourse fun key member => ?_
    obtain ⟨entry, isHead, -⟩ := notPast key member
    obtain ⟨cursor, onEntry⟩ := head?_eq_some_iff.mp isHead
    obtain ⟨next, nextKeys, keys⟩ := exists_cons_of_ne_nil (ne_nil_of_mem member)
    exact absurd keys (other _ _ _ _ onEntry)

end

omit [LinearOrder V] in
theorem pos_of_mem_head?_skip
    (isHead : entry ∈ (skipNonPositiveReverse cursor).head?) : 0 < entry.2 := by
  have stopped := head?_dropWhile_not (fun entry : V × ℤ => entry.2 ≤ 0) cursor
  rw [skipNonPositiveReverse] at isHead
  rw [isHead] at stopped
  simpa using stopped

omit [LinearOrder V] in
/-- From the next entry on, everything behind the current one is ahead. -/
theorem ahead_stepKeyReverse (state : LagState V) :
    ahead (stepKeyReverse state) = occurrences state.cursor.tail := by
  rw [← occurrences_dropWhile state.cursor.tail, ahead, stepKeyReverse]
  cases onEntry : skipNonPositiveReverse state.cursor.tail with
  | nil | cons => rw [← skipNonPositiveReverse, onEntry]; rfl

omit [LinearOrder V] in
/-- A step passes one occurrence. -/
theorem ahead_tail (onEntry : state.cursor = entry :: cursor)
    (positive : 0 < state.remainingWeight) :
    (ahead state).tail =
      replicate (state.remainingWeight - 1).toNat entry.1 ++ occurrences cursor := by
  have count : state.remainingWeight.toNat = (state.remainingWeight - 1).toNat + 1 := by omega
  rw [ahead, onEntry]
  simp only
  rw [count, replicate_succ, cons_append, tail_cons]

variable (onCourse : OnCourse entries state position first)

include onCourse

/-- Within the occurrences of an entry only the position changes. -/
theorem OnCourse.stepWithin (more : 1 < state.remainingWeight) : OnCourse entries { state with
      offsetFromPrev := state.offsetFromPrev + 1
      remainingWeight := state.remainingWeight - 1 } (position + 1) first := by
  obtain ⟨last, chain, offset⟩ := onCourse.chain
  refine ⟨onCourse.suffix, onCourse.ordered, ?_, fun _ => by simp only; omega, onCourse.nextBelow,
    last, chain, fun valid => ?_⟩
  · rw [← tail_drop, ← onCourse.ahead_eq]
    cases onEntry : state.cursor with
    | nil => simp [ahead, onEntry]
    | cons =>
      rw [ahead_tail onEntry (by omega)]
      simp only [ahead]
  · have moved := offset valid
    simp only
    omega

/-- After the last occurrence of an entry, the cursor arrives at the next one. -/
theorem OnCourse.stepToNext (descending : Descending entries) (valid : state.cursor ≠ [])
    (single : state.remainingWeight = 1) :
    Arrived entries (stepKeyReverse { state with
      offsetFromPrev := state.offsetFromPrev + 1, remainingWeight := 0 }) (position + 1) first := by
  obtain ⟨entry, cursor, onEntry⟩ := exists_cons_of_ne_nil valid
  obtain ⟨passed, split⟩ := onCourse.suffix
  obtain ⟨last, chain, offset⟩ := onCourse.chain
  have moved := offset valid
  constructor
  case notPassed =>
    refine ⟨passed ++ entry :: cursor.takeWhile fun other => other.2 ≤ 0, ?_, ?_⟩
    · simp [stepKeyReverse, onEntry, ← split, skipNonPositiveReverse]
    · intro other before positive key member
      obtain ⟨_, isHead, below⟩ := onCourse.nextBelow key member
      rw [onEntry, head?_cons, Option.mem_some_iff] at isHead
      subst isHead
      rw [← split, onEntry] at descending
      rcases mem_append.mp before with earlier | here
      · exact below.trans ((pairwise_append.mp descending).2.2 other earlier entry mem_cons_self)
      · rcases mem_cons.mp here with rfl | skipped
        · exact below
        · have notPositive : other.2 ≤ 0 := by simpa using mem_takeWhile_imp skipped
          omega
  case ordered => exact onCourse.ordered
  case ahead_eq =>
    rw [ahead_stepKeyReverse, ← tail_drop, ← onCourse.ahead_eq,
      ahead_tail onEntry (by omega), single, onEntry]
    simp
  case onStart =>
    intro other isHead
    refine ⟨?_, pos_of_mem_head?_skip isHead⟩
    simp only [stepKeyReverse] at isHead ⊢
    rw [isHead]
    rfl
  case chain =>
    refine ⟨last, chain, fun _ => ?_⟩
    simp only [stepKeyReverse]
    omega

/-- One step backward keeps the pass on course. -/
theorem OnCourse.stepReverse (along : operator.keyCmp = compare) (descending : Descending entries)
    (valid : state.cursor ≠ []) :
    OnCourse entries (operator.stepReverse state) (position + 1) first := by
  have positive := onCourse.positive valid
  by_cases last : state.remainingWeight = 1
  · have arrived := (onCourse.stepToNext descending valid last).recordSkipped along descending
    have step : operator.stepReverse state = Lag.recordEncountered (operator.recordSkipped
        (stepKeyReverse { state with
          offsetFromPrev := state.offsetFromPrev + 1, remainingWeight := 0 })) := by
      simp [Lag.stepReverse, last]
    rw [step]
    refine arrived.recordEncountered fun key member => ?_
    exact le_head_of_mem_dropWhile along onCourse.ordered member
  · have step : operator.stepReverse state = { state with
        offsetFromPrev := state.offsetFromPrev + 1
        remainingWeight := state.remainingWeight - 1 } := by
      have more : state.remainingWeight - 1 ≠ 0 := by omega
      simp [Lag.stepReverse, positive, more]
    rw [step]
    exact onCourse.stepWithin (by omega)

end OpenDera.Group.Lag
