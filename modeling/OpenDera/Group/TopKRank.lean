import Mathlib.Algebra.Order.BigOperators.Group.List
import OpenDera.Std.ZSet

/-!
# Top-k by rank

`TopKRank` walks the values of a group in ascending order, counts rows and emits every value
with its rank until the rank exceeds `k`. Values that `rankEqFunc` identifies form a class
and share a rank. The specified rank is one plus the rows (sparse) or the classes (dense)
that strictly precede the class of the value. The walk meets it in dense mode; in sparse
mode it reads the row count after adding the first value of a class, so it meets it exactly
where those first values stand for one row.
-/

namespace OpenDera.Group

open List

universe u

/-- The parameters of the transformer. -/
structure TopKRank (V Out : Type u) where
  k : Nat
  dense : Bool
  rankEqFunc : V → V → Bool
  outputFunc : ℤ → V → Out

namespace TopKRank

variable {V Out : Type u} (operator : TopKRank V Out) (prevKey : Option V) (key : V)

/-- The key begins a class that differs from that of the previous key. -/
def changesClass : Bool :=
  match prevKey with
  | some prevKey => !operator.rankEqFunc key prevKey
  | none => false

variable (count rank : ℤ)

/-- The rank stays within a class and then increases by one, or skips to `count`. -/
def nextRank : ℤ :=
  if operator.changesClass prevKey key then (if operator.dense then rank + 1 else count) else rank

/-- The cut-off, tested only where the class changes. -/
def exceedsK : Bool :=
  operator.changesClass prevKey key && (operator.k : ℤ) < operator.nextRank prevKey key count rank

/-- The loop of `TopKRank::transform` from a cursor position on, with the output
callback's calls as a list. -/
def transformFrom (operator : TopKRank V Out) : List (V × ℤ) → ℤ → ℤ → Option V → List (Out × ℤ)
  | [], _, _, _ => []
  | (key, weight) :: cursor, count, rank, prevKey =>
    if 0 < weight then
      if operator.exceedsK prevKey key (count + weight) rank then
        []
      else
        (operator.outputFunc (operator.nextRank prevKey key (count + weight) rank) key, weight) ::
          transformFrom operator cursor (count + weight)
            (operator.nextRank prevKey key (count + weight) rank) (some key)
    else
      transformFrom operator cursor count rank prevKey

/-- `TopKRank::transform` on a cursor over the whole group. -/
def transform (cursor : List (V × ℤ)) : List (Out × ℤ) :=
  operator.transformFrom cursor 0 1 none

end TopKRank

variable {V : Type u} [LinearOrder V] (rankEq : V → V → Bool) (entries : List (V × ℤ))

/-- The entries of a group that belong to classes strictly before that of `value`. -/
def earlierClasses (value : V) : List (V × ℤ) :=
  entries.filter fun entry => entry.1 < value && !rankEq entry.1 value

/-- `value` is the least of its class in the group. -/
def startsClass (value : V) : Bool :=
  entries.all fun entry => entry.1 < value → !rankEq entry.1 value

/-- The number of classes among some entries of a group, each counted at its least value. -/
def classCount (entries selected : List (V × ℤ)) : ℤ :=
  (selected.filter fun entry => startsClass rankEq entries entry.1).length

/-- SQL `RANK` or `DENSE_RANK` of a value: one plus the rows, or the classes, in
strictly earlier classes. -/
def sqlRank (dense : Bool) (entries : List (V × ℤ)) (value : V) : ℤ :=
  1 + if dense then classCount rankEq entries (earlierClasses rankEq entries value)
    else ((earlierClasses rankEq entries value).map Prod.snd).sum

/-- An equivalence whose classes are contiguous in value order. -/
structure ContiguousClasses : Prop where
  refl : ∀ value, rankEq value value
  symm : ∀ {first second}, rankEq first second → rankEq second first
  trans : ∀ {first second third}, rankEq first second → rankEq second third → rankEq first third
  contiguous : ∀ {first second third}, first < second → second < third → rankEq first third →
    rankEq first second

/-- Every value of rank at most `k`, with its rank and weight, in value order. -/
def rankedUpTo {Out : Type u} (operator : TopKRank V Out)
    (entries selected : List (V × ℤ)) : List (Out × ℤ) :=
  (selected.filter fun entry =>
    sqlRank operator.rankEqFunc operator.dense entries entry.1 ≤ operator.k).map fun entry =>
      (operator.outputFunc (sqlRank operator.rankEqFunc operator.dense entries entry.1) entry.1,
        entry.2)

/-- Every class but the first that has to be emitted begins with a value of weight one. -/
def StartsWithOneRow (k : Nat) (entries : List (V × ℤ)) : Prop :=
  ∀ entry ∈ entries, startsClass rankEq entries entry.1 →
    earlierClasses rankEq entries entry.1 ≠ [] →
    sqlRank rankEq false entries entry.1 ≤ k → entry.2 = 1

/-! ## Agreement with the rank

While the classes passed so far received their specified ranks, the loop knows the rank
of the class of its previous key. Only entering a new class can make the two diverge. -/

variable {V : Type u} [LinearOrder V] {rankEq : V → V → Bool}

section

variable (classes : ContiguousClasses rankEq)

include classes

/-- Entering a new class right after `previous`, no smaller value is in the class. -/
theorem ContiguousClasses.not_rankEq_of_lt {previous value other : V}
    (newClass : rankEq value previous = false) (after : previous < value)
    (notAbove : other ≤ previous) : rankEq other value = false := by
  rw [Bool.eq_false_iff] at newClass ⊢
  intro same
  rcases notAbove.lt_or_eq with below | rfl
  · have samePrevious := classes.contiguous below after same
    exact newClass (classes.trans (classes.symm same) samePrevious)
  · exact newClass (classes.symm same)

variable {first second : V} (order : first < second)

include order

/-- Ranks do not decrease along the value order. -/
theorem earlierClasses_sublist (entries : List (V × ℤ)) :
    (earlierClasses rankEq entries first).Sublist (earlierClasses rankEq entries second) := by
  refine monotone_filter_right entries fun entry => ?_
  simp only [Bool.and_eq_true, decide_eq_true_eq, Bool.not_eq_true']
  rintro ⟨below, different⟩
  refine ⟨below.trans order, ?_⟩
  rw [Bool.eq_false_iff] at different ⊢
  exact fun same => different (classes.contiguous below order same)

theorem sqlRank_mono (dense : Bool) {entries : List (V × ℤ)} (positive : ∀ entry ∈ entries, 0 < entry.2) :
    sqlRank rankEq dense entries first ≤ sqlRank rankEq dense entries second := by
  have sublist := earlierClasses_sublist classes order entries
  unfold sqlRank
  cases dense with
  | true =>
    have lengths := (sublist.filter fun entry => startsClass rankEq entries entry.1).length_le
    simp only [classCount, if_true]
    omega
  | false =>
    have sums : ((earlierClasses rankEq entries first).map Prod.snd).sum ≤
        ((earlierClasses rankEq entries second).map Prod.snd).sum := by
      refine (sublist.map Prod.snd).sum_le_sum fun weight member => ?_
      obtain ⟨entry, entryMember, rfl⟩ := mem_map.mp member
      exact (positive entry (mem_filter.mp entryMember).1).le
    simp only [Bool.false_eq_true, if_false]
    omega

end

section

variable {entries passed rest : List (V × ℤ)} {value : V} {weight : ℤ}
  (sorted : SortedMap.Sorted entries) (position : entries = passed ++ (value, weight) :: rest)

include sorted position

variable {entry : V × ℤ}

theorem lt_of_mem_passed (member : entry ∈ passed) : entry.1 < value := by
  subst position
  exact (pairwise_append.mp sorted).2.2 entry member (value, weight) mem_cons_self

theorem lt_of_mem_rest (member : entry ∈ rest) : value < entry.1 := by
  subst position
  exact rel_of_pairwise_cons (pairwise_append.mp sorted).2.1 member

theorem mem_passed_of_lt (member : entry ∈ entries) (below : entry.1 < value) : entry ∈ passed := by
  have notRest : entry ∉ rest := fun inRest =>
    absurd below (not_lt.mpr (lt_of_mem_rest sorted position inRest).le)
  rw [position, mem_append, mem_cons] at member
  rcases member with member | rfl | member
  · exact member
  · exact absurd below (lt_irrefl _)
  · exact absurd member notRest

section

variable (different : ∀ entry ∈ passed, rankEq entry.1 value = false)

include different

/-- At the start of a class everything passed belongs to earlier classes. -/
theorem earlierClasses_of_newClass : earlierClasses rankEq entries value = passed := by
  have keepPassed : passed.filter (fun entry => entry.1 < value && !rankEq entry.1 value) =
      passed := by
    rw [filter_eq_self]
    intro entry member
    simp [lt_of_mem_passed sorted position member, different entry member]
  have dropRest : ((value, weight) :: rest).filter
      (fun entry => entry.1 < value && !rankEq entry.1 value) = [] := by
    rw [filter_eq_nil_iff]
    intro entry member
    have notBelow : ¬entry.1 < value := by
      rcases mem_cons.mp member with rfl | member
      · exact lt_irrefl _
      · exact not_lt.mpr (lt_of_mem_rest sorted position member).le
    simp [notBelow]
  rw [earlierClasses, position, filter_append, keepPassed, dropRest, append_nil]

theorem startsClass_of_newClass : startsClass rankEq entries value = true := by
  rw [startsClass, all_eq_true]
  intro entry member
  simp only [decide_eq_true_eq]
  intro below
  simp [different entry (mem_passed_of_lt sorted position member below)]

end

variable {earlier : List (V × ℤ)} {previous : V × ℤ}

theorem le_last (isLast : passed = earlier ++ [previous]) (member : entry ∈ passed) :
    entry.1 ≤ previous.1 := by
  subst isLast position
  rcases mem_append.mp member with member | member
  · have sortedPassed := (pairwise_append.mp sorted).1
    exact ((pairwise_append.mp sortedPassed).2.2 entry member previous (by simp)).le
  · rw [mem_singleton.mp member]

variable (classes : ContiguousClasses rankEq) (isLast : passed = earlier ++ [previous])
  (same : rankEq value previous.1 = true)

include classes isLast same

/-- Staying in the class of the value passed last keeps the rank. -/
theorem earlierClasses_of_sameClass :
    earlierClasses rankEq entries value = earlierClasses rankEq entries previous.1 := by
  have after : previous.1 < value := lt_of_mem_passed sorted position (by simp [isLast])
  refine filter_congr fun entry member => ?_
  rw [Bool.eq_iff_iff]
  simp only [Bool.and_eq_true, decide_eq_true_eq, Bool.not_eq_true', Bool.eq_false_iff]
  constructor
  · rintro ⟨below, different⟩
    have notAbove := le_last sorted position isLast (mem_passed_of_lt sorted position member below)
    refine ⟨lt_of_le_of_ne notAbove fun equal => different ?_, fun samePrevious => different ?_⟩
    · exact equal ▸ classes.symm same
    · exact classes.trans samePrevious (classes.symm same)
  · rintro ⟨below, different⟩
    exact ⟨below.trans after, fun sameValue => different (classes.trans sameValue same)⟩

/-- A value in the class of the value passed last does not start a class. -/
theorem startsClass_of_sameClass : startsClass rankEq entries value = false := by
  have after : previous.1 < value := lt_of_mem_passed sorted position (by simp [isLast])
  rw [startsClass, all_eq_false]
  refine ⟨previous, by simp [position, isLast], ?_⟩
  simp [after, classes.symm same]

end

open TopKRank

section

variable (k : Nat) (dense : Bool)

/-- The transformer that pairs each value with its rank. -/
def pairing (k : Nat) (dense : Bool) (rankEq : V → V → Bool) : TopKRank V (ℤ × V) :=
  { k, dense, rankEqFunc := rankEq, outputFunc := Prod.mk }

/-- Among the entries still ahead, every class to be emitted begins with one row. -/
def AheadStartsWithOneRow (k : Nat) (rankEq : V → V → Bool) (entries rest : List (V × ℤ)) : Prop :=
  ∀ entry ∈ rest, startsClass rankEq entries entry.1 → earlierClasses rankEq entries entry.1 ≠ [] →
    sqlRank rankEq false entries entry.1 ≤ k → entry.2 = 1

variable {entries : List (V × ℤ)}

theorem aheadStartsWithOneRow_cons {rest : List (V × ℤ)} {entry : V × ℤ} :
    AheadStartsWithOneRow k rankEq entries (entry :: rest) ↔
      (startsClass rankEq entries entry.1 → earlierClasses rankEq entries entry.1 ≠ [] →
        sqlRank rankEq false entries entry.1 ≤ k → entry.2 = 1) ∧
      AheadStartsWithOneRow k rankEq entries rest :=
  forall_mem_cons

theorem rankedUpTo_cons (rest : List (V × ℤ)) (entry : V × ℤ) :
    rankedUpTo (pairing k dense rankEq) entries (entry :: rest) =
      if sqlRank rankEq dense entries entry.1 ≤ k then
        ((sqlRank rankEq dense entries entry.1, entry.1), entry.2) ::
          rankedUpTo (pairing k dense rankEq) entries rest
      else rankedUpTo (pairing k dense rankEq) entries rest := by
  unfold rankedUpTo pairing
  split_ifs <;> simp_all

omit [LinearOrder V] in
theorem transformFrom_newClass {value previous : V} {weight count rank : ℤ}
    {rest : List (V × ℤ)} (positive : 0 < weight) (newClass : rankEq value previous = false) :
    (pairing k dense rankEq).transformFrom ((value, weight) :: rest) count rank (some previous) =
      if (k : ℤ) < (if dense then rank + 1 else count + weight) then []
      else ((if dense then rank + 1 else count + weight, value), weight) ::
        (pairing k dense rankEq).transformFrom rest (count + weight)
          (if dense then rank + 1 else count + weight) (some value) := by
  simp only [transformFrom, exceedsK, changesClass, nextRank,
    pairing, positive, newClass, if_true, Bool.not_false, Bool.true_and, decide_eq_true_eq]
  rfl

variable (classes : ContiguousClasses rankEq) (sorted : SortedMap.Sorted entries)
  (positive : ∀ entry ∈ entries, 0 < entry.2)

include classes sorted positive

variable {passed rest : List (V × ℤ)}

/-- Once a rank exceeds `k` the specification lists nothing more. -/
theorem rankedUpTo_eq_nil {value : V} {weight : ℤ}
    (position : entries = passed ++ (value, weight) :: rest)
    (exceeds : (k : ℤ) < sqlRank rankEq dense entries value) :
    rankedUpTo (pairing k dense rankEq) entries ((value, weight) :: rest) = [] := by
  rw [rankedUpTo, map_eq_nil_iff, filter_eq_nil_iff]
  intro entry member
  rw [decide_eq_true_eq, not_le]
  rcases mem_cons.mp member with rfl | member
  · exact exceeds
  · exact lt_of_lt_of_le exceeds
      (sqlRank_mono classes (lt_of_mem_rest sorted position member) dense positive)

/-- The loop agrees with the specification on the entries ahead exactly when the
classes ahead allow it, provided it entered the current class with the right rank. -/
theorem transformFrom_eq_iff {previous : V × ℤ} {rank : ℤ}
    (position : entries = passed ++ rest) (isLast : ∃ earlier, passed = earlier ++ [previous])
    (rankEqual : rank = sqlRank rankEq dense entries previous.1) (small : rank ≤ k)
    (counted : dense = true → classCount rankEq entries passed = rank) :
    (pairing k dense rankEq).transformFrom rest (passed.map Prod.snd).sum rank (some previous.1) =
        rankedUpTo (pairing k dense rankEq) entries rest ↔
      dense = true ∨ AheadStartsWithOneRow k rankEq entries rest := by
  induction rest generalizing passed previous rank with
  | nil => simp [transformFrom, rankedUpTo, AheadStartsWithOneRow]
  | cons entry rest ih =>
    obtain ⟨value, weight⟩ := entry
    obtain ⟨earlier, isLast⟩ := isLast
    have weightPositive : 0 < weight := positive (value, weight) (by simp [position])
    have positionNext : entries = (passed ++ [(value, weight)]) ++ rest := by simp [position]
    have sumNext : ((passed ++ [(value, weight)]).map Prod.snd).sum =
        (passed.map Prod.snd).sum + weight := by simp
    rw [aheadStartsWithOneRow_cons]
    cases same : rankEq value previous.1 with
    | true =>
      -- The class continues, and so does its rank.
      have earlierSame := earlierClasses_of_sameClass sorted position classes isLast same
      have notStart := startsClass_of_sameClass sorted position classes isLast same
      have valueRank : sqlRank rankEq dense entries value = rank := by
        rw [rankEqual, sqlRank, sqlRank, earlierSame]
      have tail := ih positionNext ⟨passed, rfl⟩ valueRank.symm small
        fun isDense => by rw [← counted isDense, classCount, classCount, filter_append]
                          simp [notStart]
      rw [rankedUpTo_cons]
      simp only [transformFrom, exceedsK, changesClass,
        nextRank, pairing, weightPositive, same, valueRank, small, notStart, if_true] at tail ⊢
      simpa using tail
    | false =>
      have after : previous.1 < value := lt_of_mem_passed sorted position (by simp [isLast])
      have different : ∀ entry ∈ passed, rankEq entry.1 value = false := fun entry member =>
        classes.not_rankEq_of_lt same after (le_last sorted position isLast member)
      have earlierAll := earlierClasses_of_newClass sorted position different
      have isStart := startsClass_of_newClass sorted position different
      have nonempty : passed ≠ [] := by simp [isLast]
      have countedNext : classCount rankEq entries (passed ++ [(value, weight)]) =
          classCount rankEq entries passed + 1 := by
        simp [classCount, filter_append, isStart]
      -- The specified rank of the new class, and the one the loop assigns.
      have valueRank : sqlRank rankEq dense entries value =
          if dense then rank + 1 else (passed.map Prod.snd).sum + 1 := by
        rw [sqlRank, earlierAll]
        cases dense with
        | true => simp [counted rfl, add_comm]
        | false => simp [add_comm]
      have tail : ∀ next, next = sqlRank rankEq dense entries value → next ≤ k →
          (dense = true → classCount rankEq entries (passed ++ [(value, weight)]) = next) →
          ((pairing k dense rankEq).transformFrom rest ((passed.map Prod.snd).sum + weight) next
            (some value) = rankedUpTo (pairing k dense rankEq) entries rest ↔
            dense = true ∨ AheadStartsWithOneRow k rankEq entries rest) := by
        intro next equal small counted
        rw [← sumNext]
        exact ih positionNext ⟨passed, rfl⟩ equal small counted
      have nilOfExceeds : (k : ℤ) < sqlRank rankEq dense entries value →
          rankedUpTo (pairing k dense rankEq) entries ((value, weight) :: rest) = [] :=
        rankedUpTo_eq_nil k dense classes sorted positive position
      have consOfFits : sqlRank rankEq dense entries value ≤ k →
          rankedUpTo (pairing k dense rankEq) entries ((value, weight) :: rest) =
            ((sqlRank rankEq dense entries value, value), weight) ::
              rankedUpTo (pairing k dense rankEq) entries rest := fun fits =>
        (rankedUpTo_cons ..).trans (if_pos fits)
      rw [transformFrom_newClass k dense weightPositive same]
      cases dense with
      | true =>
        simp only [if_true] at valueRank ⊢
        split_ifs with exceeds
        · simp [nilOfExceeds (valueRank ▸ exceeds)]
        · have fits : sqlRank rankEq true entries value ≤ k := valueRank ▸ not_lt.mp exceeds
          have tail := tail (rank + 1) valueRank.symm (not_lt.mp exceeds)
            fun isDense => by rw [countedNext, counted isDense]
          rw [consOfFits fits, valueRank]
          simpa using tail
      | false =>
        simp only [Bool.false_eq_true, if_false, false_or] at valueRank tail ⊢
        split_ifs with exceeds
        · -- The loop stops; it must not stop early.
          by_cases fits : sqlRank rankEq false entries value ≤ k
          · rw [consOfFits fits]
            have tooMany : weight ≠ 1 := by omega
            simp [isStart, earlierAll, nonempty, fits, tooMany]
          · rw [nilOfExceeds (not_le.mp fits)]
            have vacuous : AheadStartsWithOneRow k rankEq entries rest := by
              intro entry member _ _ fitsEntry
              have order := sqlRank_mono classes
                (lt_of_mem_rest sorted position member) false positive
              exact absurd (order.trans fitsEntry) fits
            simpa [fits] using vacuous
        · have fits : sqlRank rankEq false entries value ≤ k := by omega
          rw [consOfFits fits, valueRank]
          by_cases single : weight = 1
          · have tail := tail ((passed.map Prod.snd).sum + weight)
              (by rw [valueRank, single]) (not_lt.mp exceeds) (by simp)
            simpa [single] using tail
          · simp [single, isStart, earlierAll, nonempty]
            omega

attribute [local simp] transform transformFrom classCount pairing in
/-- The pairing transformer agrees with the specification exactly on groups whose
classes begin with one row. -/
theorem transform_pairing_eq_iff (positiveK : 1 ≤ k) :
    (pairing k dense rankEq).transform entries =
        rankedUpTo (pairing k dense rankEq) entries entries ↔
      dense = true ∨ StartsWithOneRow rankEq k entries := by
  cases isEntries : entries with
  | nil => simp [rankedUpTo, StartsWithOneRow]
  | cons entry rest =>
    obtain ⟨value, weight⟩ := entry
    rw [← isEntries]
    have position : entries = [] ++ (value, weight) :: rest := by simp [isEntries]
    have weightPositive : 0 < weight := positive (value, weight) (by simp [isEntries])
    have nothing : earlierClasses rankEq entries value = [] :=
      earlierClasses_of_newClass sorted position (by simp)
    have isStart : startsClass rankEq entries value = true :=
      startsClass_of_newClass sorted position (by simp)
    have valueRank : sqlRank rankEq dense entries value = 1 := by
      simp [sqlRank, nothing]
    have tail := transformFrom_eq_iff k dense classes sorted positive
      (show entries = [(value, weight)] ++ rest by simp [isEntries]) ⟨[], rfl⟩ valueRank.symm
      (by exact_mod_cast positiveK) fun _ => by simp [isStart]
    have fits : sqlRank rankEq dense entries value ≤ k := by rw [valueRank]; exact_mod_cast positiveK
    have ahead : StartsWithOneRow rankEq k entries ↔
        AheadStartsWithOneRow k rankEq entries rest := by
      have cons : StartsWithOneRow rankEq k entries ↔
          AheadStartsWithOneRow k rankEq entries ((value, weight) :: rest) := by
        rw [← isEntries]
        rfl
      rw [cons, aheadStartsWithOneRow_cons]
      simp [nothing]
    have first : (pairing k dense rankEq).transform entries = ((1, value), weight) ::
        (pairing k dense rankEq).transformFrom rest weight 1 (some value) := by
      simp [exceedsK, changesClass, nextRank, isEntries, weightPositive]
    have expected : rankedUpTo (pairing k dense rankEq) entries entries = ((1, value), weight) ::
        rankedUpTo (pairing k dense rankEq) entries rest := by
      have cons := @rankedUpTo_cons _ _ rankEq k dense entries rest (value, weight)
      rw [← isEntries, if_pos fits, valueRank] at cons
      exact cons
    rw [first, expected, ahead]
    simpa using tail

end

namespace TopKRank

variable {Out : Type u} (operator : TopKRank V Out)

omit [LinearOrder V] in
/-- Other output functions map over what the pairing transformer emits. -/
theorem transformFrom_eq_map (cursor : List (V × ℤ)) (count rank : ℤ) (prevKey : Option V) :
    operator.transformFrom cursor count rank prevKey =
      ((pairing operator.k operator.dense operator.rankEqFunc).transformFrom cursor count rank
        prevKey).map fun output => (operator.outputFunc output.1.1 output.1.2, output.2) := by
  obtain ⟨k, dense, rankEq, outputFunc⟩ := operator
  induction cursor generalizing count rank prevKey with
  | nil => rfl
  | cons entry _ ih =>
    obtain ⟨key, weight⟩ := entry
    rw [transformFrom, pairing, transformFrom, apply_ite (map _), apply_ite (map _)]
    refine if_congr Iff.rfl (if_congr Iff.rfl rfl ?_) (ih _ _ _)
    exact congrArg (cons _) (ih _ _ _)

theorem rankedUpTo_eq_map (entries : List (V × ℤ)) :
    rankedUpTo operator entries entries =
      (rankedUpTo (pairing operator.k operator.dense operator.rankEqFunc) entries entries).map
        fun output => (operator.outputFunc output.1.1 output.1.2, output.2) := by
  rw [rankedUpTo, rankedUpTo, map_map]
  rfl

/-- Top-k by rank emits every value of SQL rank at most `k` with its weight, paired with
that rank, whatever is made of the pair, exactly in dense mode or when every class but the
first that has to be emitted begins with a value of weight one. -/
theorem transform_eq_rankedUpTo_iff (k : Nat) (positiveK : 1 ≤ k) (dense : Bool)
    (rankEq : V → V → Bool) (classes : ContiguousClasses rankEq) (group : ZSet V)
    (positive : ∀ entry ∈ group.entries, 0 < entry.2) :
    (∀ (Out : Type u) (outputFunc : ℤ → V → Out),
      transform { k, dense, rankEqFunc := rankEq, outputFunc } group.entries =
        rankedUpTo { k, dense, rankEqFunc := rankEq, outputFunc } group.entries group.entries) ↔
      dense = true ∨ StartsWithOneRow rankEq k group.entries := by
  rw [← transform_pairing_eq_iff k dense classes group.sorted positive positiveK]
  constructor
  · intro agrees
    exact agrees (ℤ × V) Prod.mk
  · intro agrees Out outputFunc
    rw [transform, transformFrom_eq_map, rankedUpTo_eq_map]
    exact congrArg _ agrees

theorem contiguousClasses_eq : ContiguousClasses fun first second : ℕ => decide (first = second) :=
  { refl := by simp
    symm := by simp +contextual
    trans := by simp +contextual
    contiguous := by
      intro first second third below after same
      simp only [decide_eq_true_eq] at same ⊢
      omega }

/-- One row of value 1 and two rows of value 2: the rows of value 2 have rank 2, and the
loop gives them rank 3. -/
theorem sparse_rank_skips_too_far : let operator : TopKRank ℕ (ℤ × ℕ) :=
      { k := 3, dense := false, rankEqFunc := fun first second => decide (first = second)
        outputFunc := Prod.mk }
    let group : ZSet ℕ := ZSet.ofTuples [(1, 1), (2, 2)]
    ContiguousClasses operator.rankEqFunc ∧ (∀ entry ∈ group.entries, 0 < entry.2) ∧
      sqlRank operator.rankEqFunc false group.entries 2 = 2 ∧
      operator.transform group.entries = [((1, 1), 1), ((3, 2), 2)] ∧
      operator.transform group.entries ≠ rankedUpTo operator group.entries group.entries :=
  ⟨contiguousClasses_eq, by decide, by decide, by decide, by decide⟩

/-- The equivalence on a group whose classes are single rows. -/
theorem transform_eq_rankedUpTo_iff_single_rows :
    let rankEq : ℕ → ℕ → Bool := fun first second => decide (first = second)
    let group : ZSet ℕ := ZSet.ofTuples [(1, 3), (2, 1), (4, 1)]
    (∀ entry ∈ group.entries, 0 < entry.2) ∧
      ((∀ (Out : Type) (outputFunc : ℤ → ℕ → Out),
        transform { k := 4, dense := false, rankEqFunc := rankEq, outputFunc } group.entries =
          rankedUpTo { k := 4, dense := false, rankEqFunc := rankEq, outputFunc } group.entries
            group.entries) ↔
        false = true ∨ StartsWithOneRow rankEq 4 group.entries) := by
  intro rankEq group
  have positive : ∀ entry ∈ group.entries, 0 < entry.2 := by decide
  exact ⟨positive, transform_eq_rankedUpTo_iff 4 (by decide) false rankEq contiguousClasses_eq
    group positive⟩

end TopKRank

end OpenDera.Group
