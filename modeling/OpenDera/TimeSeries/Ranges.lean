import OpenDera.Std.PrimInt
import OpenDera.Std.SortedMap

/-!
# Relative time ranges

A `RelRange` gives a closed interval of timestamps relative to a moment. An end
that moves away from the other one saturates at the end of the timestamp type
and an end that moves towards it is checked, so that a range that lies outside
the type altogether is `none`. Neither can be seen from inside the type: a
timestamp is in the range of `ts` exactly when its distance from `ts` lies
between the two offsets.
-/

namespace OpenDera.TimeSeries

open List PrimInt

/-- A time offset before or after the current moment. -/
inductive RelOffset where
  | before (offset : ℤ)
  | after (offset : ℤ)
  deriving DecidableEq, Repr

namespace RelOffset

/-- An offset as a signed distance. -/
def displacement : RelOffset → ℤ
  | before offset => -offset
  | after offset => offset

/-- The amount of an offset in either direction. -/
def amount : RelOffset → ℤ
  | before offset => offset
  | after offset => offset

end RelOffset

/-- A closed interval of timestamps, `from` the first and `to` the last one. -/
structure Range where
  start : ℤ
  stop : ℤ
  deriving DecidableEq, Repr

/-- `timestamp` is in a range. -/
def Range.Contains (range : Range) (timestamp : ℤ) : Prop :=
  range.start ≤ timestamp ∧ timestamp ≤ range.stop

instance (range : Range) (timestamp : ℤ) : Decidable (range.Contains timestamp) :=
  inferInstanceAs (Decidable (_ ∧ _))

/-- A closed time interval relative to a given moment. -/
structure RelRange where
  start : RelOffset
  stop : RelOffset
  deriving DecidableEq, Repr

namespace RelOffset

variable (type : PrimInt)

/-- The first timestamp of a range that begins at an offset from `ts`. -/
def startFrom (ts : ℤ) : RelOffset → Option ℤ
  | before offset => some (type.saturating (ts - offset))
  | after offset => type.checked (ts + offset)

/-- The last timestamp of a range that ends at an offset from `ts`. -/
def stopFrom (ts : ℤ) : RelOffset → Option ℤ
  | before offset => type.checked (ts - offset)
  | after offset => some (type.saturating (ts + offset))

variable {type} {ts timestamp : ℤ} {offset : RelOffset}

/-- A timestamp of the type is after the computed start exactly when it is after
the exact one. -/
theorem startFrom_le_iff (nonneg : 0 ≤ offset.amount) (now : type.Contains ts)
    (contains : type.Contains timestamp) :
    (∃ start ∈ offset.startFrom type ts, start ≤ timestamp) ↔
      offset.displacement ≤ timestamp - ts := by
  cases offset with
  | before offset =>
    have small : ts - offset ≤ type.maxValue := by
      have := now.2
      simp only [amount] at nonneg
      omega
    simp only [startFrom, Option.mem_def, Option.some.injEq, exists_eq_left', displacement,
      saturating_le_iff contains small]
    omega
  | after offset =>
    simp only [startFrom, displacement]
    by_cases fits : type.Contains (ts + offset)
    case pos =>
      simp only [checked_of_contains fits, Option.mem_def, Option.some.injEq,
        exists_eq_left']
      omega
    case neg =>
      -- the exact start lies above the type, and with it above the timestamp
      simp only [checked_of_not_contains fits, Option.mem_def, reduceCtorEq,
        false_and, exists_false, false_iff]
      simp only [PrimInt.Contains, amount] at *
      omega

/-- A timestamp of the type is before the computed stop exactly when it is
before the exact one. -/
theorem le_stopFrom_iff (nonneg : 0 ≤ offset.amount) (now : type.Contains ts)
    (contains : type.Contains timestamp) :
    (∃ stop ∈ offset.stopFrom type ts, timestamp ≤ stop) ↔
      timestamp - ts ≤ offset.displacement := by
  cases offset with
  | before offset =>
    simp only [stopFrom, displacement]
    by_cases fits : type.Contains (ts - offset)
    case pos =>
      simp only [checked_of_contains fits, Option.mem_def, Option.some.injEq,
        exists_eq_left']
      omega
    case neg =>
      simp only [checked_of_not_contains fits, Option.mem_def, reduceCtorEq,
        false_and, exists_false, false_iff]
      simp only [PrimInt.Contains, amount] at *
      omega
  | after offset =>
    have large : type.minValue ≤ ts + offset := by
      have := now.1
      simp only [amount] at nonneg
      omega
    simp only [stopFrom, Option.mem_def, Option.some.injEq, exists_eq_left', displacement,
      le_saturating_iff contains large]
    omega

end RelOffset

namespace RelRange

variable (type : PrimInt) (range : RelRange)

/-- `RelRange::range_of`: the range relative to `ts`, or `none` if it lies
outside the type. -/
def rangeOf (ts : ℤ) : Option Range := do
  let start ← range.start.startFrom type ts
  let stop ← range.stop.stopFrom type ts
  some ⟨start, stop⟩

/-- `timestamp` is within the offsets from `ts`. -/
def Covers (ts timestamp : ℤ) : Prop :=
  range.start.displacement ≤ timestamp - ts ∧ timestamp - ts ≤ range.stop.displacement

instance (range : RelRange) (ts timestamp : ℤ) : Decidable (range.Covers ts timestamp) :=
  inferInstanceAs (Decidable (_ ∧ _))

/-- Offsets count distances, so they are not negative. -/
def Nonneg : Prop :=
  0 ≤ range.start.amount ∧ 0 ≤ range.stop.amount

variable {type} {ts timestamp : ℤ}

/-- A timestamp of the type is in the computed range exactly when its distance
from `ts` is within the offsets, wherever an end saturates or overflows. -/
theorem mem_rangeOf_iff (range : RelRange) (nonneg : range.Nonneg) (now : type.Contains ts)
    (contains : type.Contains timestamp) :
    (∃ found ∈ range.rangeOf type ts, found.Contains timestamp) ↔
      range.Covers ts timestamp := by
  rw [Covers, ← RelOffset.startFrom_le_iff nonneg.1 now contains,
    ← RelOffset.le_stopFrom_iff nonneg.2 now contains]
  constructor
  · rintro ⟨found, computed, contained⟩
    simp only [rangeOf, Option.bind_eq_bind, Option.mem_def, Option.bind_eq_some_iff,
      Option.some.injEq] at computed
    obtain ⟨start, startComputed, stop, stopComputed, rfl⟩ := computed
    exact ⟨⟨start, startComputed, contained.1⟩, ⟨stop, stopComputed, contained.2⟩⟩
  · rintro ⟨⟨start, startComputed, after⟩, ⟨stop, stopComputed, before⟩⟩
    refine ⟨⟨start, stop⟩, ?_, after, before⟩
    simp only [Option.mem_def] at startComputed stopComputed
    simp [rangeOf, startComputed, stopComputed]

end RelRange

/-! ## Sets of time ranges

The timestamps that a batch of updates affects are collected as a list of ranges in the
order of their starts. A cursor restricted to such a list goes through a sorted sequence
once and stops at every timestamp inside one of the ranges. -/

namespace RelOffset

/-- `-offset`. -/
def neg : RelOffset → RelOffset
  | before offset => after offset
  | after offset => before offset

variable (offset : RelOffset)

@[simp] theorem displacement_neg : offset.neg.displacement = -offset.displacement := by
  cases offset <;> simp [neg, displacement]

@[simp] theorem amount_neg : offset.neg.amount = offset.amount := by
  cases offset <;> rfl

/-- A computed start belongs to the type. -/
theorem contains_startFrom {type : PrimInt} {offset : RelOffset} {ts start : ℤ}
    (computed : offset.startFrom type ts = some start) : type.Contains start := by
  have low := type.minValue_nonpos
  have high := type.maxValue_nonneg
  cases offset with
  | before =>
    simp only [startFrom, Option.some.injEq, saturating] at computed
    simp only [PrimInt.Contains]
    omega
  | after =>
    simp only [startFrom, checked, Option.ite_none_right_eq_some,
      Option.some.injEq] at computed
    exact computed.2 ▸ computed.1

/-- The start of a range grows with the moment it is relative to. -/
theorem startFrom_mono {type : PrimInt} {offset : RelOffset} {earlier later first second : ℤ}
    (order : earlier ≤ later) (firstStart : offset.startFrom type earlier = some first)
    (secondStart : offset.startFrom type later = some second) : first ≤ second := by
  cases offset with
  | before =>
    simp only [startFrom, Option.some.injEq, saturating] at firstStart secondStart
    omega
  | after =>
    simp only [startFrom, checked, Option.ite_none_right_eq_some,
      Option.some.injEq] at firstStart secondStart
    omega

end RelOffset

namespace RelRange

variable (type : PrimInt) (range : RelRange)

/-- `RelRange::affected_range_of`: the timestamps whose range contains `ts`, or
`none` if they all lie outside the type. -/
def affectedRangeOf (ts : ℤ) : Option Range := do
  let start ← match range.stop with
    | .before offset => type.checked (ts + offset)
    | .after offset => some (type.saturating (ts - offset))
  let stop ← match range.start with
    | .before offset => some (type.saturating (ts + offset))
    | .after offset => type.checked (ts - offset)
  some ⟨start, stop⟩

variable {type}

/-- The affected range is the range of the opposite offsets. -/
theorem affectedRangeOf_eq (ts : ℤ) : range.affectedRangeOf type ts =
      (RelRange.mk range.stop.neg range.start.neg).rangeOf type ts := by
  obtain ⟨start, stop⟩ := range
  cases start <;> cases stop <;> rfl

/-- A timestamp is in the affected range of `ts` exactly when `ts` is within the
offsets from it. -/
theorem mem_affectedRangeOf_iff (nonneg : range.Nonneg) {ts timestamp : ℤ}
    (now : type.Contains ts) (contains : type.Contains timestamp) :
    (∃ found ∈ range.affectedRangeOf type ts, found.Contains timestamp) ↔
      range.Covers timestamp ts := by
  have opposite : (RelRange.mk range.stop.neg range.start.neg).Nonneg := by
    simpa [Nonneg] using nonneg.symm
  rw [affectedRangeOf_eq, mem_rangeOf_iff _ opposite now contains]
  simp only [Covers, RelOffset.displacement_neg]
  omega

/-- The start of the affected range grows with the timestamp. -/
theorem affectedRangeOf_start_mono {range : RelRange} {earlier later : ℤ} {first second : Range}
    (order : earlier ≤ later) (firstRange : range.affectedRangeOf type earlier = some first)
    (secondRange : range.affectedRangeOf type later = some second) :
    first.start ≤ second.start := by
  rw [affectedRangeOf_eq, rangeOf] at firstRange secondRange
  simp only [Option.bind_eq_bind, Option.bind_eq_some_iff, Option.some.injEq] at *
  obtain ⟨firstStart, firstFound, _, _, rfl⟩ := firstRange
  obtain ⟨secondStart, secondFound, _, _, rfl⟩ := secondRange
  exact RelOffset.startFrom_mono order firstFound secondFound

end RelRange

/-! ### Lists of ranges -/

namespace Ranges

variable (ranges : List Range)

/-- The timestamp lies in one of the ranges. -/
def Member (timestamp : ℤ) : Prop :=
  ∃ range ∈ ranges, range.Contains timestamp

instance (ranges : List Range) (timestamp : ℤ) : Decidable (Member ranges timestamp) :=
  inferInstanceAs (Decidable (∃ range ∈ ranges, _))

/-- The ranges are in the order of their starts. -/
def Ascending : Prop :=
  ranges.Pairwise fun earlier later => earlier.start ≤ later.start

/-- `Ranges::push_monotonic`: add a range that does not begin before the last one. -/
def pushMonotonic (range : Range) : List Range :=
  match ranges.getLast? with
  | some last =>
    if range.start ≤ last.stop then
      ranges.dropLast ++ [⟨last.start, max last.stop range.stop⟩]
    else
      ranges ++ [range]
  | none => ranges ++ [range]

/-- `Ranges::merge`: the ranges of both lists in the order of their starts. -/
def merge (first second : List Range) : List Range :=
  (first.merge second fun range other => decide (range.start ≤ other.start)).foldl pushMonotonic []

variable {first second : List Range}

theorem member_append {timestamp : ℤ} :
    Member (first ++ second) timestamp ↔ Member first timestamp ∨ Member second timestamp := by
  simp only [Member, mem_append, or_and_right, exists_or]

@[simp] theorem member_singleton {range : Range} {timestamp : ℤ} :
    Member [range] timestamp ↔ range.Contains timestamp := by
  simp [Member]

/-- Pushing a range adds its timestamps and keeps the order. -/
theorem pushMonotonic_spec {ranges : List Range} {range : Range}
    (ascending : Ascending (ranges ++ [range])) :
    Ascending (pushMonotonic ranges range) ∧
      (∀ timestamp, Member (pushMonotonic ranges range) timestamp ↔
        Member ranges timestamp ∨ range.Contains timestamp) ∧
      ∀ bound, (∀ other ∈ ranges ++ [range], other.start ≤ bound) →
        ∀ other ∈ pushMonotonic ranges range, other.start ≤ bound := by
  induction ranges using reverseRecOn with
  | nil => simp [pushMonotonic, Ascending, Member]
  | append_singleton ranges last =>
    by_cases overlaps : range.start ≤ last.stop
    case pos =>
      -- the last range is extended and keeps its start
      have order : last.start ≤ range.start := by
        refine (pairwise_append.mp ascending).2.2 last (by simp) range (by simp)
      have kept : Ascending (ranges ++ [⟨last.start, max last.stop range.stop⟩]) := by
        simp only [Ascending, append_assoc, pairwise_append, pairwise_singleton,
          mem_singleton, forall_eq] at ascending ⊢
        exact ⟨ascending.1, trivial, fun other member => ascending.2.2 other member last (by simp)⟩
      have pushed : pushMonotonic (ranges ++ [last]) range =
          ranges ++ [⟨last.start, max last.stop range.stop⟩] := by
        simp [pushMonotonic, overlaps]
      rw [pushed]
      refine ⟨kept, fun timestamp => ?_, fun bound bounded other member => ?_⟩
      · simp only [member_append, member_singleton, Range.Contains]
        rw [or_assoc]
        refine or_congr_right ?_
        omega
      · rcases mem_append.mp member with earlier | same
        · exact bounded other (by simp [earlier])
        · rw [mem_singleton] at same
          subst same
          exact bounded last (by simp)
    case neg =>
      have pushed : pushMonotonic (ranges ++ [last]) range = ranges ++ [last] ++ [range] := by
        simp [pushMonotonic, overlaps]
      rw [pushed]
      exact ⟨ascending, fun timestamp => by rw [member_append, member_singleton],
        fun bound bounded => bounded⟩

/-- Pushing ranges in the order of their starts collects their timestamps. -/
theorem foldl_pushMonotonic_spec {ranges pushed : List Range}
    (ascending : Ascending (ranges ++ pushed)) :
    Ascending (pushed.foldl pushMonotonic ranges) ∧
      ∀ timestamp, Member (pushed.foldl pushMonotonic ranges) timestamp ↔
        Member ranges timestamp ∨ Member pushed timestamp := by
  induction pushed generalizing ranges with
  | nil => simpa [Member] using ascending
  | cons range pushed ih =>
    rw [append_cons] at ascending
    obtain ⟨first, rest, between⟩ := pairwise_append.mp ascending
    obtain ⟨kept, members, bounded⟩ := pushMonotonic_spec first
    have ascendingNext : Ascending (pushMonotonic ranges range ++ pushed) :=
      pairwise_append.mpr ⟨kept, rest, fun other otherMember later laterMember =>
        bounded later.start (fun before beforeMember =>
          between before beforeMember later laterMember) other otherMember⟩
    obtain ⟨final, finalMembers⟩ := ih ascendingNext
    refine ⟨final, fun timestamp => ?_⟩
    rw [foldl_cons, finalMembers, members, or_assoc, ← singleton_append, member_append,
      member_singleton]

/-- Merging two lists of ranges collects the timestamps of both. -/
theorem merge_spec (firstAscending : Ascending first) (secondAscending : Ascending second) :
    Ascending (merge first second) ∧ ∀ timestamp, Member (merge first second) timestamp ↔
      Member first timestamp ∨ Member second timestamp := by
  have sorted : Ascending
      (first.merge second fun range other => decide (range.start ≤ other.start)) := by
    refine (pairwise_merge ?_ ?_ first second (firstAscending.imp ?_)
      (secondAscending.imp ?_)).imp ?_ <;> simp only [decide_eq_true_eq, Bool.or_eq_true] <;> omega
  obtain ⟨ascending, members⟩ := @foldl_pushMonotonic_spec [] _ sorted
  refine ⟨ascending, fun timestamp => ?_⟩
  rw [merge, members]
  simp only [Member, mem_merge, or_and_right, exists_or]
  simp

end Ranges

/-! ### The timestamps affected by a batch -/

namespace RelRange

variable (type : PrimInt) (range : RelRange) (timestamps : List ℤ)

open Ranges

/-- `PartitionedRollingAggregate::affected_ranges`: the affected ranges of the
updated timestamps and the updated timestamps themselves. -/
def affectedRanges : List Range :=
  let affected := (timestamps.filterMap (range.affectedRangeOf type)).foldl pushMonotonic []
  let delta := (timestamps.map fun ts => Range.mk ts ts).foldl pushMonotonic []
  merge affected delta

/-- A timestamp has to be looked at again if it was updated or its range covers an
updated one. -/
def Affects (timestamp : ℤ) : Prop :=
  timestamp ∈ timestamps ∨ ∃ ts ∈ timestamps, range.Covers timestamp ts

instance (range : RelRange) (timestamps : List ℤ) (timestamp : ℤ) :
    Decidable (range.Affects timestamps timestamp) :=
  inferInstanceAs (Decidable (_ ∨ ∃ ts ∈ timestamps, _))

variable {type} {timestamps}

/-- The collected ranges are in order and hold the updated timestamps and their
affected ranges. -/
theorem affectedRanges_spec (range : RelRange) (sorted : timestamps.Pairwise (· < ·)) :
    Ranges.Ascending (range.affectedRanges type timestamps) ∧
      ∀ timestamp, Ranges.Member (range.affectedRanges type timestamps) timestamp ↔
        timestamp ∈ timestamps ∨
          ∃ ts ∈ timestamps, ∃ found ∈ range.affectedRangeOf type ts, found.Contains timestamp := by
  have affectedAscending :
      Ranges.Ascending ([] ++ timestamps.filterMap (range.affectedRangeOf type)) := by
    rw [nil_append, Ranges.Ascending, pairwise_filterMap]
    exact sorted.imp fun order first firstRange second secondRange =>
      affectedRangeOf_start_mono order.le firstRange secondRange
  have deltaAscending : Ranges.Ascending ([] ++ timestamps.map fun ts => Range.mk ts ts) := by
    rw [nil_append, Ranges.Ascending, pairwise_map]
    exact sorted.imp fun order => order.le
  obtain ⟨firstOrder, firstMembers⟩ := foldl_pushMonotonic_spec affectedAscending
  obtain ⟨secondOrder, secondMembers⟩ := foldl_pushMonotonic_spec deltaAscending
  obtain ⟨order, members⟩ := merge_spec firstOrder secondOrder
  refine ⟨order, fun timestamp => ?_⟩
  rw [affectedRanges, members, firstMembers, secondMembers, or_comm]
  refine or_congr ?_ ?_
  · simp only [Ranges.Member, not_mem_nil, false_and, exists_false, false_or, mem_map,
      exists_exists_and_eq_and, Range.Contains]
    constructor
    · rintro ⟨ts, member, after, before⟩
      rwa [le_antisymm before after]
    · exact fun member => ⟨timestamp, member, le_rfl, le_rfl⟩
  · simp only [Ranges.Member, not_mem_nil, false_and, exists_false, false_or, mem_filterMap]
    constructor
    · rintro ⟨found, ⟨ts, member, computed⟩, contained⟩
      exact ⟨ts, member, found, computed, contained⟩
    · rintro ⟨ts, member, found, computed, contained⟩
      exact ⟨found, ⟨ts, member, computed⟩, contained⟩

/-- The collected ranges hold exactly the affected timestamps of the type. -/
theorem member_affectedRanges_iff (range : RelRange) (nonneg : range.Nonneg)
    (sorted : timestamps.Pairwise (· < ·))
    (inside : ∀ ts ∈ timestamps, type.Contains ts) {timestamp : ℤ}
    (contains : type.Contains timestamp) :
    Ranges.Member (range.affectedRanges type timestamps) timestamp ↔
      range.Affects timestamps timestamp := by
  rw [(affectedRanges_spec range sorted).2, Affects]
  refine or_congr_right (exists_congr fun ts => and_congr_right fun member => ?_)
  exact mem_affectedRangeOf_iff range nonneg (inside ts member) contains

end RelRange

/-! ### Cursors restricted to ranges -/

variable {Group : Type*}

/-- The entries that a `RangeCursor` stops at. Ranges that end before the current
key are left behind; the cursor seeks forward to the start of the current range. -/
def rangeCursor (ranges : List Range) : List (ℤ × Group) → List (ℤ × Group)
  | [] => []
  | (key, values) :: cursor =>
    match ranges.dropWhile fun range => decide (range.start ≤ key ∧ range.stop < key) with
    | [] => []
    | range :: ranges =>
      if key < range.start then rangeCursor (range :: ranges) cursor
      else (key, values) :: rangeCursor (range :: ranges) cursor

/-- The ranges left behind at a key have no later key. -/
theorem Ranges.member_dropWhile (ranges : List Range) {key timestamp : ℤ}
    (order : key ≤ timestamp) :
    Ranges.Member
        (ranges.dropWhile fun range => decide (range.start ≤ key ∧ range.stop < key)) timestamp ↔
      Ranges.Member ranges timestamp := by
  refine ⟨fun ⟨range, member, contains⟩ =>
    ⟨range, (dropWhile_sublist _).subset member, contains⟩, ?_⟩
  rintro ⟨range, member, contains⟩
  have split := @takeWhile_append_dropWhile _
    (fun range => decide (range.start ≤ key ∧ range.stop < key)) ranges
  rcases mem_append.mp (split.symm ▸ member) with passed | remaining
  · have ended := all_eq_true.mp all_takeWhile range passed
    have := contains.2
    rw [decide_eq_true_eq] at ended
    omega
  · exact ⟨range, remaining, contains⟩

/-- A cursor restricted to ordered ranges stops exactly at the keys inside them. -/
theorem rangeCursor_eq_filter {ranges : List Range} (ascending : Ranges.Ascending ranges)
    {cursor : List (ℤ × Group)} (sorted : SortedMap.Sorted cursor) :
    rangeCursor ranges cursor =
      cursor.filter fun entry => decide (Ranges.Member ranges entry.1) := by
  induction cursor generalizing ranges with
  | nil => rfl
  | cons entry cursor ih =>
    obtain ⟨key, values⟩ := entry
    have same := fun timestamp order =>
      @Ranges.member_dropWhile ranges key timestamp order
    have orderLeft : Ranges.Ascending
        (ranges.dropWhile fun range => decide (range.start ≤ key ∧ range.stop < key)) :=
      ascending.sublist (dropWhile_sublist _)
    have later : ∀ entry ∈ cursor, key ≤ entry.1 := fun entry member => (sorted.head_lt member).le
    rw [rangeCursor]
    split
    case h_1 found =>
      -- every range ends before this key
      rw [found] at same
      symm
      rw [filter_eq_nil_iff]
      rintro entry member
      have order : key ≤ entry.1 := by
        rcases mem_cons.mp member with rfl | behind
        exacts [le_rfl, later entry behind]
      rw [decide_eq_true_eq, ← same entry.1 order]
      simp [Ranges.Member]
    case h_2 range rest found =>
      rw [found] at same orderLeft
      have remaining : rangeCursor (range :: rest) cursor =
          cursor.filter fun entry => decide (Ranges.Member ranges entry.1) := by
        rw [ih orderLeft sorted.tail]
        refine filter_congr fun entry member => ?_
        rw [decide_eq_decide, same entry.1 (later entry member)]
      rw [remaining, filter_cons]
      simp only [← same key le_rfl, decide_eq_true_eq]
      have current : ¬ (range.start ≤ key ∧ range.stop < key) := by
        have head := head?_dropWhile_not
          (fun range : Range => decide (range.start ≤ key ∧ range.stop < key)) ranges
        rw [found] at head
        simpa using head
      split_ifs with before inside inside
      · -- the key lies before the current range and all later ones
        obtain ⟨other, member, contains⟩ := inside
        have order : range.start ≤ other.start := by
          rcases mem_cons.mp member with rfl | behind
          exacts [le_rfl, rel_of_pairwise_cons orderLeft behind]
        have := contains.1
        omega
      · rfl
      · rfl
      · refine absurd ⟨range, mem_cons_self, ?_⟩ inside
        simp only [Range.Contains]
        omega

end OpenDera.TimeSeries
