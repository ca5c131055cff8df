import Mathlib.Algebra.Order.Ring.Int
import Mathlib.Algebra.Order.SuccPred
import Mathlib.Data.Int.ConditionallyCompleteOrder

/-!
# Rounding timestamps

`FLOOR` and `CEIL` round a timestamp to a boundary of a unit, with a pair of functions for
every unit. The ceiling to milliseconds adds 999 microseconds and truncates the quotient
toward zero, which is a ceiling only where the sum is not negative.
-/

namespace OpenDera.Sqllib

/-! ## The Gregorian calendar

Days are counted from the first of January 1970, months from the January of year 0. -/

/-- The first day of a month. Years start in March here, so that leap days end them. -/
def monthStart (month : ℤ) : ℤ :=
  365 * ((month - 2) / 12) + (month - 2) / 12 / 4 - (month - 2) / 12 / 100 +
    (month - 2) / 12 / 400 + (153 * ((month - 2) % 12) + 2) / 5 - 719468

/-- The month of a day, one of the three that the mean length of a month leaves. -/
def monthOf (day : ℤ) : ℤ :=
  let month := (day + 719468) * 4800 / 146097 + 1
  if day < monthStart (month + 1) then month
  else if day < monthStart (month + 2) then month + 1
  else month + 2

theorem monthStart_strictMono : StrictMono monthStart := by
  apply strictMono_int_of_lt_succ
  intro month
  unfold monthStart
  omega

theorem monthOf_spec (day : ℤ) :
    monthStart (monthOf day) ≤ day ∧ day < monthStart (monthOf day + 1) := by
  have first : monthStart ((day + 719468) * 4800 / 146097 + 1) ≤ day := by
    unfold monthStart
    omega
  have last : day < monthStart ((day + 719468) * 4800 / 146097 + 1 + 2 + 1) := by
    unfold monthStart
    omega
  simp only [monthOf]
  split
  case isTrue before => exact ⟨first, before⟩
  case isFalse =>
    split
    case isTrue before => exact ⟨by omega, by rwa [add_assoc]⟩
    case isFalse => exact ⟨by omega, last⟩

/-! ## The functions

A timestamp is a number of microseconds since the first of January 1970. -/

structure DateTime where
  (year month day numDaysFromSunday hour minute second nanosecond : ℤ)

def isMidnight (value : DateTime) : Bool :=
  value.hour == 0 && value.minute == 0 && value.second == 0 && value.nanosecond == 0

inductive TimeUnit where
  | millisecond | second | minute | hour | day | week | month | quarter | year | decade | century
  | millennium
  deriving DecidableEq

def toDateTime (microseconds : ℤ) : DateTime :=
  let date := microseconds / 86400000000
  let time := microseconds % 86400000000
  { year := monthOf date / 12
    month := monthOf date % 12 + 1
    day := date - monthStart (monthOf date) + 1
    numDaysFromSunday := (date + 4) % 7
    hour := time / 3600000000
    minute := time / 60000000 % 60
    second := time / 1000000 % 60
    nanosecond := time % 1000000 * 1000 }

def fromNaiveDate (year month day : ℤ) : ℤ :=
  (monthStart (12 * year + month - 1) + day - 1) * 86400 * 1000000

def fromNaiveDateTime (year month day hour minute second : ℤ) : ℤ :=
  fromNaiveDate year month day + (hour * 3600 + minute * 60 + second) * 1000000

variable (value : ℤ)

def checkLegal : Prop := 1 ≤ (toDateTime value).year ∧ (toDateTime value).year ≤ 9999

def extractDow : ℤ := (toDateTime value).numDaysFromSunday + 1

/-- Decades, centuries and millennia start with the years that their length divides. -/
def floorYears (length : ℤ) : ℤ :=
  fromNaiveDate ((toDateTime value).year.tdiv length * length) 1 1

def ceilYears (length : ℤ) : ℤ :=
  let ts := toDateTime value
  if ts.year.tmod length = 0 ∧ ts.month = 1 ∧ ts.day = 1 ∧ isMidnight ts then value
  else fromNaiveDate ((ts.year.tdiv length + 1) * length) 1 1

def floorDay : ℤ :=
  let ts := toDateTime value
  fromNaiveDate ts.year ts.month ts.day

def floorTimestamp : TimeUnit → ℤ :=
  let ts := toDateTime value
  fun
  | .millennium => floorYears value 1000
  | .century => floorYears value 100
  | .decade => floorYears value 10
  | .year => fromNaiveDate ts.year 1 1
  | .quarter => fromNaiveDate ts.year ((ts.month - 1) / 3 * 3 + 1) 1
  | .month => fromNaiveDate ts.year ts.month 1
  | .week => floorDay value - (extractDow value - 1) * 86400 * 1000000
  | .day => floorDay value
  | .hour => fromNaiveDateTime ts.year ts.month ts.day ts.hour 0 0
  | .minute => fromNaiveDateTime ts.year ts.month ts.day ts.hour ts.minute 0
  | .second => fromNaiveDateTime ts.year ts.month ts.day ts.hour ts.minute ts.second
  | .millisecond =>
    if value < 0 then
      if (-value).tmod 1000 = 0 then -(-value).tdiv 1000 * 1000
      else (-(-value).tdiv 1000 - 1) * 1000
    else value.tdiv 1000 * 1000

def ceilTimestamp : TimeUnit → ℤ :=
  let ts := toDateTime value
  fun
  | .millennium => ceilYears value 1000
  | .century => ceilYears value 100
  | .decade => ceilYears value 10
  | .year =>
    if ts.month = 1 ∧ ts.day = 1 ∧ isMidnight ts then value
    else fromNaiveDate (ts.year + 1) 1 1
  | .quarter =>
    if (ts.month - 1) % 3 = 0 ∧ ts.day = 1 ∧ isMidnight ts then value
    else
      let nextQuarterMonth :=
        if ts.month ≤ 3 then 4 else if ts.month ≤ 6 then 7 else if ts.month ≤ 9 then 10 else 1
      let year := if nextQuarterMonth = 1 then ts.year + 1 else ts.year
      fromNaiveDate year nextQuarterMonth 1
  | .month =>
    if ts.day = 1 ∧ isMidnight ts then value
    else
      let month := if ts.month = 12 then 1 else ts.month + 1
      let year := if month = 1 then ts.year + 1 else ts.year
      fromNaiveDate year month 1
  | .week =>
    let wd := extractDow value - 1
    if wd = 0 ∧ isMidnight ts then value else floorDay value + (7 - wd) * 86400 * 1000000
  | .day => if isMidnight ts then value else floorDay value + 86400 * 1000000
  | .hour =>
    if ts.minute = 0 ∧ ts.second = 0 ∧ ts.nanosecond = 0 then value
    else floorTimestamp value .hour + 3600 * 1000000
  | .minute =>
    if ts.second = 0 ∧ ts.nanosecond = 0 then value
    else floorTimestamp value .minute + 60 * 1000000
  | .second => if ts.nanosecond = 0 then value else floorTimestamp value .second + 1000000
  | .millisecond => (value + 999).tdiv 1000 * 1000

/-! ## Boundaries -/

/-- The beginning of a month. -/
def midnight (month : ℤ) : ℤ := monthStart month * 86400000000

/-- The boundaries of a unit in order: the multiples of its length for milliseconds to days,
the Sundays for weeks (the fourth of January 1970 is one), and otherwise the beginnings of
every first, third, twelfth month and so on from the January of year 0. -/
def TimeUnit.boundary (index : ℤ) : TimeUnit → ℤ
  | millisecond => 1000 * index
  | second => 1000000 * index
  | minute => 60000000 * index
  | hour => 3600000000 * index
  | day => 86400000000 * index
  | week => 86400000000 * (7 * index + 3)
  | month => midnight index
  | quarter => midnight (3 * index)
  | year => midnight (12 * index)
  | decade => midnight (12 * 10 * index)
  | century => midnight (12 * 100 * index)
  | millennium => midnight (12 * 1000 * index)

theorem midnight_strictMono : StrictMono midnight :=
  monthStart_strictMono.mul_const (by omega)

theorem TimeUnit.boundary_strictMono (unit : TimeUnit) : StrictMono (boundary · unit) := by
  intro first second less
  cases unit
  case month | quarter | year | decade | century | millennium =>
    exact midnight_strictMono (by omega)
  all_goals
    simp only [boundary]
    omega

theorem year_nonneg_iff : 0 ≤ (toDateTime value).year ↔ midnight 0 ≤ value := by
  obtain ⟨lower, upper⟩ := monthOf_spec (value / 86400000000)
  have year : (toDateTime value).year = monthOf (value / 86400000000) / 12 := rfl
  unfold midnight
  constructor
  · intro nonneg
    have := monthStart_strictMono.monotone (show 0 ≤ monthOf (value / 86400000000) by omega)
    omega
  · intro after
    have : monthStart 0 ≤ value / 86400000000 := by omega
    have := monthStart_strictMono.lt_iff_lt.mp (this.trans_lt upper)
    omega

theorem floorDay_eq : floorDay value = value / 86400000000 * 86400000000 := by
  simp only [floorDay, fromNaiveDate, toDateTime]
  rw [show ∀ month : ℤ, 12 * (month / 12) + (month % 12 + 1) - 1 = month by omega]
  omega

theorem fromNaiveDateTime_eq (hour minute second : ℤ) :
    fromNaiveDateTime (toDateTime value).year (toDateTime value).month (toDateTime value).day
      hour minute second =
      value / 86400000000 * 86400000000 + (hour * 3600 + minute * 60 + second) * 1000000 :=
  congrArg (· + _) (floorDay_eq value)

theorem isMidnight_iff : isMidnight (toDateTime value) ↔ value % 86400000000 = 0 := by
  simp only [isMidnight, toDateTime, Bool.and_eq_true, beq_iff_eq]
  omega

theorem fromNaiveDate_eq_midnight {year month index : ℤ} (same : 12 * year + month - 1 = index) :
    fromNaiveDate year month 1 = midnight index := by
  unfold fromNaiveDate midnight
  rw [same]
  omega

/-- The timestamp lies between two successive boundaries. `FLOOR` returns the first, and
`CEIL` the second unless the timestamp is the first. -/
def Rounds (unit : TimeUnit) : Prop :=
  ∃ index, unit.boundary index ≤ value ∧ value < unit.boundary (index + 1) ∧
    floorTimestamp value unit = unit.boundary index ∧
    (unit ≠ .millisecond → ceilTimestamp value unit =
      if value = unit.boundary index then value else unit.boundary (index + 1))

/-- Rounding to the beginnings of groups of months. -/
theorem rounds_of_months {unit : TimeUnit} (width : ℤ) {year month nextYear nextMonth : ℤ}
    {onBoundary : Prop} [Decidable onBoundary] (positive : 0 < width)
    (boundaries : ∀ index, unit.boundary index = midnight (width * index))
    (floored : floorTimestamp value unit = fromNaiveDate year month 1)
    (ceiled : ceilTimestamp value unit =
      if onBoundary then value else fromNaiveDate nextYear nextMonth 1)
    (here : 12 * year + month - 1 = width * (monthOf (value / 86400000000) / width))
    (next : 12 * nextYear + nextMonth - 1 = width * (monthOf (value / 86400000000) / width + 1))
    (same : onBoundary ↔ monthOf (value / 86400000000) % width = 0 ∧
      (toDateTime value).day = 1 ∧ isMidnight (toDateTime value)) : Rounds value unit := by
  obtain ⟨lower, upper⟩ := monthOf_spec (value / 86400000000)
  refine ⟨monthOf (value / 86400000000) / width, ?_⟩
  rw [isMidnight_iff] at same
  rw [floored, ceiled, fromNaiveDate_eq_midnight here, fromNaiveDate_eq_midnight next, boundaries,
    boundaries]
  simp only [toDateTime] at same
  generalize ofMonth : monthOf (value / 86400000000) = month at *
  have split := Int.mul_ediv_add_emod month width
  have nonneg := Int.emod_nonneg month positive.ne'
  have less := Int.emod_lt_of_pos month positive
  have first := monthStart_strictMono.monotone (show width * (month / width) ≤ month by omega)
  have last := monthStart_strictMono.monotone
    (show month + 1 ≤ width * (month / width + 1) by rw [mul_add]; omega)
  unfold midnight
  refine ⟨by omega, by omega, rfl, fun _ => if_congr (same.trans ⟨?_, fun equal => ?_⟩) rfl rfl⟩
  · rintro ⟨whole, date, time⟩
    rw [show width * (month / width) = month by omega]
    omega
  · have date : value / 86400000000 = monthStart (width * (month / width)) := by omega
    have := monthStart_strictMono.le_iff_le.mp (date ▸ lower)
    rw [show width * (month / width) = month by omega] at date
    exact ⟨by omega, by omega, by omega⟩

theorem rounds {unit : TimeUnit}
    (nonneg : unit ∈ [.decade, .century, .millennium] → midnight 0 ≤ value) :
    Rounds value unit := by
  obtain ⟨year, month⟩ : (toDateTime value).year = monthOf (value / 86400000000) / 12 ∧
    (toDateTime value).month = monthOf (value / 86400000000) % 12 + 1 := ⟨rfl, rfl⟩
  have years length member : _ ∧ _ := And.intro
    (@Int.tdiv_eq_ediv_of_nonneg _ length ((year_nonneg_iff value).mpr (nonneg member)))
    (@Int.tmod_eq_emod_of_nonneg _ length ((year_nonneg_iff value).mpr (nonneg member)))
  cases unit
  case millisecond =>
    refine ⟨value / 1000, ?_, ?_, ?_, fun other => absurd rfl other⟩
    all_goals simp only [TimeUnit.boundary, floorTimestamp]
    · omega
    · omega
    · split
      case isTrue =>
        rw [Int.tmod_eq_emod_of_nonneg (by omega), Int.tdiv_eq_ediv_of_nonneg (by omega)]
        split <;> omega
      case isFalse =>
        rw [Int.tdiv_eq_ediv_of_nonneg (by omega)]
        omega
  case' month =>
    refine rounds_of_months value 1 one_pos (fun _ => by rw [one_mul]; rfl) rfl rfl ?_ ?_ ?_
  case' quarter => refine rounds_of_months value 3 (by omega) (fun _ => rfl) rfl rfl ?_ ?_ ?_
  case' year => refine rounds_of_months value 12 (by omega) (fun _ => rfl) rfl rfl ?_ ?_ ?_
  case' decade =>
    have := years 10 (by simp)
    refine rounds_of_months value 120 (by omega) (fun _ => rfl) rfl rfl ?_ ?_ ?_
  case' century =>
    have := years 100 (by simp)
    refine rounds_of_months value 1200 (by omega) (fun _ => rfl) rfl rfl ?_ ?_ ?_
  case' millennium =>
    have := years 1000 (by simp)
    refine rounds_of_months value 12000 (by omega) (fun _ => rfl) rfl rfl ?_ ?_ ?_
  case' second => refine ⟨value / 1000000, ?_⟩
  case' minute => refine ⟨value / 60000000, ?_⟩
  case' hour => refine ⟨value / 3600000000, ?_⟩
  case' day => refine ⟨value / 86400000000, ?_⟩
  case' week => refine ⟨(value / 86400000000 - 3) / 7, ?_⟩
  case second | minute | hour | week =>
    simp only [TimeUnit.boundary, floorTimestamp, ceilTimestamp, fromNaiveDateTime_eq, floorDay_eq,
      isMidnight_iff, extractDow]
    simp only [toDateTime]
    omega
  case' day =>
    simp only [TimeUnit.boundary, floorTimestamp, ceilTimestamp, floorDay_eq, isMidnight_iff]
  any_goals rw [isMidnight_iff]
  all_goals omega

/-! ## Rounding is adjoint to the inclusion of the boundaries -/

section

variable (unit : TimeUnit)

def TimeUnit.IsBoundary : Prop := ∃ index, value = unit.boundary index

def IsFloor : Prop :=
  IsGreatest {boundary | unit.IsBoundary boundary ∧ boundary ≤ value} (floorTimestamp value unit)

def IsCeil : Prop :=
  IsLeast {boundary | unit.IsBoundary boundary ∧ value ≤ boundary} (ceilTimestamp value unit)

/-- Where the ceiling is right: a truncated quotient rounds a negative number up, unless it is
exact. -/
def TimeUnit.Exact : Prop := unit = .millisecond → -999 ≤ value ∨ value % 1000 = 1

variable {value unit}

theorem Rounds.isFloor (rounds : Rounds value unit) : IsFloor value unit := by
  obtain ⟨index, lower, upper, floored, _⟩ := rounds
  refine ⟨⟨⟨index, floored⟩, floored.trans_le lower⟩, ?_⟩
  rintro _ ⟨⟨other, rfl⟩, before⟩
  have := unit.boundary_strictMono.lt_iff_lt.mp (before.trans_lt upper)
  rw [floored]
  exact unit.boundary_strictMono.monotone (by omega)

theorem isCeil_millisecond_iff : IsCeil value .millisecond ↔ -999 ≤ value ∨ value % 1000 = 1 := by
  simp only [IsCeil, TimeUnit.IsBoundary, TimeUnit.boundary, ceilTimestamp, Int.tdiv_eq_ediv]
  split
  case isTrue exact =>
    refine iff_of_true ⟨⟨⟨(value + 999) / 1000, by omega⟩, by omega⟩, ?_⟩ (by omega)
    rintro _ ⟨⟨index, rfl⟩, after⟩
    omega
  case isFalse inexact =>
    refine iff_of_false (fun least => ?_) (by omega)
    have := least.2 ⟨⟨(value + 999) / 1000, rfl⟩, by omega⟩
    rw [Int.sign_eq_one_of_pos (by omega)] at this
    omega

theorem Rounds.isCeil_iff (rounds : Rounds value unit) : IsCeil value unit ↔ unit.Exact value := by
  obtain ⟨index, lower, upper, _, ceiled⟩ := rounds
  by_cases different : unit = .millisecond
  case pos =>
    subst different
    simp only [isCeil_millisecond_iff, TimeUnit.Exact, true_imp_iff]
  case neg =>
    refine iff_of_true ?_ (fun same => absurd same different)
    rw [IsCeil, ceiled different]
    split
    case isTrue same => exact ⟨⟨⟨index, same⟩, le_rfl⟩, fun _ member => member.2⟩
    case isFalse other =>
      refine ⟨⟨⟨_, rfl⟩, upper.le⟩, ?_⟩
      rintro _ ⟨⟨next, rfl⟩, after⟩
      have := unit.boundary_strictMono.lt_iff_lt.mp ((lower.lt_of_ne' other).trans_le after)
      exact unit.boundary_strictMono.monotone (by omega)

theorem IsFloor.eq_self (isFloor : IsFloor value unit) (boundary : unit.IsBoundary value) :
    floorTimestamp value unit = value :=
  le_antisymm isFloor.1.2 (isFloor.2 ⟨boundary, le_rfl⟩)

theorem IsCeil.eq_self (isCeil : IsCeil value unit) (boundary : unit.IsBoundary value) :
    ceilTimestamp value unit = value :=
  le_antisymm (isCeil.2 ⟨boundary, le_rfl⟩) isCeil.1.2

end

/-- In the legal years the floor is the greatest boundary that is not later, and the ceiling
is the least one that is not earlier exactly where it is exact. So both are monotone and
idempotent, and equal exactly on boundaries, as far as the ceilings are exact. -/
theorem timestamp_rounding (unit : TimeUnit) {first second : ℤ} (legal : checkLegal first)
    (later : first ≤ second) :
    IsFloor first unit ∧ (IsCeil first unit ↔ unit.Exact first) ∧
      floorTimestamp first unit ≤ floorTimestamp second unit ∧
      floorTimestamp (floorTimestamp first unit) unit = floorTimestamp first unit ∧
      (unit.Exact first →
        (unit.Exact second → ceilTimestamp first unit ≤ ceilTimestamp second unit) ∧
        (unit.Exact (ceilTimestamp first unit) →
          ceilTimestamp (ceilTimestamp first unit) unit = ceilTimestamp first unit) ∧
        (ceilTimestamp first unit = floorTimestamp first unit ↔ unit.IsBoundary first)) := by
  have after : midnight 0 ≤ first := (year_nonneg_iff first).mp (by have := legal.1; omega)
  have rounds {value} (notBefore : first ≤ value) : Rounds value unit :=
    rounds value fun _ => after.trans notBefore
  have floor := (rounds le_rfl).isFloor
  have floorLater := (rounds later).isFloor
  refine ⟨floor, (rounds le_rfl).isCeil_iff, floorLater.2 ⟨floor.1.1, floor.1.2.trans later⟩, ?_,
    fun exactFirst => ?_⟩
  · -- The first decade, century and millennium begin with year 0, which is not legal.
    refine (Sqllib.rounds _ fun member => floor.2 ⟨⟨0, ?_⟩, after⟩).isFloor.eq_self floor.1.1
    simp only [List.mem_cons, List.not_mem_nil, or_false] at member
    rcases member with rfl | rfl | rfl <;> rfl
  · have ceil := (rounds le_rfl).isCeil_iff.mpr exactFirst
    refine ⟨fun exactLater => ?_, fun exactCeil => ?_, fun same => ?_, fun boundary => ?_⟩
    · have ceilLater := (rounds later).isCeil_iff.mpr exactLater
      exact ceil.2 ⟨ceilLater.1.1, later.trans ceilLater.1.2⟩
    · exact ((rounds ceil.1.2).isCeil_iff.mpr exactCeil).eq_self ceil.1.1
    · rw [← le_antisymm floor.1.2 (same ▸ ceil.1.2)]
      exact floor.1.1
    · rw [ceil.eq_self boundary, floor.eq_self boundary]

/-- The start of 1970 is rounded to the weeks around it. -/
theorem timestamp_rounding_epoch : checkLegal 0 ∧ IsFloor 0 .week ∧ IsCeil 0 .week := by
  have legal : checkLegal 0 := by unfold checkLegal; decide
  obtain ⟨isFloor, isCeil_iff, -⟩ := timestamp_rounding .week legal le_rfl
  exact ⟨legal, isFloor, isCeil_iff.mpr (by simp [TimeUnit.Exact])⟩

/-- One and a half milliseconds before 1970 are rounded up by more than one millisecond. -/
theorem ceil_millisecond_too_far : checkLegal (-1500) ∧ ceilTimestamp (-1500) .millisecond = 0 ∧
    TimeUnit.IsBoundary (-1000) .millisecond ∧ ¬IsCeil (-1500) .millisecond := by
  refine ⟨by unfold checkLegal; decide, by decide, ⟨-1, rfl⟩, ?_⟩
  rw [isCeil_millisecond_iff]
  decide

end OpenDera.Sqllib
