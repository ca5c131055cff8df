import Mathlib.Algebra.Ring.Divisibility.Basic
import OpenDera.Std.PrimInt

/-!
# Tumbling and hopping windows

`TUMBLE` rounds a timestamp down to the start of its window and `HOP` lists the starts
of all windows that contain it. Both subtract a remainder that has the sign of the
dividend, so a timestamp before the offset is rounded up, and `HOP` counts the windows
back from the size, so the size has to be a multiple of the period.
-/

namespace OpenDera.Sqllib

open Option PrimInt Int

def i64 : PrimInt := ⟨-2 ^ 63, 2 ^ 63 - 1, by decide, by decide⟩

/-! ## The functions

Timestamps and intervals are numbers of microseconds; an overflow gives no result. -/

def tumbleTimestampShortInterval (ts i : ℤ) : Option ℤ :=
  i64.checked (ts - ts.tmod i)

def tumbleTimestampShortIntervalShortInterval (ts i t : ℤ) : Option ℤ := do
  let ts ← i64.checked (ts - t)
  let round ← i64.checked (ts - ts.tmod i)
  i64.checked (round + t)

/-- The time of day is given in nanoseconds. -/
def tumbleTimestampShortIntervalTime (ts i : ℤ) (nanoseconds : ℕ) : Option ℤ :=
  tumbleTimestampShortIntervalShortInterval ts i (nanoseconds / 1000 : ℕ)

/-- Start of the first interval that contains `ts`. -/
def hopStart (ts period size start : ℤ) : Option ℤ := do
  let shifted ← i64.checked (ts - start)
  let rounded ← i64.checked (ts - shifted.tmod period)
  let next ← i64.checked (rounded + period)
  i64.checked (next - size)

/-- The loop of `hop`. -/
def hopFrom {period : ℤ} (positive : 0 < period) (size round add : ℤ) : Option (List ℤ) :=
  if add < size then do
    let start ← i64.checked (round + add)
    let _ ← i64.checked (add + period)
    let starts ← hopFrom positive size round (add + period)
    some (start :: starts)
  else some []
termination_by (size - add).toNat
decreasing_by omega

def hop (ts : ℤ) {period : ℤ} (positive : 0 < period) (size start : ℤ) : Option (List ℤ) := do
  let round ← hopStart ts period size start
  hopFrom positive size round 0

/-! ## Windows -/

/-- `start` starts a window of the given size that contains `ts`; the windows start at the
offset and then once every period. -/
def IsWindowStart (ts period size offset start : ℤ) : Prop :=
  start ≤ ts ∧ ts < start + size ∧ period ∣ start - offset

/-- The offset of windows: none, a time of day, or an interval. -/
inductive WindowOffset where
  | none
  | time (nanoseconds : ℕ)
  | interval (microseconds : ℤ)

namespace WindowOffset

def microseconds : WindowOffset → ℤ
  | none => 0
  | time nanoseconds => (nanoseconds / 1000 : ℕ)
  | interval microseconds => microseconds

/-- The overloads of `tumble`. -/
def tumble (ts i : ℤ) : WindowOffset → Option ℤ
  | none => tumbleTimestampShortInterval ts i
  | time nanoseconds => tumbleTimestampShortIntervalTime ts i nanoseconds
  | interval microseconds => tumbleTimestampShortIntervalShortInterval ts i microseconds

end WindowOffset

/-- `TUMBLE` returns the only start of a window that contains the timestamp. -/
def TumbleCorrect (ts size : ℤ) (offset : WindowOffset) : Prop :=
  ∀ start, offset.tumble ts size = some start ↔
    IsWindowStart ts size size offset.microseconds start

/-- `HOP` lists the starts of the windows that contain the timestamp, in order. -/
def HopCorrect (ts : ℤ) {period : ℤ} (positive : 0 < period) (size start : ℤ) : Prop :=
  ∃ starts, hop ts positive size start = some starts ∧ starts.Pairwise (· < ·) ∧
    ∀ first, first ∈ starts ↔ IsWindowStart ts period size start first

variable {ts period size offset round add start : ℤ} {positive : 0 < period}

theorem eq_of_tumble {offset : WindowOffset} (result : offset.tumble ts size = some start) :
    start = ts - (ts - offset.microseconds).tmod size := by
  cases offset with
  | none =>
    rw [WindowOffset.microseconds, sub_zero]
    exact (checked_eq_some.mp result).2.symm
  | time | interval =>
    simp only [WindowOffset.tumble, tumbleTimestampShortIntervalTime,
      tumbleTimestampShortIntervalShortInterval, bind_eq_bind, bind_eq_some_iff,
      checked_eq_some] at result
    obtain ⟨_, ⟨-, rfl⟩, _, ⟨-, rfl⟩, -, rfl⟩ := result
    rw [WindowOffset.microseconds]
    omega

theorem eq_of_hopStart (result : hopStart ts period size offset = some start) :
    start = ts - (ts - offset).tmod period + period - size := by
  simp only [hopStart, bind_eq_bind, bind_eq_some_iff, checked_eq_some] at result
  obtain ⟨_, ⟨-, rfl⟩, _, ⟨-, rfl⟩, _, ⟨-, rfl⟩, -, rfl⟩ := result
  rfl

variable {starts : List ℤ}

/-- The loop lists, in order, every period from where it starts up to the size. -/
theorem mem_hopFrom (result : hopFrom positive size round add = some starts) :
    starts.Pairwise (· < ·) ∧ ∀ start, start ∈ starts ↔
      round + add ≤ start ∧ start < round + size ∧ period ∣ start - (round + add) := by
  fun_induction hopFrom positive size round add generalizing starts with
  | case1 add _ ih =>
    simp only [bind_eq_bind, bind_eq_some_iff, checked_eq_some, some.injEq] at result
    obtain ⟨_, ⟨-, rfl⟩, _, -, rest, later, rfl⟩ := result
    obtain ⟨ordered, members⟩ := ih later
    refine ⟨List.pairwise_cons.mpr ⟨fun start member => ?_, ordered⟩, fun start => ?_⟩
    · have behind := ((members start).mp member).1
      omega
    · have shift : start - (round + (add + period)) = start - (round + add) - period := by omega
      rw [List.mem_cons, members, shift, dvd_sub_self_right]
      constructor
      · rintro (rfl | ⟨low, high, multiple⟩)
        · exact ⟨le_rfl, by omega, by simp⟩
        · exact ⟨by omega, high, multiple⟩
      · rintro ⟨low, high, multiple⟩
        rcases low.eq_or_lt with same | less
        · exact .inl same.symm
        · have next := le_of_dvd (by omega) multiple
          exact .inr ⟨by omega, high, multiple⟩
  | case2 =>
    obtain rfl := some.inj result
    refine ⟨List.Pairwise.nil, fun start => ⟨by simp, ?_⟩⟩
    omega

/-! ## When the windows are right -/

/-- The remainder is not negative exactly when rounding goes down. -/
theorem tmod_nonneg_iff {value divisor : ℤ} :
    0 ≤ value.tmod divisor ↔ 0 ≤ value ∨ divisor ∣ value := by
  constructor
  · intro nonneg
    by_contra neither
    push Not at neither
    have negative : value.tmod divisor ≤ 0 := by
      have nonneg := tmod_nonneg divisor (neg_nonneg.mpr neither.1.le)
      rw [neg_tmod] at nonneg
      exact neg_nonneg.mp nonneg
    exact neither.2 (dvd_of_tmod_eq_zero (le_antisymm negative nonneg))
  · rintro (nonneg | multiple)
    · exact tmod_nonneg _ nonneg
    · rw [tmod_eq_zero_of_dvd multiple]

/-- `TUMBLE` is right exactly from the offset on and at the boundaries before it. -/
theorem tumbleCorrect_iff {offset : WindowOffset} (sizePositive : 0 < size)
    (result : offset.tumble ts size = some start) : TumbleCorrect ts size offset ↔
      offset.microseconds ≤ ts ∨ size ∣ ts - offset.microseconds := by
  rw [← sub_nonneg, ← tmod_nonneg_iff]
  have less := tmod_lt_of_pos (ts - offset.microseconds) sizePositive
  have aligned : size ∣ ts - offset.microseconds -
      (ts - offset.microseconds).tmod size := dvd_self_sub_tmod
  have rounded := eq_of_tumble result
  constructor
  · intro correct
    have below := ((correct start).mp result).1
    omega
  · intro nonneg other
    rw [result, some.injEq]
    constructor
    · rintro rfl
      refine ⟨by omega, by omega, ?_⟩
      rwa [rounded, sub_right_comm]
    · rintro ⟨low, high, multiple⟩
      have apart := dvd_sub multiple aligned
      have same := eq_zero_of_abs_lt_dvd apart (abs_lt.mpr ⟨by omega, by omega⟩)
      omega

/-- `HOP` is right exactly if the size is a multiple of the period, from the offset on and at
the boundaries before it. -/
theorem hopCorrect_iff (sizePositive : 0 < size) (result : hop ts positive size offset = some starts) :
    HopCorrect ts positive size offset ↔
      period ∣ size ∧ (offset ≤ ts ∨ period ∣ ts - offset) := by
  have only : HopCorrect ts positive size offset ↔ starts.Pairwise (· < ·) ∧
      ∀ start, start ∈ starts ↔ IsWindowStart ts period size offset start := by
    simp [HopCorrect, result]
  rw [only, ← sub_nonneg, ← tmod_nonneg_iff]
  simp only [hop, bind_eq_bind, bind_eq_some_iff] at result
  obtain ⟨round, rounds, listed⟩ := result
  obtain ⟨ordered, members⟩ := mem_hopFrom listed
  have first := eq_of_hopStart rounds
  have less := tmod_lt_of_pos (ts - offset) positive
  have aligned : period ∣ ts - offset - (ts - offset).tmod period := dvd_self_sub_tmod
  generalize (ts - offset).tmod period = remainder at first less aligned ⊢
  simp only [add_zero] at members
  constructor
  · rintro ⟨-, correct⟩
    have multiple : period ∣ size := by
      have inside := (correct round).mp ((members round).mpr ⟨le_rfl, by omega, by simp⟩)
      have apart := dvd_sub aligned inside.2.2
      rw [show ts - offset - remainder - (round - offset) = size - period by omega] at apart
      exact dvd_sub_self_right.mp apart
    have larger := le_of_dvd sizePositive multiple
    have inside := (correct (ts - remainder)).mp ((members _).mpr ⟨by omega, by omega, by
      rw [show ts - remainder - round = size - period by omega]
      exact dvd_sub_self_right.mpr multiple⟩)
    exact ⟨multiple, by have below := inside.1; omega⟩
  · rintro ⟨multiple, nonneg⟩
    refine ⟨ordered, fun start => ?_⟩
    have aside : period ∣ start - offset ↔ period ∣ start - (ts - remainder) := by
      rw [show start - (ts - remainder) = start - offset - (ts - offset - remainder) by omega]
      exact (dvd_sub_left aligned).symm
    have behind : period ∣ start - round ↔ period ∣ start - (ts - remainder) := by
      rw [show start - round = start - (ts - remainder) + (size - period) by omega]
      exact dvd_add_left (dvd_sub_self_right.mpr multiple)
    rw [members, IsWindowStart, aside, behind]
    constructor
    · rintro ⟨low, high, apart⟩
      by_contra above
      have next := le_of_dvd (by omega) apart
      omega
    · rintro ⟨low, high, apart⟩
      have next := le_of_dvd (by omega) (dvd_add apart multiple)
      exact ⟨by omega, by omega, apart⟩

/-- A later timestamp has no earlier first window. -/
theorem hopStart_le {later laterStart : ℤ} (positive : 0 < period) (order : ts ≤ later)
    (starts : hopStart ts period size offset = some start)
    (laterStarts : hopStart later period size offset = some laterStart) : start ≤ laterStart := by
  have rounded := mul_le_mul_of_nonneg_left
    (Int.tdiv_le_tdiv positive (sub_le_sub_right order offset)) positive.le
  have split := mul_tdiv_add_tmod (ts - offset) period
  have laterSplit := mul_tdiv_add_tmod (later - offset) period
  rw [eq_of_hopStart starts, eq_of_hopStart laterStarts]
  omega

/-- The first window is the one that `hopStart` computes. -/
theorem hop_eq_cons (result : hop ts positive size offset = some (start :: starts)) :
    hopStart ts period size offset = some start := by
  simp only [hop, bind_eq_bind, bind_eq_some_iff] at result
  obtain ⟨round, rounds, listed⟩ := result
  rw [hopFrom] at listed
  split at listed
  case isTrue =>
    simp only [bind_eq_bind, bind_eq_some_iff, checked_eq_some, some.injEq,
      List.cons.injEq] at listed
    obtain ⟨_, ⟨-, rfl⟩, _, -, _, -, rfl, -⟩ := listed
    rwa [add_zero]
  case isFalse => cases listed

/-- Where nothing overflows, `TUMBLE` and `HOP` are right each exactly under its own condition.
What `HOP` lists first is always the start that `hopStart` computes, and this start never goes
back as time goes on. -/
theorem windows_correct_iff (positive : 0 < period) (sizePositive : 0 < size) (ts : ℤ)
    (offset : WindowOffset) (start : ℤ) :
    ((offset.tumble ts size).isSome → (TumbleCorrect ts size offset ↔
      offset.microseconds ≤ ts ∨ size ∣ ts - offset.microseconds)) ∧
    ((hop ts positive size start).isSome → (HopCorrect ts positive size start ↔
      period ∣ size ∧ (start ≤ ts ∨ period ∣ ts - start))) ∧
    (∀ first later, hop ts positive size start = some (first :: later) →
      hopStart ts period size start = some first) ∧
    ∀ later first laterFirst, ts ≤ later → hopStart ts period size start = some first →
      hopStart later period size start = some laterFirst → first ≤ laterFirst := by
  refine ⟨fun tumbled => ?_, fun hopped => ?_, fun _ _ => hop_eq_cons,
    fun _ _ _ => hopStart_le positive⟩
  · obtain ⟨_, tumbled⟩ := isSome_iff_exists.mp tumbled
    exact tumbleCorrect_iff sizePositive tumbled
  · obtain ⟨_, hopped⟩ := isSome_iff_exists.mp hopped
    exact hopCorrect_iff sizePositive hopped

/-- One microsecond after 1970 with a period and size of two microseconds. -/
theorem windows_correct_one :
    TumbleCorrect 1 2 .none ∧ HopCorrect 1 (by decide : (0 : ℤ) < 2) 2 0 := by
  have correct := windows_correct_iff (by decide : (0 : ℤ) < 2) (by decide : (0 : ℤ) < 2) 1 .none 0
  exact ⟨(correct.1 (by decide)).mpr (by decide),
    (correct.2.1 (by simp [hop, hopFrom, hopStart]; decide)).mpr (by decide)⟩

/-- One microsecond before 1970 is put into the window that starts in 1970, and of the windows
of 15 microseconds every 10 microseconds the one that starts at 5 is listed. -/
theorem windows_misplaced :
    ¬TumbleCorrect (-1) 2 .none ∧ ¬HopCorrect 12 (by decide : (0 : ℤ) < 10) 15 0 := by
  constructor
  · intro correct
    have late := ((correct 0).mp (by decide)).1
    exact absurd late (by decide)
  · have listed : hop 12 (by decide : (0 : ℤ) < 10) 15 0 = some [5, 15] := by
      simp [hop, hopFrom, hopStart]
      decide
    rw [hopCorrect_iff (by decide) listed]
    decide

end OpenDera.Sqllib
