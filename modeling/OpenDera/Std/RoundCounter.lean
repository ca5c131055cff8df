import Mathlib.Algebra.Order.BigOperators.Group.List
import Mathlib.Algebra.Order.Ring.Nat
import Mathlib.Data.List.Nodup

/-!
# Counters of a round

A counter that every party of a round increments once and that one of them sets back to
zero when it has reached the number of parties. Parties may report for the next round
before the last report of the others has been noticed, so what the counter shows is the
number of all reports less the rounds that were collected.
-/

namespace RoundCounter

open List

variable {Party : Type*} {parties : List Party} {reports : Party → Nat} {rounds counter : Nat}

/-- The counter shows the reports of the parties that no collected round has used. -/
def Counts (parties : List Party) (reports : Party → Nat) (rounds counter : Nat) : Prop :=
  counter + parties.length * rounds = (parties.map reports).sum

section

variable (bounded : ∀ party ∈ parties, reports party ≤ rounds + 1)

include bounded

/-- Reports that are at most one round ahead sum up to a full round exactly if every
party has reported. -/
theorem sum_eq_iff : (parties.map reports).sum = parties.length * (rounds + 1) ↔
      ∀ party ∈ parties, reports party = rounds + 1 := by
  have atMost : ∀ some : List Party, (∀ party ∈ some, reports party ≤ rounds + 1) →
      (some.map reports).sum ≤ some.length * (rounds + 1) := by
    intro some bounded
    simpa using sum_le_card_nsmul (some.map reports) (rounds + 1) (by simpa using bounded)
  induction parties with
  | nil => simp
  | cons party rest ih =>
    have here := bounded party mem_cons_self
    have later : ∀ other ∈ rest, reports other ≤ rounds + 1 :=
      fun other member => bounded other (mem_cons_of_mem _ member)
    have sums := atMost rest later
    simp only [map_cons, sum_cons, length_cons, Nat.succ_mul, forall_mem_cons, ← ih later]
    omega

/-- The counter has reached the number of parties exactly if every party has reported
for the round. -/
theorem Counts.full_iff (counts : Counts parties reports rounds counter) :
    counter = parties.length ↔ ∀ party ∈ parties, reports party = rounds + 1 := by
  rw [← sum_eq_iff bounded, ← counts, Nat.mul_succ]
  omega

end

/-- Collecting a full round sets the counter back to zero. -/
theorem Counts.collect (counts : Counts parties reports rounds counter)
    (full : counter = parties.length) : Counts parties reports (rounds + 1) 0 := by
  rw [Counts, ← counts, full, Nat.mul_succ]
  omega

section

variable [DecidableEq Party]

/-- One more report of a party. -/
def report (reports : Party → Nat) (party : Party) : Party → Nat :=
  Function.update reports party (reports party + 1)

theorem report_apply (reports : Party → Nat) (party other : Party) :
    report reports party other = reports other + if other = party then 1 else 0 := by
  by_cases same : other = party
  · subst same
    simp [report]
  · simp [report, same]

/-- One more report of a party in one of several groups. -/
def reportIn {Group : Type*} [DecidableEq Group] (reports : Group → Party → Nat) (group : Group)
    (party : Party) : Group → Party → Nat :=
  Function.update reports group (report (reports group) party)

section

variable {Group : Type*} [DecidableEq Group] (reports : Group → Party → Nat) {group other : Group}
  (party : Party)

theorem reportIn_self : reportIn reports group party group = report (reports group) party :=
  Function.update_self ..

theorem reportIn_of_ne (different : other ≠ group) :
    reportIn reports group party other = reports other :=
  Function.update_of_ne different ..

theorem reportIn_apply (someone : Party) : reportIn reports group party other someone =
      reports other someone + if other = group ∧ someone = party then 1 else 0 := by
  by_cases same : other = group
  · subst same
    simp [reportIn_self, report_apply]
  · simp [reportIn_of_ne reports party same, same]

theorem le_reportIn (someone : Party) :
    reports other someone ≤ reportIn reports group party other someone := by
  rw [reportIn_apply]
  exact Nat.le_add_right _ _

/-- A report of a party that is below its bound keeps the bounds of all. -/
theorem reportIn_le {someone : Party} {bound : Nat} (bounded : reports other someone ≤ bound)
    (below : other = group → someone = party → reports other someone < bound) :
    reportIn reports group party other someone ≤ bound := by
  rw [reportIn_apply]
  split
  case isTrue same => exact below same.1 same.2
  case isFalse => exact bounded

end

variable (counts : Counts parties reports rounds counter)

include counts

/-- A report of one of the parties increments the counter. -/
theorem Counts.report (nodup : parties.Nodup) {party : Party} (member : party ∈ parties) :
    Counts parties (report reports party) rounds (counter + 1) := by
  have indicator : ∀ some : List Party,
      (some.map fun other => if other = party then 1 else 0).sum = some.count party := by
    intro some
    induction some with
    | nil => rfl
    | cons _ _ ih =>
      rw [map_cons, sum_cons, ih, count_cons, Nat.add_comm]
      simp
  have sum : (parties.map (RoundCounter.report reports party)).sum =
      (parties.map reports).sum + parties.count party := by
    rw [← indicator, ← sum_map_add]
    exact congrArg _ (map_congr_left fun other _ => report_apply reports party other)
  rw [Counts, sum, ← counts, count_eq_one_of_mem nodup member]
  omega

theorem Counts.report_of_notMem {party : Party}
    (notMember : party ∉ parties) : Counts parties (RoundCounter.report reports party) rounds counter := by
  rw [Counts, map_congr_left (g := reports)]
  · exact counts
  · intro other member
    have different : other ≠ party := fun same => notMember (same ▸ member)
    simp [report_apply, different]

end

end RoundCounter
