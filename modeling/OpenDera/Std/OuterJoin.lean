import OpenDera.Std.SortedMap

/-!
# Walking two sorted maps jointly

`outerJoin` visits the keys of two association lists in one ascending pass and
pairs what each side binds to them. It is the walk of two cursors that step
together on equal keys; on sorted lists it is sorted, finds under every key what
the two lists find, and gives each list back when the other side is forgotten.
-/

namespace SortedMap

open List

variable {K First Second : Type*} [LinearOrder K]

/-- Walk the second list up to the key of one binding of the first, then go on with
`next`. -/
def outerJoinFrom (entry : K × First)
    (next : List (K × Second) → List (K × Option First × Option Second)) :
    List (K × Second) → List (K × Option First × Option Second)
  | [] => (entry.1, some entry.2, none) :: next []
  | other :: second =>
    if entry.1 < other.1 then
      (entry.1, some entry.2, none) :: next (other :: second)
    else if entry.1 = other.1 then
      (entry.1, some entry.2, some other.2) :: next second
    else
      (other.1, none, some other.2) :: outerJoinFrom entry next second

/-- All keys of either list with what each binds to them. -/
def outerJoin : List (K × First) → List (K × Second) →
    List (K × Option First × Option Second)
  | [] => fun second => second.map fun entry => (entry.1, none, some entry.2)
  | entry :: first => outerJoinFrom entry (outerJoin first)

section

variable (first : List (K × First))

include first

variable (entry : K × First)

theorem outerJoin_cons_nil : outerJoin (entry :: first) ([] : List (K × Second)) =
      (entry.1, some entry.2, none) :: outerJoin first [] := rfl

/-- One step of the walk, by the order of the two current keys. -/
theorem outerJoin_cons_cons (other : K × Second) (second : List (K × Second)) :
    outerJoin (entry :: first) (other :: second) =
      if entry.1 < other.1 then (entry.1, some entry.2, none) :: outerJoin first (other :: second)
      else if entry.1 = other.1 then
        (entry.1, some entry.2, some other.2) :: outerJoin first second
      else (other.1, none, some other.2) :: outerJoin (entry :: first) second := rfl

attribute [local simp] outerJoin_cons_cons

/-- Induction along the walk. -/
theorem outerJoin_induction {motive : List (K × First) → List (K × Second) → Prop}
    (nil : ∀ second, motive [] second)
    (consNil : ∀ entry first, motive first [] → motive (entry :: first) [])
    (less : ∀ first second firstRest secondRest, first.1 < second.1 →
      motive firstRest (second :: secondRest) →
      motive (first :: firstRest) (second :: secondRest))
    (equal : ∀ first second firstRest secondRest, first.1 = second.1 →
      motive firstRest secondRest → motive (first :: firstRest) (second :: secondRest))
    (greater : ∀ first second firstRest secondRest, second.1 < first.1 →
      motive (first :: firstRest) secondRest →
      motive (first :: firstRest) (second :: secondRest))
    (second : List (K × Second)) : motive first second := by
  induction first generalizing second with
  | nil => exact nil second
  | cons entry first firstIh =>
    induction second with
    | nil => exact consNil entry first (firstIh [])
    | cons other second secondIh =>
      rcases lt_trichotomy entry.1 other.1 with below | same | above
      · exact less entry other first second below (firstIh _)
      · exact equal entry other first second same (firstIh _)
      · exact greater entry other first second above secondIh

/-- Forgetting the first side gives the second list back. -/
theorem outerJoin_filterMap_second (second : List (K × Second)) :
    ((outerJoin first second).filterMap fun entry => entry.2.2.map fun value => (entry.1, value)) =
      second := by
  induction first, second using outerJoin_induction with
  | nil =>
    rw [outerJoin, filterMap_map]
    exact filterMap_some
  | consNil _ _ ih => simpa [outerJoin_cons_nil] using ih
  | less _ _ _ _ below ih =>
    simpa [below] using ih
  | equal _ _ _ _ same ih =>
    simpa [same] using ih
  | greater _ _ _ _ above ih =>
    simpa [above.not_gt, above.ne'] using ih

/-- Changing the values of the second list changes them in the walk. -/
theorem outerJoin_map_second {O : Type*} (change : Second → O) (second : List (K × Second)) :
    outerJoin first (second.map fun entry => (entry.1, change entry.2)) =
      (outerJoin first second).map fun entry => (entry.1, entry.2.1, entry.2.2.map change) := by
  induction first, second using outerJoin_induction with
  | nil => simp [outerJoin]
  | consNil _ _ ih => simpa [outerJoin_cons_nil] using ih
  | less _ _ _ _ below ih =>
    simpa [below] using ih
  | equal _ _ _ _ same ih =>
    simpa [same] using ih
  | greater _ _ _ _ above ih =>
    simpa [above.not_gt, above.ne'] using ih

end

variable {first : List (K × First)} {second : List (K × Second)}

/-- A key bound by neither list is not visited. -/
theorem mem_outerJoin_key {Bound : K → Prop} (firstBound : ∀ entry ∈ first, Bound entry.1)
    (secondBound : ∀ entry ∈ second, Bound entry.1) :
    ∀ entry ∈ outerJoin first second, Bound entry.1 := by
  induction first, second using outerJoin_induction with
  | nil =>
    intro entry member
    obtain ⟨other, otherMember, rfl⟩ := mem_map.mp member
    exact secondBound other otherMember
  | consNil _ _ ih =>
    rw [outerJoin_cons_nil]
    rw [forall_mem_cons] at firstBound ⊢
    exact ⟨firstBound.1, ih firstBound.2 secondBound⟩
  | less _ _ _ _ below ih =>
    rw [outerJoin_cons_cons, if_pos below]
    rw [forall_mem_cons] at firstBound ⊢
    exact ⟨firstBound.1, ih firstBound.2 secondBound⟩
  | equal _ _ _ _ same ih =>
    rw [outerJoin_cons_cons, if_neg same.not_lt, if_pos same]
    rw [forall_mem_cons] at firstBound secondBound ⊢
    exact ⟨firstBound.1, ih firstBound.2 secondBound.2⟩
  | greater _ _ _ _ above ih =>
    rw [outerJoin_cons_cons, if_neg above.not_gt, if_neg above.ne']
    rw [forall_mem_cons] at secondBound ⊢
    exact ⟨secondBound.1, ih firstBound secondBound.2⟩

/-- The walk of sorted lists is sorted. -/
theorem sorted_outerJoin (firstSorted : Sorted first) (secondSorted : Sorted second) :
    Sorted (outerJoin first second) := by
  induction first, second using outerJoin_induction with
  | nil => exact secondSorted.map_value fun value => (none, some value)
  | consNil _ _ ih =>
    rw [outerJoin_cons_nil, sorted_cons_iff]
    exact ⟨mem_outerJoin_key (fun _ => firstSorted.head_lt) (by simp),
      ih firstSorted.tail secondSorted⟩
  | less _ _ _ _ below ih =>
    rw [outerJoin_cons_cons, if_pos below, sorted_cons_iff]
    exact ⟨mem_outerJoin_key (fun _ => firstSorted.head_lt) (secondSorted.forall_lt below),
      ih firstSorted.tail secondSorted⟩
  | equal _ _ _ _ same ih =>
    rw [outerJoin_cons_cons, if_neg same.not_lt, if_pos same, sorted_cons_iff]
    refine ⟨mem_outerJoin_key (fun _ => firstSorted.head_lt) fun _ member => ?_,
      ih firstSorted.tail secondSorted.tail⟩
    exact same ▸ secondSorted.head_lt member
  | greater _ _ _ _ above ih =>
    rw [outerJoin_cons_cons, if_neg above.not_gt, if_neg above.ne', sorted_cons_iff]
    exact ⟨mem_outerJoin_key (firstSorted.forall_lt above) fun _ => secondSorted.head_lt,
      ih firstSorted secondSorted.tail⟩

/-- What two optional bindings of one key amount to in the walk. -/
def both (first : Option First) (second : Option Second) : Option (Option First × Option Second) :=
  match first, second with
  | none, none => none
  | first, second => some (first, second)

theorem eq_of_both_eq_some {first : Option First} {second : Option Second}
    {pair : Option First × Option Second} (found : both first second = some pair) :
    pair = (first, second) := by
  cases first <;> cases second <;> simp_all [both]

theorem both_eq_none_iff {first : Option First} {second : Option Second} :
    both first second = none ↔ first = none ∧ second = none := by
  cases first <;> cases second <;> simp [both]

/-- The walk finds under every key what the two lists find. -/
theorem lookup_outerJoin (firstSorted : Sorted first) (secondSorted : Sorted second) (key : K) :
    (outerJoin first second).lookup key = both (first.lookup key) (second.lookup key) := by
  induction first, second using outerJoin_induction with
  | nil second =>
    have mapped := lookup_map_value second (fun value => ((none : Option First), some value)) key
    rw [outerJoin, mapped]
    cases second.lookup key <;> rfl
  | consNil _ _ ih =>
    rw [outerJoin_cons_nil, lookup_cons_ite, ih firstSorted.tail secondSorted, lookup_cons_ite]
    split_ifs <;> rfl
  | less first second firstRest secondRest below ih =>
    rw [outerJoin_cons_cons, if_pos below, lookup_cons_ite, ih firstSorted.tail secondSorted,
      lookup_cons_ite key first.1 first.2]
    split_ifs with same
    · rw [lookup_eq_none_of_lt (secondSorted.forall_lt (same ▸ below))]
      rfl
    · rfl
  | equal _ _ _ _ same ih =>
    rw [outerJoin_cons_cons, if_neg same.not_lt, if_pos same, lookup_cons_ite,
      ih firstSorted.tail secondSorted.tail, lookup_cons_ite, lookup_cons_ite, same]
    split_ifs <;> rfl
  | greater first second firstRest secondRest above ih =>
    rw [outerJoin_cons_cons, if_neg above.not_gt, if_neg above.ne', lookup_cons_ite,
      ih firstSorted secondSorted.tail, lookup_cons_ite key second.1 second.2]
    split_ifs with same
    · rw [lookup_eq_none_of_lt (firstSorted.forall_lt (same ▸ above))]
      rfl
    · rfl

end SortedMap
