import OpenDera.Std.OuterJoin
import OpenDera.Std.ZSet

/-!
# Adding Z-sets in one pass

Two ascending lists of weighted elements are added by walking them jointly:
weights of elements on both sides add up and elements whose weights cancel are
skipped. On the entries of Z-sets this is addition, and it can be cut at any
element, which is what cursors that start in the middle of a group rely on.
-/

namespace ZSet

variable {α : Type*} [LinearOrder α]

/-- The weight two optional weights of one element add up to, if it is not zero. -/
def addWeights (first second : Option ℤ) : Option ℤ :=
  let total := first.getD 0 + second.getD 0
  if total = 0 then none else some total

/-- Add two ascending lists of weighted elements. -/
def sumEntries (first second : List (α × ℤ)) : List (α × ℤ) :=
  (SortedMap.outerJoin first second).filterMap fun entry =>
    (addWeights entry.2.1 entry.2.2).map fun weight => (entry.1, weight)

end ZSet

namespace SortedMap

variable {K V O : Type*} [LinearOrder K] {entries : List (K × V)}

theorem sorted_filterMap_value (sorted : Sorted entries) (change : V → Option O) :
    Sorted (entries.filterMap fun entry => (change entry.2).map fun value => (entry.1, value)) := by
  refine List.Pairwise.filterMap _ ?_ sorted
  intro first second below changedFirst firstChanged changedSecond secondChanged
  obtain ⟨_, _, rfl⟩ := Option.map_eq_some_iff.mp firstChanged
  obtain ⟨_, _, rfl⟩ := Option.map_eq_some_iff.mp secondChanged
  exact below

/-- Changing or dropping bindings acts on what lookup finds. -/
theorem lookup_filterMap_value (sorted : Sorted entries) (change : V → Option O) (key : K) :
    (entries.filterMap fun entry => (change entry.2).map fun value => (entry.1, value)).lookup key =
      (entries.lookup key).bind change := by
  ext value
  rw [← mem_iff_lookup (sorted_filterMap_value sorted change), List.mem_filterMap,
    Option.bind_eq_some_iff]
  constructor
  · rintro ⟨entry, member, changed⟩
    obtain ⟨_, changedValue, same⟩ := Option.map_eq_some_iff.mp changed
    obtain ⟨rfl, rfl⟩ := Prod.mk.inj same
    exact ⟨entry.2, (mem_iff_lookup sorted).mp member, changedValue⟩
  · rintro ⟨old, found, changed⟩
    exact ⟨(key, old), (mem_iff_lookup sorted).mpr found, by simp [changed]⟩

end SortedMap

namespace ZSet

variable {α : Type*} [LinearOrder α] {first second : List (α × ℤ)}

theorem sorted_sumEntries (firstSorted : SortedMap.Sorted first)
    (secondSorted : SortedMap.Sorted second) : SortedMap.Sorted (sumEntries first second) :=
  SortedMap.sorted_filterMap_value (SortedMap.sorted_outerJoin firstSorted secondSorted)
    fun entry => addWeights entry.1 entry.2

open SortedMap

theorem lookup_sumEntries (firstSorted : SortedMap.Sorted first)
    (secondSorted : SortedMap.Sorted second) (element : α) :
    (sumEntries first second).lookup element =
      addWeights (first.lookup element) (second.lookup element) := by
  have found := lookup_filterMap_value
    (SortedMap.sorted_outerJoin firstSorted secondSorted)
    (fun entry => addWeights entry.1 entry.2) element
  rw [sumEntries, found, lookup_outerJoin firstSorted secondSorted]
  cases first.lookup element <;> cases second.lookup element <;>
    simp [both, addWeights]

theorem entries_add (first second : ZSet α) :
    (first + second).entries = sumEntries first.entries second.entries := by
  refine eq_of_lookup_eq (first + second).sorted
    (sorted_sumEntries first.sorted second.sorted) fun element => ?_
  rw [lookup_sumEntries first.sorted second.sorted, lookup_eq, weight_add, addWeights,
    ← weight_eq_lookup, ← weight_eq_lookup]

/-- The pass may be restricted to any set of elements. -/
theorem sumEntries_filter (firstSorted : SortedMap.Sorted first)
    (secondSorted : SortedMap.Sorted second) (keep : α → Bool) :
    sumEntries (first.filter fun entry => keep entry.1) (second.filter fun entry => keep entry.1) =
      (sumEntries first second).filter fun entry => keep entry.1 := by
  have sorted := sorted_sumEntries firstSorted secondSorted
  refine eq_of_lookup_eq
    (sorted_sumEntries (firstSorted.filter _) (secondSorted.filter _)) (sorted.filter _)
    fun element => ?_
  rw [lookup_sumEntries (firstSorted.filter _) (secondSorted.filter _),
    lookup_filter_key firstSorted, lookup_filter_key secondSorted,
    lookup_filter_key sorted, lookup_sumEntries firstSorted secondSorted]
  split_ifs <;> rfl

theorem sumEntries_nil_left (nonzero : ∀ entry ∈ second, entry.2 ≠ 0) :
    sumEntries [] second = second := by
  rw [sumEntries, SortedMap.outerJoin, List.filterMap_map]
  induction second with
  | nil => rfl
  | cons _ _ ih =>
    rw [List.forall_mem_cons] at nonzero
    rw [List.filterMap_cons, ih nonzero.2]
    simp [addWeights, nonzero.1]

end ZSet
