import OpenDera.Std.SortedMap

/-!
# Cursors

A cursor over keys in ascending order is the list of bindings it has not passed
yet: its head is the current position, the empty list is the position past the
end, and stepping takes the tail. The seeks below only ever move forward, so on a
sorted list each of them is a filter; that view is what the operators' proofs
use. A cursor travelling in descending order is the same thing over the dual
order.
-/

namespace OpenDera.Cursor

open List SortedMap

variable {K V : Type*} [LinearOrder K]

/-- Advance to the first key at or past `key`. -/
def seekKey (key : K) (cursor : List (K × V)) : List (K × V) :=
  cursor.dropWhile fun entry => entry.1 < key

variable (found : K → Bool)

/-- Advance to the first key that satisfies `found`. -/
def seekKeyWith (cursor : List (K × V)) : List (K × V) :=
  cursor.dropWhile fun entry => !found entry.1

variable (cursor : List (K × V))

omit [LinearOrder K] in
theorem length_seekKeyWith_le : (seekKeyWith found cursor).length ≤ cursor.length :=
  (dropWhile_sublist _).length_le

/-- Go back from the end to the last key that satisfies `found`. -/
def seekKeyWithReverse (cursor : List (K × V)) : Option (K × V) :=
  cursor.reverse.find? fun entry => found entry.1

omit [LinearOrder K] in
/-- A reverse seek finds the last of the entries that satisfy its condition. -/
theorem seekKeyWithReverse_eq_getLast? :
    seekKeyWithReverse found cursor = (cursor.filter fun entry => found entry.1).getLast? := by
  rw [seekKeyWithReverse, ← head?_reverse, ← filter_reverse, head?_filter]

/-- A descending cursor that has not passed the keys that satisfy `found` is moved to them,
if they are the smaller ones. -/
theorem seekKeyWith_reverse {entries : List (K × V)} (sorted : SortedMap.Sorted entries)
    {found : K → Bool} (closed : ∀ first second, first < second → found second → found first)
    {ahead : K × V → Bool} (notPast : ∀ entry, found entry.1 → ahead entry) :
    seekKeyWith found (entries.filter ahead).reverse =
      (entries.filter fun entry => found entry.1).reverse := by
  rw [seekKeyWith, dropWhile_reverse_eq_filter (sorted.filter _), filter_filter]
  · congr 1
    refine filter_congr fun entry _ => ?_
    rw [Bool.not_not, Bool.and_eq_left_iff_imp]
    exact notPast entry
  · intro first second below skipped
    rw [Bool.not_eq_true'] at skipped ⊢
    by_contra kept
    rw [Bool.not_eq_false] at kept
    simp [closed _ _ below kept] at skipped

variable {cursor} (sorted : SortedMap.Sorted cursor)

include sorted

theorem seekKey_eq_filter (key : K) :
    seekKey key cursor = cursor.filter fun entry => key ≤ entry.1 := by
  rw [seekKey, dropWhile_eq_filter sorted]
  · refine filter_congr fun entry _ => ?_
    rw [← decide_not, decide_eq_decide, not_lt]
  · intro first second below kept
    rw [decide_eq_true_iff] at kept ⊢
    exact below.trans kept

/-- Seeking with a predicate that stays true once it turned true skips exactly the
keys where it is false. -/
theorem seekKeyWith_eq_filter {found : K → Bool}
    (closed : ∀ first second, first < second → found first → found second) :
    seekKeyWith found cursor = cursor.filter fun entry => found entry.1 := by
  rw [seekKeyWith, dropWhile_eq_filter sorted]
  · simp
  · intro first second below kept
    simp only [Bool.not_eq_true'] at kept ⊢
    by_contra foundFirst
    rw [closed first.1 second.1 below (by simpa using foundFirst)] at kept
    exact Bool.noConfusion kept

/-- Seeking a key stops at its binding when there is one. -/
theorem lookup_eq_seekKey (key : K) : cursor.lookup key = match seekKey key cursor with
      | (found, value) :: _ => if found = key then some value else none
      | [] => none := by
  induction cursor with
  | nil => rfl
  | cons entry _ ih =>
    obtain ⟨found, value⟩ := entry
    rw [lookup_cons_ite]
    by_cases below : found < key
    · rw [if_neg below.ne', seekKey, dropWhile_cons_of_pos (by simpa using below)]
      exact ih sorted.tail
    · rw [seekKey, dropWhile_cons_of_neg (by simpa using below)]
      by_cases same : key = found
      · simp [same]
      · simp only [same, Ne.symm same, if_false]
        refine lookup_eq_none_of_lt fun other member => ?_
        exact lt_of_le_of_lt (not_lt.mp below) (sorted.head_lt member)

omit sorted

/-- A seek past an earlier seek forgets it. -/
theorem seekKey_seekKey {earlier later : K} (order : earlier ≤ later) (cursor : List (K × V)) :
    seekKey later (seekKey earlier cursor) = seekKey later cursor := by
  induction cursor with
  | nil => rfl
  | cons entry _ ih =>
    by_cases below : entry.1 < earlier
    · have belowLater := lt_of_lt_of_le below order
      simp only [seekKey] at ih ⊢
      rw [dropWhile_cons_of_pos (by simpa using below),
        dropWhile_cons_of_pos (by simpa using belowLater), ih]
    · simp only [seekKey]
      rw [dropWhile_cons_of_neg (by simpa using below)]

end OpenDera.Cursor
