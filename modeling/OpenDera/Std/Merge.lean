import Mathlib.Order.Lattice
import Mathlib.Tactic.Common

/-!
# Merging several sequences by rank

A merge repeatedly takes the item of least rank among the current items of several
sequences; on equal ranks the earliest sequence goes first. `minBy` is the selection,
`advance` moves the selected sequence on and `merge` iterates the two. `Picks` describes one
selection by the shape it cuts the sequences into, which every induction over a merge uses.
A merge of sorted sequences is sorted and keeps the order of items of equal rank, but the
rank may also be finer than the order the sequences are sorted by.
-/

namespace Merge

open List

section

variable {I Rank : Type*} [LinearOrder Rank] (rank : I → Rank)

/-- A nonempty sequence: its current item and the items after it. -/
abbrev Slice (I : Type*) := I × List I

/-- Position and value of the first item of least rank. -/
def minBy : List I → Option (Nat × I)
  | [] => none
  | item :: items =>
    match minBy items with
    | none => some (0, item)
    | some (index, best) =>
      if rank best < rank item then some (index + 1, best) else some (0, item)

variable (slices : List (Slice I))

/-- Move the slice at `index` to its next item, dropping it at its end. -/
def advance (index : Nat) : List (Slice I) := match slices[index]? with
  | some (_, next :: rest) => slices.set index (next, rest)
  | _ => slices.eraseIdx index

/-- Take items in rank order, at most `fuel` of them. -/
def merge : Nat → List (Slice I) → List I
  | 0, _ => []
  | fuel + 1, slices =>
    match minBy rank (slices.map Prod.fst) with
    | none => []
    | some (index, item) => item :: merge fuel (advance slices index)

/-- A sequence as a slice, nothing when it is empty. -/
def toSlice : List I → Option (Slice I)
  | [] => none
  | item :: items => some (item, items)

/-- All items of all slices, slice by slice. -/
def contents : List I := slices.flatMap fun slice => slice.1 :: slice.2

@[simp] theorem contents_append (first second : List (Slice I)) :
    contents (first ++ second) = contents first ++ contents second :=
  flatMap_append

@[simp] theorem contents_cons (slice : Slice I) (slices : List (Slice I)) :
    contents (slice :: slices) = slice.1 :: slice.2 ++ contents slices :=
  flatMap_cons

@[simp] theorem contents_toSlice (items : List I) : contents (toSlice items).toList = items := by
  cases items <;> simp [toSlice, contents]

/-- Slicing the nonempty sequences loses no item. -/
theorem contents_filterMap_toSlice (sequences : List (List I)) :
    contents (sequences.filterMap toSlice) = sequences.flatten := by
  induction sequences with
  | nil => rfl
  | cons items _ ih =>
    cases items with
    | nil | cons => simpa [toSlice, filterMap_cons] using ih

/-- Taking `item` from `slices` leaves `remaining`: the item heads the first slice
whose head has the least rank. -/
structure Picks (item : I) (remaining : List (Slice I)) : Prop where
  split : ∃ before rest after, slices = before ++ (item, rest) :: after ∧
    remaining = before ++ (toSlice rest).toList ++ after ∧
    (∀ slice ∈ before, rank item < rank slice.1) ∧ ∀ slice ∈ after, rank item ≤ rank slice.1

theorem minBy_eq_none_iff {items : List I} : minBy rank items = none ↔ items = [] := by
  cases items with
  | nil => simp [minBy]
  | cons =>
    simp only [minBy, reduceCtorEq, iff_false]
    split
    · simp
    · split_ifs <;> simp

variable {slices}

/-- Nothing stands before the selected item in the rank of the selection. -/
theorem Picks.le_heads {item : I} {remaining : List (Slice I)}
    (picks : Picks rank slices item remaining) : ∀ slice ∈ slices, rank item ≤ rank slice.1 := by
  obtain ⟨before, rest, after, rfl, rfl, greater, notLess⟩ := picks.split
  exact forall_mem_append.mpr
    ⟨fun slice member => (greater slice member).le, forall_mem_cons.mpr ⟨le_rfl, notLess⟩⟩

/-- The selected item stands at the selected position, after items of greater rank only. -/
theorem minBy_split {index : Nat} {best : I}
    (found : minBy rank (slices.map Prod.fst) = some (index, best)) :
    ∃ before rest after, slices = before ++ (best, rest) :: after ∧ before.length = index ∧
      (∀ slice ∈ before, rank best < rank slice.1) ∧
      ∀ slice ∈ after, rank best ≤ rank slice.1 := by
  induction slices generalizing index best with
  | nil => simp [minBy] at found
  | cons slice slices ih =>
    obtain ⟨item, rest⟩ := slice
    simp only [map_cons, minBy] at found
    split at found
    · next empty =>
        obtain ⟨rfl, rfl⟩ := Prod.mk.inj (Option.some.inj found)
        rw [minBy_eq_none_iff, map_eq_nil_iff] at empty
        exact ⟨[], rest, slices, rfl, rfl, by simp, by simp [empty]⟩
    · next tailFound =>
        obtain ⟨before, rest', after, rfl, rfl, greater, notLess⟩ := ih tailFound
        split_ifs at found with below
        · obtain ⟨rfl, rfl⟩ := Prod.mk.inj (Option.some.inj found)
          exact ⟨(item, rest) :: before, rest', after, rfl, rfl,
            forall_mem_cons.mpr ⟨below, greater⟩, notLess⟩
        · obtain ⟨rfl, rfl⟩ := Prod.mk.inj (Option.some.inj found)
          refine ⟨[], rest, _, rfl, rfl, by simp, fun slice member => (not_lt.mp below).trans ?_⟩
          exact Picks.le_heads rank ⟨_, _, _, rfl, rfl, greater, notLess⟩ slice member

theorem advance_append (before after : List (Slice I)) (item : I) (rest : List I) :
    advance (before ++ (item, rest) :: after) before.length =
      before ++ (toSlice rest).toList ++ after := by
  cases rest with
  | nil => simp [advance, toSlice, eraseIdx_append_of_length_le]
  | cons => simp [advance, toSlice]

/-- Every merge of something takes an item by `Picks` and goes on with the rest. -/
theorem merge_succ (fuel : Nat) (nonempty : slices ≠ []) :
    ∃ item remaining, Picks rank slices item remaining ∧
      merge rank (fuel + 1) slices = item :: merge rank fuel remaining := by
  cases found : minBy rank (slices.map Prod.fst) with
  | none => simp [minBy_eq_none_iff, nonempty] at found
  | some selected =>
    obtain ⟨index, item⟩ := selected
    obtain ⟨before, rest, after, rfl, rfl, greater, notLess⟩ := minBy_split rank found
    refine ⟨item, _, ⟨before, rest, after, rfl, rfl, greater, notLess⟩, ?_⟩
    simp only [merge, found]
    rw [advance_append]

@[simp] theorem merge_nil (fuel : Nat) : merge rank fuel [] = [] := by
  cases fuel <;> simp [merge, minBy]

theorem Picks.length_contents {remaining : List (Slice I)} {item : I}
    (picks : Picks rank slices item remaining) :
    (contents slices).length = (contents remaining).length + 1 := by
  obtain ⟨before, rest, after, rfl, rfl, _, _⟩ := picks.split
  simp
  omega

end

/-! ## The order a merge produces -/

variable {I Rank Fine : Type*} [LinearOrder Rank] [LinearOrder Fine] (rank : I → Rank)

/-- Every slice lists its items by ascending rank. -/
def SortedSlices (slices : List (Slice I)) : Prop :=
  ∀ slice ∈ slices, (slice.1 :: slice.2).Pairwise fun first second => rank first ≤ rank second

variable (fine : I → Fine)

/-- No item of `earlier` has to give way to the first item of its rank in `later`. -/
def Precedes (earlier later : List I) : Prop :=
  ∀ item ∈ earlier, ∀ head ∈ later.find? (fun other => rank other = rank item),
    fine item ≤ fine head

/-- Every sequence precedes every later one. -/
def Aligned (sequences : List (List I)) : Prop :=
  sequences.Pairwise (Precedes rank fine)

/-- The items of a slice as a sequence. -/
def Slice.items (slice : Slice I) : List I := slice.1 :: slice.2

variable {rank} {fine} {slices remaining : List (Slice I)} {item : I}

/-- Nothing in a sorted sequence ranks above its last item. -/
theorem le_getLast {items : List I} {last : I}
    (sorted : items.Pairwise fun first second => rank first ≤ rank second)
    (isLast : items.getLast? = some last) (member : item ∈ items) : rank item ≤ rank last := by
  obtain ⟨earlier, rfl⟩ := getLast?_eq_some_iff.mp isLast
  rcases mem_append.mp member with member | member
  · exact (pairwise_append.mp sorted).2.2 item member last (by simp)
  · rw [mem_singleton.mp member]

theorem head_le {head : I} {tail : List I}
    (sorted : (head :: tail).Pairwise fun first second => rank first ≤ rank second)
    (member : item ∈ head :: tail) : rank head ≤ rank item := by
  rcases mem_cons.mp member with rfl | member
  · exact le_rfl
  · exact rel_of_pairwise_cons sorted member

section

variable {first second : List I} (same : ∀ wanted,
  first.filter (fun item => rank item = wanted) = second.filter fun item => rank item = wanted)

include same

private theorem mem_iff_of_filter_eq (item : I) : item ∈ first ↔ item ∈ second := by
  have member := congrArg (item ∈ ·) (same (rank item))
  simpa [mem_filter] using member

/-- Sorted sequences with the same items of every rank, in the same order, are equal. -/
theorem eq_of_filter_eq (firstSorted : first.Pairwise fun first second => rank first ≤ rank second)
    (secondSorted : second.Pairwise fun first second => rank first ≤ rank second) :
    first = second := by
  induction first generalizing second with
  | nil =>
    rw [eq_comm, eq_nil_iff_forall_not_mem]
    exact fun item member => by simpa using (mem_iff_of_filter_eq same item).mpr member
  | cons item first ih =>
    cases second with
    | nil => simpa using (mem_iff_of_filter_eq same item).mp mem_cons_self
    | cons other =>
      -- Both heads have the least rank, so each is the first item of that rank.
      have sameRank : rank other = rank item := le_antisymm
        (head_le secondSorted ((mem_iff_of_filter_eq same item).mp mem_cons_self))
        (head_le firstSorted ((mem_iff_of_filter_eq same other).mpr mem_cons_self))
      have heads := same (rank item)
      rw [filter_cons_of_pos (by simp), filter_cons_of_pos (by simp [sameRank])]
        at heads
      obtain ⟨rfl, sameTail⟩ := cons.inj heads
      refine congrArg (item :: ·) (ih (fun wanted => ?_) firstSorted.of_cons secondSorted.of_cons)
      by_cases wantedHead : rank item = wanted
      · exact wantedHead ▸ sameTail
      · simpa [wantedHead] using same wanted

end

variable {other : I} (sorted : SortedSlices rank slices)

include sorted

theorem SortedSlices.head_le {slice : Slice I} (member : slice ∈ slices) (inside : other ∈ slice.1 :: slice.2) :
    rank slice.1 ≤ rank other :=
  Merge.head_le (sorted slice member) inside

/-- A selection leaves sorted slices. -/
theorem Picks.sortedSlices (picks : Picks fine slices item remaining) : SortedSlices rank remaining := by
  obtain ⟨before, rest, after, rfl, rfl, _, _⟩ := picks.split
  intro slice member
  simp only [mem_append, Option.mem_toList] at member
  rcases member with (member | member) | member
  · exact sorted slice (by simp [member])
  · cases rest with
    | nil => simp [toSlice] at member
    | cons next rest =>
      obtain rfl : (next, rest) = slice := by simpa [toSlice] using member
      exact (sorted (item, next :: rest) (by simp)).of_cons
  · exact sorted slice (by simp [member])

section

variable (refines : ∀ first second, rank first < rank second → fine first < fine second)

include refines

omit sorted in
theorem rank_le_of_fine_le {first second : I} (order : fine first ≤ fine second) :
    rank first ≤ rank second :=
  not_lt.mp fun below => absurd (refines second first below) (not_lt.mpr order)

/-- The selected item ranks below everything that is left. -/
theorem Picks.le_contents (picks : Picks fine slices item remaining) : ∀ other ∈ contents slices, rank item ≤ rank other := by
  intro other member
  obtain ⟨slice, sliceMember, inside⟩ := mem_flatMap.mp member
  have least := rank_le_of_fine_le refines (picks.le_heads _ slice sliceMember)
  exact least.trans (sorted.head_le sliceMember inside)

omit refines sorted in
theorem Picks.mem_contents (picks : Picks fine slices item remaining) :
    other ∈ contents slices ↔ other = item ∨ other ∈ contents remaining := by
  obtain ⟨before, rest, after, rfl, rfl, _, _⟩ := picks.split
  simp only [contents_append, contents_cons, contents_toSlice, mem_append, mem_cons]
  tauto

omit refines sorted in
theorem mem_contents_of_mem_merge {fuel : Nat}
    (member : other ∈ merge fine fuel slices) : other ∈ contents slices := by
  induction fuel generalizing slices with
  | zero => simp [merge] at member
  | succ fuel ih =>
    rcases eq_or_ne slices [] with rfl | nonempty
    · simp at member
    · obtain ⟨item, remaining, picks, merged⟩ := merge_succ fine fuel nonempty
      rw [merged] at member
      rw [picks.mem_contents]
      exact (mem_cons.mp member).imp_right ih

/-- The merge of sorted slices is sorted. -/
theorem merge_sorted (fuel : Nat) :
    (merge fine fuel slices).Pairwise fun first second => rank first ≤ rank second := by
  induction fuel generalizing slices with
  | zero => simp [merge]
  | succ fuel ih =>
    rcases eq_or_ne slices [] with rfl | nonempty
    · simp
    · obtain ⟨item, remaining, picks, merged⟩ := merge_succ fine fuel nonempty
      rw [merged]
      refine pairwise_cons.mpr ⟨?_, ih (picks.sortedSlices sorted)⟩
      intro other member
      refine picks.le_contents sorted refines other ?_
      exact picks.mem_contents.mpr (Or.inr (mem_contents_of_mem_merge member))

end

/-- A selection by rank takes the first of the items of its rank. -/
theorem Picks.filter_contents (picks : Picks rank slices item remaining) (wanted : Rank) :
    (contents slices).filter (fun other => rank other = wanted) =
      [item].filter (fun other => rank other = wanted) ++
        (contents remaining).filter fun other => rank other = wanted := by
  obtain ⟨before, rest, after, rfl, rfl, greater, _⟩ := picks.split
  by_cases same : rank item = wanted
  · have nothingBefore : (contents before).filter (fun other => rank other = wanted) = [] := by
      rw [filter_eq_nil_iff]
      intro other member
      obtain ⟨slice, sliceMember, inside⟩ := mem_flatMap.mp member
      have above := lt_of_lt_of_le (greater slice sliceMember)
        (sorted.head_le (by simp [sliceMember]) inside)
      simpa [← same] using above.ne'
    simp [nothingBefore, same]
  · simp [same]

/-- The merge by rank takes the items of each rank in the order of the slices. -/
theorem filter_merge (fuel : Nat) (enough : (contents slices).length ≤ fuel) (wanted : Rank) :
    (merge rank fuel slices).filter (fun other => rank other = wanted) =
      (contents slices).filter fun other => rank other = wanted := by
  induction fuel generalizing slices with
  | zero =>
    cases slices with
    | nil => rfl
    | cons => simp at enough
  | succ fuel ih =>
    rcases eq_or_ne slices [] with rfl | nonempty
    · simp [contents]
    · obtain ⟨item, remaining, picks, merged⟩ := merge_succ rank fuel nonempty
      have shorter := picks.length_contents
      rw [merged, picks.filter_contents sorted, ← ih (picks.sortedSlices sorted) (by omega), ← filter_append, singleton_append]

omit sorted

open Slice

section

theorem precedes_nil_left (later : List I) : Precedes rank fine [] later := by
  simp [Precedes]

theorem precedes_nil_right (earlier : List I) : Precedes rank fine earlier [] := by
  simp [Precedes]

variable (sequences : List (List I))

/-- Empty sequences do not matter for alignment. -/
theorem aligned_filter : Aligned rank fine (sequences.filter fun items => !items.isEmpty) ↔
      Aligned rank fine sequences := by
  rw [Aligned, Aligned, pairwise_filter]
  constructor
  · intro aligned
    refine aligned.imp fun {earlier later} precedes => ?_
    cases earlier with
    | nil => exact precedes_nil_left later
    | cons =>
      cases later with
      | nil => exact precedes_nil_right _
      | cons => exact precedes rfl rfl
  · intro aligned
    exact aligned.imp fun precedes _ _ => precedes

theorem aligned_filterMap_toSlice :
    Aligned rank fine ((sequences.filterMap toSlice).map items) ↔
      Aligned rank fine sequences := by
  rw [← aligned_filter sequences]
  congr!
  induction sequences with
  | nil => rfl
  | cons items _ ih => cases items <;> simp [toSlice, items, filterMap_cons, ih]

/-- The alignment of what a selection leaves, with the shortened sequence kept in place. -/
theorem aligned_remaining (before after : List (Slice I)) (rest : List I) :
    Aligned rank fine ((before ++ (toSlice rest).toList ++ after).map items) ↔
      Aligned rank fine (before.map items ++ rest :: after.map items) := by
  rw [← aligned_filter (_ ++ _)]
  have kept (slices : List (Slice I)) :
      (slices.map items).filter (fun items => !items.isEmpty) = slices.map items :=
    filter_eq_self.mpr (forall_mem_map.mpr fun _ _ => rfl)
  cases rest <;> simp [toSlice, items, kept]

/-- Removing the head of a sequence below every earlier sequence, and at most the
heads of the later ones, neither makes nor breaks alignment. -/
theorem aligned_cons_iff {before after : List (Slice I)} {rest : List I}
    (sorted : SortedSlices rank (before ++ (item, rest) :: after))
    (greater : ∀ slice ∈ before, rank item < rank slice.1)
    (notLess : ∀ slice ∈ after, rank item ≤ rank slice.1) :
    Aligned rank fine ((before ++ (item, rest) :: after).map items) ↔
      Aligned rank fine (before.map items ++ rest :: after.map items) ∧
        ∀ slice ∈ after, rank slice.1 = rank item → fine item ≤ fine slice.1 := by
  have beforeIff : ∀ slice ∈ before, (Precedes rank fine slice.items (item :: rest) ↔
      Precedes rank fine slice.items rest) := by
    intro slice member
    refine forall₂_congr fun other inside => ?_
    have above : rank item < rank other :=
      lt_of_lt_of_le (greater slice member) (sorted.head_le (by simp [member]) inside)
    rw [find?_cons_of_neg (by simpa using above.ne)]
  have afterIff : ∀ slice ∈ after, (Precedes rank fine (item :: rest) slice.items ↔
      Precedes rank fine rest slice.items ∧
        (rank slice.1 = rank item → fine item ≤ fine slice.1)) := by
    intro slice member
    have headOrNone : (slice.items.find? fun other => rank other = rank item) =
        if rank slice.1 = rank item then some slice.1 else none := by
      split_ifs with same
      · simp [items, same]
      · rw [find?_eq_none]
        intro other inside
        have above : rank item < rank other :=
          lt_of_lt_of_le (lt_of_le_of_ne (notLess slice member) (Ne.symm same))
            (sorted.head_le (by simp [member]) inside)
        simpa using above.ne'
    simp only [Precedes, forall_mem_cons, headOrNone]
    rw [and_comm]
    split_ifs with same <;> simp [same]
  simp only [Aligned, map_append, map_cons, pairwise_append, pairwise_cons,
    forall_mem_map, forall_mem_cons, items] at beforeIff afterIff ⊢
  simp only [forall_and, forall₂_congr afterIff, forall₂_congr beforeIff]
  tauto

variable (picks : Picks rank slices item remaining)

include picks

variable {other : List (Slice I)}

/-- Selections of one item, even by different ranks, leave the same slices. -/
theorem Picks.remaining_unique (picksFine : Picks fine slices item other) : remaining = other := by
  obtain ⟨before, rest, after, rfl, rfl, greater, _⟩ := picks.split
  obtain ⟨beforeFine, restFine, afterFine, same, rfl, greaterFine, _⟩ := picksFine.split
  rcases append_eq_append_iff.mp same with ⟨middle, rfl, tail⟩ | ⟨middle, rfl, tail⟩
  all_goals cases middle with
    | nil =>
      obtain ⟨rfl, rfl⟩ := tail
      simp
    | cons => ?_
  · obtain ⟨rfl, _⟩ := cons.inj tail
    exact absurd (greaterFine (item, rest) (by simp)) (lt_irrefl _)
  · obtain ⟨rfl, _⟩ := cons.inj tail
    exact absurd (greater (item, restFine) (by simp)) (lt_irrefl _)

/-- A rank determines the item it selects: the first head of least rank. -/
theorem Picks.item_unique {otherItem : I}
    (picksOther : Picks rank slices otherItem other) : item = otherItem := by
  have isFirst : ∀ {item remaining}, Picks rank slices item remaining →
      (slices.map Prod.fst).find? (fun head => ∀ slice ∈ slices, rank head ≤ rank slice.1) =
        some item := by
    intro item remaining picks
    have least := picks.le_heads
    obtain ⟨before, rest, after, rfl, rfl, greater, _⟩ := picks.split
    rw [map_append, find?_append, find?_eq_none.mpr, Option.none_or, map_cons,
      find?_cons_of_pos (by simpa using least)]
    simp only [forall_mem_map, decide_eq_true_eq]
    exact fun slice member notAbove => (greater slice member).not_ge (notAbove (item, rest) (by simp))
  exact Option.some.inj ((isFirst picks).symm.trans (isFirst picksOther))

/-- A merge takes what its rank selects. -/
theorem Picks.merge_eq (fuel : Nat) : merge rank (fuel + 1) slices = item :: merge rank fuel remaining := by
  have nonempty : slices ≠ [] := by
    obtain ⟨before, rest, after, rfl, _⟩ := picks.split
    simp
  obtain ⟨first, left, picksFirst, merged⟩ := merge_succ rank fuel nonempty
  obtain rfl := picks.item_unique picksFirst
  rw [merged, picks.remaining_unique picksFirst]

omit picks in
/-- Merging sorted slices by a finer rank gives the merge by the rank exactly when
the slices are aligned. -/
theorem merge_eq_merge_iff
    (refines : ∀ first second, rank first < rank second → fine first < fine second)
    (fuel : Nat) (enough : (contents slices).length ≤ fuel) (sorted : SortedSlices rank slices) :
    merge fine fuel slices = merge rank fuel slices ↔
      Aligned rank fine (slices.map items) := by
  induction fuel generalizing slices with
  | zero =>
    cases slices with
    | nil => simp [merge, Aligned]
    | cons => simp at enough
  | succ fuel ih =>
    rcases eq_or_ne slices [] with rfl | nonempty
    · simp [Aligned]
    · obtain ⟨item, remaining, picks, merged⟩ := merge_succ rank fuel nonempty
      have shorter := picks.length_contents
      have remainingIff := ih (by omega) (picks.sortedSlices sorted)
      obtain ⟨before, rest, after, rfl, rfl, greater, notLess⟩ := picks.split
      rw [aligned_cons_iff sorted greater notLess, ← aligned_remaining, ← remainingIff, merged]
      constructor
      · intro same
        obtain ⟨itemFine, remainingFine, picksFine, mergedFine⟩ := merge_succ fine fuel nonempty
        rw [mergedFine] at same
        obtain ⟨rfl, sameTail⟩ := cons.inj same
        rw [← picks.remaining_unique picksFine] at sameTail
        exact ⟨sameTail, fun slice member _ => picksFine.le_heads _ slice (by simp [member])⟩
      · rintro ⟨sameTail, heads⟩
        have picksFine : Picks fine (before ++ (item, rest) :: after) item
            (before ++ (toSlice rest).toList ++ after) := by
          refine ⟨before, rest, after, rfl, rfl, fun slice member => ?_, fun slice member => ?_⟩
          · exact refines _ _ (greater slice member)
          · rcases (notLess slice member).lt_or_eq with below | same
            · exact (refines _ _ below).le
            · exact heads slice member same.symm
        rw [picksFine.merge_eq fuel, sameTail]

end

end Merge
