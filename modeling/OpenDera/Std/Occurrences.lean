import OpenDera.Std.ZSet

/-!
# Occurrences in weighted lists

An entry of weight `w` stands for `w` occurrences of its element, and for none if the
weight is not positive. `withEarlier` pairs every element of a list with the one a
number of positions before it; read from the end of the list, that is the one as many
positions later.
-/

open List

variable {α : Type*} (entries : List (α × ℤ))

/-- Every element as often as its weight says. -/
def occurrences : List α :=
  entries.flatMap fun entry => replicate entry.2.toNat entry.1

@[simp] theorem occurrences_nil : occurrences ([] : List (α × ℤ)) = [] := rfl

@[simp] theorem occurrences_cons (entry : α × ℤ) (entries : List (α × ℤ)) :
    occurrences (entry :: entries) =
      replicate entry.2.toNat entry.1 ++ occurrences entries := rfl

@[simp] theorem occurrences_append (first second : List (α × ℤ)) :
    occurrences (first ++ second) = occurrences first ++ occurrences second :=
  flatMap_append

theorem occurrences_reverse : occurrences entries.reverse = (occurrences entries).reverse := by
  induction entries with
  | nil => rfl
  | cons _ _ ih =>
    simp [ih]

variable {element : α}

theorem mem_occurrences {entries : List (α × ℤ)} :
    element ∈ occurrences entries ↔ ∃ entry ∈ entries, entry.1 = element ∧ 0 < entry.2 := by
  simp only [occurrences, mem_flatMap, mem_replicate]
  refine exists_congr fun entry => and_congr_right fun _ => ?_
  constructor
  · rintro ⟨nonzero, rfl⟩
    exact ⟨rfl, by omega⟩
  · rintro ⟨rfl, positive⟩
    exact ⟨by omega, rfl⟩

/-- Entries that are not positive at the front do not occur. -/
theorem occurrences_dropWhile :
    occurrences (entries.dropWhile fun entry => entry.2 ≤ 0) = occurrences entries := by
  induction entries with
  | nil => rfl
  | cons entry _ ih =>
    rw [dropWhile_cons]
    split_ifs with notPositive
    · have none : entry.2.toNat = 0 := Int.toNat_eq_zero.mpr (of_decide_eq_true notPositive)
      rw [ih, occurrences_cons, none, replicate_zero, nil_append]
    · rfl

theorem filter_occurrences (keep : α → Bool) (entries : List (α × ℤ)) :
    (occurrences entries).filter keep = occurrences (entries.filter fun entry => keep entry.1) := by
  induction entries with
  | nil => rfl
  | cons _ _ ih =>
    rw [occurrences_cons, filter_append, ih, filter_cons, filter_replicate]
    split_ifs <;> simp

/-- Every element with the one `distance` positions before it, if there is one. -/
def withEarlier (distance : Nat) (elements : List α) : List (α × Option α) :=
  elements.mapIdx fun index element =>
    (element, if distance ≤ index then elements[index - distance]? else none)

/-- Every element with the one `distance` positions after it, if there is one. -/
def withLater (distance : Nat) : List α → List (α × Option α)
  | [] => []
  | element :: elements => (element, (element :: elements)[distance]?) :: withLater distance elements

variable (distance : Nat) (elements : List α)

@[simp] theorem map_fst_withLater : (withLater distance elements).map Prod.fst = elements := by
  induction elements with
  | nil => rfl
  | cons _ _ ih => simp [withLater, ih]

theorem getElem?_withLater (index : Nat) (elements : List α) :
    (withLater distance elements)[index]? =
      elements[index]?.map fun element => (element, elements[index + distance]?) := by
  induction elements generalizing index with
  | nil => rfl
  | cons _ _ ih =>
    cases index with
    | zero => simp [withLater]
    | succ index =>
      have shift : index + 1 + distance = index + distance + 1 := by omega
      rw [withLater, getElem?_cons_succ, ih, getElem?_cons_succ, shift,
        getElem?_cons_succ]

/-- Backwards, the earlier element is the later one. -/
theorem withEarlier_eq_reverse :
    withEarlier distance elements = (withLater distance elements.reverse).reverse := by
  have length : (withLater distance elements.reverse).length = elements.length := by
    rw [← length_map Prod.fst, map_fst_withLater, length_reverse]
  refine ext_getElem? fun index => ?_
  by_cases inside : index < elements.length
  · have mirrored : elements.reverse[elements.length - 1 - index]? = elements[index]? := by
      rw [getElem?_reverse (by omega)]
      congr 1
      omega
    rw [getElem?_reverse (by omega), getElem?_withLater, length, mirrored, withEarlier,
      getElem?_mapIdx]
    congr 2
    funext element
    split_ifs with far
    · rw [getElem?_reverse (by omega)]
      congr 2
      omega
    · rw [getElem?_eq_none (by simp; omega)]
  · rw [getElem?_eq_none (by simp [withEarlier]; omega),
      getElem?_eq_none (by simp [length]; omega)]

section

variable [DecidableEq α]

/-- Elements other than the one looked for do not matter before it. -/
theorem filter_withLater_append {before : List α} (absent : element ∉ before)
    (distance : Nat) (after : List α) :
    (withLater distance (before ++ after)).filter (fun pair => pair.1 = element) =
      (withLater distance after).filter fun pair => pair.1 = element := by
  induction before with
  | nil => rfl
  | cons _ _ ih =>
    rw [mem_cons, not_or] at absent
    rw [cons_append, withLater, filter_cons_of_neg (by simpa using Ne.symm absent.1), ih absent.2]

theorem filter_withLater_of_not_mem {elements : List α} (absent : element ∉ elements)
    (distance : Nat) : (withLater distance elements).filter (fun pair => pair.1 = element) = [] := by
  have dropped := filter_withLater_append absent distance []
  rwa [append_nil] at dropped

/-- A run of one element, with nothing of it before or after. -/
theorem filter_withLater_run {before after : List α} (notBefore : element ∉ before)
    (notAfter : element ∉ after) (distance count : Nat) :
    (withLater distance (before ++ (replicate count element ++ after))).filter
        (fun pair => pair.1 = element) =
      (range count).map fun index =>
        (element, (before ++ (replicate count element ++ after))[before.length + index + distance]?) := by
  have atRun : ∀ index, (before ++ (replicate count element ++ after))[before.length + index +
      distance]? = (replicate count element ++ after)[index + distance]? := by
    intro index
    rw [add_assoc, getElem?_append_right (by omega), Nat.add_sub_cancel_left]
  simp only [filter_withLater_append notBefore, atRun]
  clear atRun
  induction count with
  | zero => simp [filter_withLater_of_not_mem notAfter]
  | succ _ ih =>
    rw [replicate_succ, cons_append, withLater, filter_cons_of_pos (by simp),
      ih, range_succ_eq_map, map_cons, map_map]
    simp [Function.comp_def, Nat.add_right_comm]

end
