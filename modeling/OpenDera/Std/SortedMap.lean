import Mathlib.Data.List.Pairwise
import Mathlib.Data.List.Induction
import Mathlib.Order.Lattice

/-!
# Sorted association lists

A finite map is stored as a list of bindings in strictly increasing key order.
`List.lookup` is the meaning of such a list and `alter` is its only update; the
two are related by `lookup_alter`, and `eq_of_lookup_eq` says that a sorted list
is determined by its meaning. Splitting a sorted list by a predicate that stays
true once it turned true is filtering, which is what `takeWhile_eq_filter` and
`dropWhile_eq_filter` provide to scans that stop early.
-/

namespace OrderedList

open List

variable {α : Type*} {Before : α → α → Prop} {keep : α → Bool} {elements : List α}
  (ordered : elements.Pairwise Before)

include ordered

section

variable (closed : ∀ first ∈ elements, ∀ second, Before first second → keep second = true →
  keep first = true)

include closed

/-- A predicate that stays false once it turned false selects a prefix. -/
theorem takeWhile_eq_filter : elements.takeWhile keep = elements.filter keep := by
  induction elements with
  | nil => rfl
  | cons element _ ih =>
    rw [pairwise_cons] at ordered
    rw [forall_mem_cons] at closed
    by_cases kept : keep element = true
    · rw [takeWhile_cons_of_pos kept, filter_cons_of_pos kept, ih ordered.2 closed.2]
    · rw [takeWhile_cons_of_neg kept, filter_cons_of_neg kept, eq_comm, filter_eq_nil_iff]
      intro other member keptOther
      exact kept (closed.1 other (ordered.1 other member) keptOther)

/-- A predicate that stays false once it turned false drops a prefix. -/
theorem dropWhile_eq_filter :
    elements.dropWhile keep = elements.filter fun element => !keep element := by
  induction elements with
  | nil => rfl
  | cons element _ ih =>
    rw [pairwise_cons] at ordered
    rw [forall_mem_cons] at closed
    by_cases kept : keep element = true
    · rw [dropWhile_cons_of_pos kept, filter_cons_of_neg (by simpa using kept),
        ih ordered.2 closed.2]
    · rw [dropWhile_cons_of_neg kept, eq_comm, filter_eq_self]
      intro other member
      rcases mem_cons.mp member with rfl | member
      · simpa using kept
      · have dropped : keep other ≠ true := fun keptOther =>
          kept (closed.1 other (ordered.1 other member) keptOther)
        simpa using dropped

end

/-- A predicate that stays false once it turned false splits the list. -/
theorem filter_append_filter_not (keep : α → Bool)
    (closed : ∀ first ∈ elements, ∀ second, Before first second → keep second = true →
      keep first = true) :
    (elements.filter keep ++ elements.filter fun element => !keep element) = elements := by
  rw [← takeWhile_eq_filter ordered closed, ← dropWhile_eq_filter ordered closed,
    takeWhile_append_dropWhile]

end OrderedList

namespace SortedMap

variable {K V : Type*} [LinearOrder K]

/-- Bindings in strictly increasing key order. -/
def Sorted (entries : List (K × V)) : Prop :=
  entries.Pairwise fun first second => first.1 < second.1

instance (entries : List (K × V)) : Decidable (Sorted entries) :=
  inferInstanceAs (Decidable (List.Pairwise _ entries))

theorem Sorted.nil : Sorted ([] : List (K × V)) := List.Pairwise.nil

variable {entry : K × V} {entries : List (K × V)}

theorem Sorted.tail (sorted : Sorted (entry :: entries)) : Sorted entries :=
  List.Pairwise.of_cons sorted

open List

theorem Sorted.head_lt {entry other : K × V} (sorted : Sorted (entry :: entries))
    (member : other ∈ entries) : entry.1 < other.1 :=
  rel_of_pairwise_cons sorted member

/-- What is below the first key is below all keys. -/
theorem Sorted.forall_lt {key : K} (sorted : Sorted (entry :: entries)) (below : key < entry.1) :
    ∀ other ∈ entry :: entries, key < other.1 :=
  forall_mem_cons.mpr ⟨below, fun _ member => below.trans (sorted.head_lt member)⟩

theorem sorted_cons_iff :
    Sorted (entry :: entries) ↔ (∀ other ∈ entries, entry.1 < other.1) ∧ Sorted entries :=
  pairwise_cons

theorem Sorted.filter (sorted : Sorted entries) (keep : K × V → Bool) :
    Sorted (entries.filter keep) :=
  List.Pairwise.filter keep sorted

/-- Lookup in a nonempty list, with propositional equality of keys. -/
theorem lookup_cons_ite (key headKey : K) (headValue : V) (entries : List (K × V)) :
    ((headKey, headValue) :: entries).lookup key =
      if key = headKey then some headValue else entries.lookup key := by
  by_cases same : key = headKey
  · simp [same]
  · rw [lookup_cons, beq_eq_false_iff_ne.mpr same, if_neg same]

variable {key : K}

theorem lookup_eq_none_of_lt (below : ∀ entry ∈ entries, key < entry.1) :
    entries.lookup key = none := by
  rw [lookup_eq_none_iff]
  intro entry member
  simpa using (below entry member).ne

/-- In a sorted list a binding is present exactly when lookup returns it. -/
theorem mem_iff_lookup (sorted : Sorted entries) {value : V} :
    (key, value) ∈ entries ↔ entries.lookup key = some value := by
  induction entries with
  | nil => simp
  | cons entry _ ih =>
    obtain ⟨headKey, headValue⟩ := entry
    have belowTail := (sorted_cons_iff.mp sorted).1
    by_cases same : key = headKey
    · subst same
      rw [lookup_cons_self, Option.some.injEq]
      constructor
      · intro member
        rcases mem_cons.mp member with equal | member
        · exact (Prod.mk.inj equal).2.symm
        · exact absurd (belowTail _ member) (lt_irrefl _)
      · rintro rfl
        exact mem_cons_self
    · rw [lookup_cons_ite, if_neg same]
      simp only [mem_cons, Prod.mk.injEq, same, false_and, false_or]
      exact ih sorted.tail

theorem lookup_filter_key (sorted : Sorted entries) (keep : K → Bool) (key : K) :
    (entries.filter fun entry => keep entry.1).lookup key =
      if keep key then entries.lookup key else none := by
  ext value
  rw [← mem_iff_lookup (sorted.filter _), mem_filter, mem_iff_lookup sorted]
  split_ifs with kept <;> simp [kept]

/-- Mapping the values of a list maps what lookup finds. -/
theorem lookup_map_value {O : Type*} (entries : List (K × V)) (change : V → O) (key : K) :
    (entries.map fun entry => (entry.1, change entry.2)).lookup key =
      (entries.lookup key).map change := by
  induction entries with
  | nil => rfl
  | cons entry _ ih =>
    rw [map_cons, lookup_cons_ite, lookup_cons_ite, ih]
    split_ifs <;> rfl

theorem Sorted.map_value {O : Type*} (sorted : Sorted entries) (change : V → O) :
    Sorted (entries.map fun entry => (entry.1, change entry.2)) := by
  unfold Sorted at sorted ⊢
  rwa [pairwise_map]

/-- Sorted lists with the same meaning are the same list. -/
theorem eq_of_lookup_eq {first second : List (K × V)} (firstSorted : Sorted first)
    (secondSorted : Sorted second) (same : ∀ key, first.lookup key = second.lookup key) :
    first = second := by
  have members : ∀ entry, entry ∈ first ↔ entry ∈ second := by
    rintro ⟨key, value⟩
    rw [mem_iff_lookup firstSorted, mem_iff_lookup secondSorted, same]
  have permuted : first.Perm second := by
    rw [perm_ext_iff_of_nodup]
    · exact members
    · exact firstSorted.imp fun below equal => below.ne (congrArg Prod.fst equal)
    · exact secondSorted.imp fun below equal => below.ne (congrArg Prod.fst equal)
  exact List.Perm.eq_of_pairwise (fun a b _ _ below above => absurd (below.trans above) (lt_irrefl _))
    firstSorted secondSorted permuted

/-- Replace the binding of `key` by what `change` makes of it. -/
def alter (key : K) (change : Option V → Option V) : List (K × V) → List (K × V)
  | [] => (change none).toList.map fun value => (key, value)
  | (headKey, headValue) :: entries =>
    if key < headKey then
      ((change none).toList.map fun value => (key, value)) ++ (headKey, headValue) :: entries
    else if key = headKey then
      ((change (some headValue)).toList.map fun value => (key, value)) ++ entries
    else
      (headKey, headValue) :: alter key change entries

private theorem lookup_single (key other : K) (value : Option V)
    (entries : List (K × V)) (absent : entries.lookup key = none) :
    ((value.toList.map fun value => (key, value)) ++ entries).lookup other =
      if other = key then value else entries.lookup other := by
  cases value with
  | none =>
    by_cases same : other = key
    · subst same; simpa using absent
    · simp [same]
  | some => simp [lookup_cons_ite]

/-- Alteration changes the meaning of the altered key only. -/
theorem lookup_alter (sorted : Sorted entries) (key other : K) (change : Option V → Option V) :
    (alter key change entries).lookup other =
      if other = key then change (entries.lookup key) else entries.lookup other := by
  induction entries with
  | nil => simpa [alter] using lookup_single key other (change none) [] rfl
  | cons entry entries ih =>
    obtain ⟨headKey, headValue⟩ := entry
    by_cases below : key < headKey
    · have absent := lookup_eq_none_of_lt (sorted.forall_lt below)
      rw [alter, if_pos below, lookup_single _ _ _ _ absent, absent]
    · by_cases same : key = headKey
      · subst same
        have absent := lookup_eq_none_of_lt fun _ => sorted.head_lt
        rw [alter, if_neg below, if_pos rfl, lookup_single _ _ _ _ absent,
          lookup_cons_self, lookup_cons_ite]
        split_ifs <;> rfl
      · rw [alter, if_neg below, if_neg same, lookup_cons_ite, lookup_cons_ite, lookup_cons_ite,
          ih sorted.tail, if_neg same]
        by_cases found : other = key
        · subst found
          simp [same]
        · simp [found]

/-- Alteration introduces no key but the altered one. -/
theorem mem_alter_key {change : Option V → Option V}
    (member : entry ∈ alter key change entries) : entry.1 = key ∨ entry ∈ entries := by
  induction entries with
  | nil =>
    obtain ⟨value, _, rfl⟩ := mem_map.mp member
    exact Or.inl rfl
  | cons head _ ih =>
    unfold alter at member
    split_ifs at member with below same
    · rcases mem_append.mp member with new | old
      · obtain ⟨value, _, rfl⟩ := mem_map.mp new
        exact Or.inl rfl
      · exact Or.inr old
    · rcases mem_append.mp member with new | old
      · obtain ⟨value, _, rfl⟩ := mem_map.mp new
        exact Or.inl rfl
      · exact Or.inr (mem_cons_of_mem _ old)
    · rcases mem_cons.mp member with rfl | old
      · exact Or.inr mem_cons_self
      · exact (ih old).imp_right (mem_cons_of_mem _)

variable (sorted : Sorted entries)

include sorted

private theorem sorted_single_append {value : Option V} (below : ∀ entry ∈ entries, key < entry.1) :
    Sorted ((value.toList.map fun value => (key, value)) ++ entries) := by
  cases value with
  | none => simpa using sorted
  | some => exact sorted_cons_iff.mpr ⟨below, sorted⟩

theorem sorted_alter (key : K) (change : Option V → Option V) :
    Sorted (alter key change entries) := by
  induction entries with
  | nil =>
    have single : Sorted (((change none).toList.map fun value => (key, value)) ++ []) :=
      sorted_single_append sorted (by simp)
    simpa [alter] using single
  | cons entry _ ih =>
    have belowTail := (sorted_cons_iff.mp sorted).1
    unfold alter
    split_ifs with below same
    · apply sorted_single_append sorted
      intro entry member
      rcases mem_cons.mp member with rfl | member
      · exact below
      · exact below.trans (belowTail _ member)
    · subst same
      exact sorted_single_append sorted.tail belowTail
    · refine sorted_cons_iff.mpr ⟨?_, ih sorted.tail⟩
      intro entry member
      rcases mem_alter_key member with equal | member
      · rw [equal]
        exact lt_of_le_of_ne (not_lt.mp below) (Ne.symm same)
      · exact belowTail _ member

theorem Sorted.head?_le {first : K × V} (isFirst : first ∈ entries.head?) :
    ∀ entry ∈ entries, first.1 ≤ entry.1 := by
  obtain ⟨later, rfl⟩ := head?_eq_some_iff.mp isFirst
  rw [forall_mem_cons]
  exact ⟨le_rfl, fun entry member => (sorted.head_lt member).le⟩

theorem Sorted.le_getLast? {last : K × V} (isLast : last ∈ entries.getLast?) :
    ∀ entry ∈ entries, entry.1 ≤ last.1 := by
  obtain ⟨earlier, rfl⟩ := getLast?_eq_some_iff.mp isLast
  intro entry member
  rcases mem_append.mp member with before | same
  · exact ((pairwise_append.mp sorted).2.2 entry before last (by simp)).le
  · rw [mem_singleton.mp same]

omit sorted

section

variable {keep : K × V → Bool} (sorted : Sorted entries)

include sorted

section

variable (closed : ∀ first second, first.1 < second.1 → keep second = true → keep first = true)

include closed

/-- A predicate that stays false once it turned false selects a prefix. -/
theorem takeWhile_eq_filter : entries.takeWhile keep = entries.filter keep :=
  OrderedList.takeWhile_eq_filter sorted fun first _ => closed first

/-- A predicate that stays false once it turned false drops a prefix. -/
theorem dropWhile_eq_filter : entries.dropWhile keep = entries.filter fun entry => !keep entry :=
  OrderedList.dropWhile_eq_filter sorted fun first _ => closed first

end

/-- A predicate that stays false once it turned false splits the list. -/
theorem filter_append_filter_not (keep : K × V → Bool)
    (closed : ∀ first second, first.1 < second.1 → keep second = true → keep first = true) :
    (entries.filter keep ++ entries.filter fun entry => !keep entry) = entries :=
  OrderedList.filter_append_filter_not sorted keep fun first _ => closed first

/-- A descending walk that skips the keys from some key on leaves the smaller ones. -/
theorem dropWhile_reverse_eq_filter
    (closed : ∀ first second, first.1 < second.1 → keep first = true → keep second = true) :
    entries.reverse.dropWhile keep = (entries.filter fun entry => !keep entry).reverse := by
  rw [← filter_reverse]
  exact OrderedList.dropWhile_eq_filter (pairwise_reverse.mpr sorted)
    fun first _ second below => closed second first below

end

/-- A sorted list splits at any key. -/
theorem filter_lt_append_filter_le (sorted : Sorted entries) (key : K) :
    ((entries.filter fun entry => entry.1 < key) ++ entries.filter fun entry => key ≤ entry.1) =
      entries := by
  have complement : (entries.filter fun entry => key ≤ entry.1) =
      entries.filter fun entry => !decide (entry.1 < key) := by
    simp only [← decide_not, not_lt]
  rw [complement, filter_append_filter_not sorted fun entry => entry.1 < key]
  intro first second below kept
  exact decide_eq_true (below.trans (of_decide_eq_true kept))

end SortedMap
