import Mathlib.Algebra.Order.Ring.Int
import Mathlib.Data.List.TakeWhile
import Mathlib.Data.Prod.Lex
import Mathlib.Order.Bounds.Basic
import Mathlib.Order.WithBot
import OpenDera.Std.Loop
import OpenDera.Trace.Cursor

/-!
# Aggregators

An aggregator summarises the keys of a Z-set. It is run on a cursor that yields the
keys in ascending order, each with the weights it has at several times; a key whose
weights add up to zero is not in the Z-set, although the cursor shows it. The
aggregators below are the loops of `Min`, `MinSome1`, `ArgMinSome`, `Max` and
`Fold`, together with the semigroups that combine the aggregates of two parts.

Nullable values are `WithBot`, since `None` is below every `Some`, and pairs are
compared lexicographically.
-/

namespace OpenDera.Aggregate

open Loop List Option Prod

universe u

section

/-- What a cursor shows of a Z-set: keys with the weights they have at several times. -/
abbrev Entries (K T R : Type u) := List (K × List (T × R))

/-- The weight a key has in total. -/
def totalWeight {T R : Type u} [AddCommMonoid R] (times : List (T × R)) : R :=
  times.foldl (fun weight entry => weight + entry.2) 0

/-- An aggregator: the loop of its `aggregate` method, its semigroup and its
`finalize` method. -/
structure Aggregator (K T R A Out : Type u) where
  Position : Type u
  start : Entries K T R → Position
  body : Position → Option A ⊕ Position
  combine : A → A → A
  finalize : A → Out

namespace Aggregator

variable {K T R A Out : Type u} (aggregator : Aggregator K T R A Out)

/-- The loop of `aggregate` with a bound on its iterations. -/
def aggregate (fuel : Nat) (cursor : Entries K T R) : Option (Option A) :=
  Loop.run aggregator.body fuel (aggregator.start cursor)

/-- `aggregate` terminates on the cursor and returns `result`. -/
def Returns (cursor : Entries K T R) (result : Option A) : Prop :=
  ∃ fuel, aggregator.aggregate fuel cursor = some result

end Aggregator

/-- Combine the aggregates of two parts, of which either may be empty. -/
def combineParts {A : Type u} (combine : A → A → A) : Option A → Option A → Option A
  | none, right => right
  | left, none => left
  | some left, some right => some (combine left right)

variable {K V T R : Type u} [LinearOrder K] [LinearOrder V] [AddCommMonoid R] [DecidableEq R]

/-- `Min`: scan forward to the first key that is present. -/
def minBody : Entries K T R → Option K ⊕ Entries K T R
  | [] => .inl none
  | (key, times) :: rest => if totalWeight times ≠ 0 then .inl (some key) else .inr rest

/-- The `Min` aggregator. -/
def minimum : Aggregator K T R K K where
  Position := Entries K T R
  start := id
  body := minBody
  combine := min
  finalize := id

/-- `MinSome1`: scan forward to the first present key that is not null, remembering
whether a null was seen. -/
def minSome1Body : Option (WithBot K) × Entries (WithBot K) T R →
      Option (WithBot K) ⊕ Option (WithBot K) × Entries (WithBot K) T R
  | (result, []) => .inl result
  | (result, (key, times) :: rest) =>
    if totalWeight times ≠ 0 then
      match key with
      | (some value : Option K) => .inl (some (WithBot.some value))
      | none => .inr (some ⊥, rest)
    else
      .inr (result, rest)

/-- `MinSome1Semigroup::combine`. -/
def minSome1Combine : WithBot K → WithBot K → WithBot K
  | (none : Option K), (none : Option K) => ⊥
  | (some left : Option K), (none : Option K) => WithBot.some left
  | (none : Option K), (some right : Option K) => WithBot.some right
  | (some left : Option K), (some right : Option K) => WithBot.some (min left right)

/-- The `MinSome1` aggregator. -/
def minSome1 : Aggregator (WithBot K) T R (WithBot K) (WithBot K) where
  Position := Option (WithBot K) × Entries (WithBot K) T R
  start := fun cursor => (none, cursor)
  body := minSome1Body
  combine := minSome1Combine
  finalize := id

/-- The pairs `ArgMinSome` looks at: a nullable key and a value. -/
abbrev ArgPair (K V : Type u) := WithBot K ×ₗ V

/-- The first component of a pair is not null. -/
def isSome (pair : ArgPair K V) : Bool := decide ((ofLex pair).1 ≠ ⊥)

/-- `ArgMinSome`: return the first present pair whose first component is not null. At
the first present pair with a null, remember it and seek to the first pair without.
The loop steps over no pair by itself. -/
def argMinSomeBody : Option (ArgPair K V) × Entries (ArgPair K V) T R →
      Option (ArgPair K V) ⊕ Option (ArgPair K V) × Entries (ArgPair K V) T R
  | (result, []) => .inl result
  | (result, (current, times) :: rest) =>
    if totalWeight times ≠ 0 then
      if isSome current then
        .inl (some current)
      else if result.isNone then
        .inr (some current, Cursor.seekKeyWith isSome ((current, times) :: rest))
      else
        .inr (result, (current, times) :: rest)
    else
      .inr (result, (current, times) :: rest)

/-- `ArgMinSomeSemigroup::combine`. -/
def argMinSomeCombine (left right : ArgPair K V) : ArgPair K V :=
  match isSome left, isSome right with
  | false, false => min left right
  | true, false => left
  | false, true => right
  | true, true => min left right

/-- The `ArgMinSome` aggregator. -/
def argMinSome : Aggregator (ArgPair K V) T R (ArgPair K V) V where
  Position := Option (ArgPair K V) × Entries (ArgPair K V) T R
  start := fun cursor => (none, cursor)
  body := argMinSomeBody
  combine := argMinSomeCombine
  finalize := fun accumulator => (ofLex accumulator).2

/-- The `Max` aggregator: the same scan as `Min`, from the last key backward. -/
def maximum : Aggregator K T R K K where
  Position := Entries K T R
  start := reverse
  body := minBody
  combine := max
  finalize := id

/-- The parameters of `Fold`. -/
structure FoldParameters (K R A Out : Type u) where
  init : A
  step : A → K → R → A
  output : A → Out
  combine : A → A → A

/-- `Fold`: step the accumulator over every present key. -/
def foldBody {A Out : Type u} (fold : FoldParameters K R A Out) : A × Bool × Entries K T R →
      Option A ⊕ A × Bool × Entries K T R
  | (accumulator, nonEmpty, []) => .inl (if nonEmpty then some accumulator else none)
  | (accumulator, nonEmpty, (key, times) :: rest) =>
    if totalWeight times ≠ 0 then
      .inr (fold.step accumulator key (totalWeight times), true, rest)
    else
      .inr (accumulator, nonEmpty, rest)

/-- The `Fold` aggregator. -/
def fold {A Out : Type u} (parameters : FoldParameters K R A Out) : Aggregator K T R A Out where
  Position := A × Bool × Entries K T R
  start := fun cursor => (parameters.init, false, cursor)
  body := foldBody parameters
  combine := parameters.combine
  finalize := parameters.output

end

/-! ## What the aggregators compute -/

variable {K V T R A Out : Type u} [LinearOrder K] [LinearOrder V] [AddCommMonoid R] [DecidableEq R]

/-- Keys in ascending order with the weights they have at several times. -/
structure Collection (K T R : Type u) [LinearOrder K] where
  entries : Entries K T R
  sorted : SortedMap.Sorted entries

/-- The entries whose weights do not cancel. -/
def live (entries : Entries K T R) : Entries K T R :=
  entries.filter fun entry => totalWeight entry.2 ≠ 0

namespace Collection

variable (collection : Collection K T R)

/-- The key is in the collection with a total weight other than zero. -/
def Present (key : K) : Prop :=
  ∃ times, (key, times) ∈ collection.entries ∧ totalWeight times ≠ 0

/-- The part of the collection below `key`. -/
def before (key : K) : Collection K T R where
  entries := collection.entries.filter fun entry => entry.1 < key
  sorted := collection.sorted.filter _

/-- The part of the collection from `key` on. -/
def startingAt (key : K) : Collection K T R where
  entries := collection.entries.filter fun entry => key ≤ entry.1
  sorted := collection.sorted.filter _

variable (aggregator : Aggregator K T R A Out)

/-- Terminates on the collection, with nothing if it has no present key and otherwise
with a value that is `Best`. -/
def Summarised (Best : A → Prop) : Prop :=
  ∃ result, aggregator.Returns collection.entries result ∧
    match result with
    | none => ∀ key, ¬collection.Present key
    | some value => (∃ key, collection.Present key) ∧ Best value

/-- The aggregates of the two parts on both sides of `key` combine to the aggregate of the
whole collection. -/
def CombinesAt (key : K) : Prop :=
  ∃ first second, aggregator.Returns (collection.before key).entries first ∧
    aggregator.Returns (collection.startingAt key).entries second ∧
    aggregator.Returns collection.entries (combineParts aggregator.combine first second)

end Collection

section

variable {times : List (T × R)} {rest : Entries K T R}

omit [LinearOrder K] in
theorem live_cons_of_ne {key : K} (present : totalWeight times ≠ 0) :
    live ((key, times) :: rest) = (key, times) :: live rest := by
  simp [live, present]

omit [LinearOrder K] in
theorem live_cons_of_eq {key : K} (cancelled : totalWeight times = 0) :
    live ((key, times) :: rest) = live rest := by
  simp [live, cancelled]

omit [LinearOrder K] in
theorem live_reverse (entries : Entries K T R) : live entries.reverse = (live entries).reverse := by
  simp [live]

variable {collection : Collection K T R}

/-- The present keys are those of the live entries. -/
theorem present_iff {key : K} :
    collection.Present key ↔ ∃ times, (key, times) ∈ live collection.entries := by
  simp [Collection.Present, live]

theorem not_present_iff : (∀ key, ¬collection.Present key) ↔ live collection.entries = [] := by
  simp only [present_iff, eq_nil_iff_forall_not_mem, not_exists, Prod.forall]

theorem sorted_live (collection : Collection K T R) : SortedMap.Sorted (live collection.entries) :=
  collection.sorted.filter _

variable (collection)

omit [AddCommMonoid R] [DecidableEq R] in
theorem entries_eq_append (key : K) : collection.entries =
      (collection.before key).entries ++ (collection.startingAt key).entries :=
  (SortedMap.filter_lt_append_filter_le collection.sorted key).symm

theorem live_eq_append (key : K) : live collection.entries =
      live (collection.before key).entries ++ live (collection.startingAt key).entries := by
  rw [entries_eq_append collection key, live, filter_append]
  rfl

/-- An aggregator combines if the function of the live entries that it computes does, on
ascending parts. -/
theorem combinesAt_of_returns {aggregator : Aggregator K T R A Out} (summary : Entries K T R → Option A)
    (returns : ∀ (collection : Collection K T R) result,
      aggregator.Returns collection.entries result ↔ result = summary (live collection.entries))
    (combines : ∀ first second, (∀ entry ∈ first, ∀ other ∈ second, entry.1 < other.1) →
      combineParts aggregator.combine (summary first) (summary second) = summary (first ++ second))
    (key : K) : collection.CombinesAt aggregator key := by
  refine ⟨_, _, (returns _ _).mpr rfl, (returns _ _).mpr rfl, (returns _ _).mpr ?_⟩
  have sorted := sorted_live collection
  rw [live_eq_append collection key] at sorted ⊢
  exact combines _ _ (pairwise_append.mp sorted).2.2

end

section

omit [LinearOrder K] in
/-- The scan of `Min` and `Max` finds the first live key. -/
theorem returns_minBody (entries : Entries K T R) (result : Option K) :
    Loop.Returns minBody entries result ↔ result = (live entries).head?.map fst := by
  induction entries with
  | nil => exact returns_of_inl rfl
  | cons entry rest ih =>
    obtain ⟨key, times⟩ := entry
    by_cases present : totalWeight times ≠ 0
    · have finishes : minBody ((key, times) :: rest) = .inl (some key) := by
        simp [minBody, present]
      rw [returns_of_inl finishes, live_cons_of_ne present]
      rfl
    · have goesOn : minBody ((key, times) :: rest) = .inr rest := by simp [minBody, present]
      rw [returns_of_inr goesOn, ih, live_cons_of_eq (by simpa using present)]

variable (collection : Collection K T R) (result : Option K)

theorem returns_minimum : minimum.Returns collection.entries result ↔
      result = (live collection.entries).head?.map fst :=
  returns_minBody collection.entries result

theorem returns_maximum : maximum.Returns collection.entries result ↔
      result = (live collection.entries).getLast?.map fst := by
  rw [← head?_reverse, ← live_reverse]
  exact returns_minBody collection.entries.reverse result

/-- `Min` returns the least present key. -/
theorem summarised_minimum :
    collection.Summarised minimum (IsLeast {key | collection.Present key}) := by
  refine ⟨_, (returns_minimum collection _).mpr rfl, ?_⟩
  cases isFirst : (live collection.entries).head? with
  | none => exact not_present_iff.mpr (head?_eq_none_iff.mp isFirst)
  | some entry =>
    have present := present_iff.mpr ⟨entry.2, mem_of_head? isFirst⟩
    refine ⟨⟨entry.1, present⟩, present, fun key presentKey => ?_⟩
    obtain ⟨times, member⟩ := present_iff.mp presentKey
    exact (sorted_live collection).head?_le isFirst _ member

/-- `Max` returns the greatest present key. -/
theorem summarised_maximum :
    collection.Summarised maximum (IsGreatest {key | collection.Present key}) := by
  refine ⟨_, (returns_maximum collection _).mpr rfl, ?_⟩
  cases isLast : (live collection.entries).getLast? with
  | none => exact not_present_iff.mpr (getLast?_eq_none_iff.mp isLast)
  | some entry =>
    have present := present_iff.mpr ⟨entry.2, mem_of_getLast? isLast⟩
    refine ⟨⟨entry.1, present⟩, present, fun key presentKey => ?_⟩
    obtain ⟨times, member⟩ := present_iff.mp presentKey
    exact (sorted_live collection).le_getLast? isLast _ member

theorem combinesAt_minimum (key : K) : collection.CombinesAt minimum key := by
  refine combinesAt_of_returns collection (·.head?.map fst) returns_minimum
    (fun first second below => ?_) key
  cases first with
  | nil => rfl
  | cons entry =>
    cases second with
    | nil => simp [combineParts]
    | cons other =>
      have less := below entry (by simp) other (by simp)
      simp [combineParts, minimum, less.le]

theorem combinesAt_maximum (key : K) : collection.CombinesAt maximum key := by
  refine combinesAt_of_returns collection (·.getLast?.map fst) returns_maximum
    (fun first second below => ?_) key
  rw [getLast?_append]
  cases isSecond : second.getLast? with
  | none => cases first.getLast? <;> rfl
  | some other =>
    cases isFirst : first.getLast? with
    | none => rfl
    | some entry =>
      have less := below entry (mem_of_getLast? isFirst) other (mem_of_getLast? isSecond)
      simp [combineParts, maximum, less.le]

end

section

/-- What `MinSome1` makes of the present keys: the first that is not null, or a null if
there are only nulls. -/
def firstSome (result : Option (WithBot K)) (keys : List (WithBot K)) : Option (WithBot K) :=
  (keys.find? fun key => key ≠ ⊥).or (if keys.isEmpty then result else some ⊥)

theorem returns_minSome1Body (entries : Entries (WithBot K) T R)
    (remembered result : Option (WithBot K)) :
    Loop.Returns minSome1Body (remembered, entries) result ↔
      result = firstSome remembered ((live entries).map fst) := by
  induction entries generalizing remembered with
  | nil => exact returns_of_inl rfl
  | cons entry rest ih =>
    obtain ⟨key, times⟩ := entry
    by_cases present : totalWeight times ≠ 0
    · rw [live_cons_of_ne present]
      induction key with
      | bot =>
        have goesOn : minSome1Body (remembered, (⊥, times) :: rest) = .inr (some ⊥, rest) :=
          if_pos present
        rw [returns_of_inr goesOn, ih]
        simp [firstSome]
      | coe value =>
        have finishes : minSome1Body (remembered, ((value : WithBot K), times) :: rest) =
            .inl (some (value : WithBot K)) :=
          if_pos present
        rw [returns_of_inl finishes]
        simp [firstSome]
    · have goesOn : minSome1Body (remembered, (key, times) :: rest) = .inr (remembered, rest) := by
        cases key <;> exact if_neg present
      rw [returns_of_inr goesOn, ih, live_cons_of_eq (by simpa using present)]

variable (collection : Collection (WithBot K) T R)

theorem returns_minSome1 (result : Option (WithBot K)) :
    minSome1.Returns collection.entries result ↔
      result = firstSome none ((live collection.entries).map fst) :=
  returns_minSome1Body collection.entries none result

/-- The least key that is not null, or a null if all present keys are null. -/
def IsLeastSome (value : WithBot K) : Prop :=
  if value = ⊥ then ∀ key, collection.Present key → key = ⊥
  else IsLeast {key | collection.Present key ∧ key ≠ ⊥} value

/-- `MinSome1` returns the least key that is not null. -/
theorem summarised_minSome1 : collection.Summarised minSome1 (IsLeastSome collection) := by
  refine ⟨_, (returns_minSome1 collection _).mpr rfl, ?_⟩
  have sorted := sorted_live collection
  rw [firstSome]
  cases found : ((live collection.entries).map fst).find? fun key => key ≠ ⊥ with
  | some value =>
    obtain ⟨notNull, earlier, later, keys, nulls⟩ := find?_eq_some_iff_append.mp found
    have notNull : value ≠ ⊥ := by simpa using notNull
    have present : ∀ key, collection.Present key ↔
        key ∈ (live collection.entries).map fst := by
      simp [present_iff]
    have ascending : ((live collection.entries).map fst).Pairwise (· < ·) :=
      pairwise_map.mpr sorted
    rw [keys] at present ascending
    have presentValue : collection.Present value := (present value).mpr (by simp)
    refine ⟨⟨value, presentValue⟩, ?_⟩
    rw [IsLeastSome, if_neg notNull]
    refine ⟨⟨presentValue, notNull⟩, ?_⟩
    rintro key ⟨presentKey, keyNotNull⟩
    rcases mem_append.mp ((present key).mp presentKey) with member | member
    · exact absurd (by simpa using nulls key member) keyNotNull
    · rcases mem_cons.mp member with rfl | member
      · exact le_refl key
      · have tail := (pairwise_append.mp ascending).2.1
        exact ((pairwise_cons.mp tail).1 key member).le
  | none =>
    cases keys : live collection.entries with
    | nil => exact not_present_iff.mpr keys
    | cons entry =>
      have nulls := find?_eq_none.mp found
      refine ⟨⟨entry.1, present_iff.mpr ⟨entry.2, by simp [keys]⟩⟩, ?_⟩
      intro key presentKey
      obtain ⟨times, member⟩ := present_iff.mp presentKey
      simpa using nulls key (mem_map_of_mem member)

theorem combinesAt_minSome1 (key : WithBot K) : collection.CombinesAt minSome1 key := by
  refine combinesAt_of_returns collection (fun entries => firstSome none (entries.map fst))
    returns_minSome1 (fun first second below => ?_) key
  have below : ∀ one ∈ first.map fst, ∀ other ∈ second.map fst, one < other :=
    forall_mem_map.mpr fun one member => forall_mem_map.mpr (below one member)
  rw [map_append]
  generalize first.map fst = first at below
  generalize second.map fst = second at below
  simp only [firstSome, find?_append]
  cases foundFirst : first.find? fun key => key ≠ ⊥ with
  | some value =>
    have notNull : value ≠ ⊥ := by simpa using find?_some foundFirst
    cases foundSecond : second.find? fun key => key ≠ ⊥ with
    | some other =>
      have less := below value (mem_of_find?_eq_some foundFirst) other
        (mem_of_find?_eq_some foundSecond)
      have otherNotNull : other ≠ ⊥ := by simpa using find?_some foundSecond
      lift value to K using notNull
      lift other to K using otherNotNull
      have least : min value other = value := min_eq_left (WithBot.coe_lt_coe.mp less).le
      change some (WithBot.some (min value other)) = some (value : WithBot K)
      rw [least]
    | none =>
      lift value to K using notNull
      cases second <;> rfl
  | none =>
    cases first with
    | nil => rfl
    | cons =>
      cases foundSecond : second.find? fun key => key ≠ ⊥ with
      | some other =>
        have otherNotNull : other ≠ ⊥ := by simpa using find?_some foundSecond
        lift other to K using otherNotNull
        rfl
      | none => cases second <;> rfl

end

section

variable (parameters : FoldParameters K R A Out)

/-- The accumulator after the present keys in order. -/
def foldKeys (accumulator : A) (entries : Entries K T R) : A :=
  entries.foldl (fun accumulator entry => parameters.step accumulator entry.1 (totalWeight entry.2))
    accumulator

omit [LinearOrder K] in
theorem returns_foldBody (entries : Entries K T R) (accumulator : A) (nonEmpty : Bool)
    (result : Option A) :
    Loop.Returns (foldBody parameters) (accumulator, nonEmpty, entries) result ↔
      result = if nonEmpty || !(live entries).isEmpty then
        some (foldKeys parameters accumulator (live entries)) else none := by
  induction entries generalizing accumulator nonEmpty with
  | nil =>
    refine (@returns_of_inl _ _ (foldBody parameters) _ _ _ rfl).trans ?_
    simp [live, foldKeys]
  | cons entry rest ih =>
    obtain ⟨key, times⟩ := entry
    by_cases present : totalWeight times ≠ 0
    · have goesOn : foldBody parameters (accumulator, nonEmpty, (key, times) :: rest) =
          .inr (parameters.step accumulator key (totalWeight times), true, rest) := by
        simp [foldBody, present]
      rw [returns_of_inr goesOn, ih, live_cons_of_ne present]
      simp [foldKeys]
    · have goesOn : foldBody parameters (accumulator, nonEmpty, (key, times) :: rest) =
          .inr (accumulator, nonEmpty, rest) := by
        simp [foldBody, present]
      rw [returns_of_inr goesOn, ih, live_cons_of_eq (by simpa using present)]

/-- `Fold` returns the fold over the present keys in order. -/
theorem summarised_fold (collection : Collection K T R) : collection.Summarised (fold parameters)
      (· = foldKeys parameters parameters.init (live collection.entries)) := by
  refine ⟨_, (returns_foldBody parameters collection.entries parameters.init false _).mpr rfl, ?_⟩
  cases keys : live collection.entries with
  | nil => exact not_present_iff.mpr keys
  | cons entry => exact ⟨⟨entry.1, present_iff.mpr ⟨entry.2, by simp [keys]⟩⟩, rfl⟩

end

section

variable (entries : Entries (ArgPair K V) T R)

/-- The pairs at which the loop of `ArgMinSome` looks: the first one, and the first whose
first component is not null. -/
def visited : Entries (ArgPair K V) T R :=
  entries.head?.toList ++ (entries.find? fun entry => isSome entry.1).toList

attribute [local simp] visited

/-- No pair the loop of `ArgMinSome` looks at has weights that cancel. -/
def VisitsPresent : Prop :=
  ∀ entry ∈ visited entries, totalWeight entry.2 ≠ 0

/-- The pair `ArgMinSome` returns if it returns: the first whose first component is not
null, or the first one. -/
def firstArg : Option (ArgPair K V) :=
  ((entries.find? fun entry => isSome entry.1).or entries.head?).map fst

attribute [local simp] VisitsPresent firstArg argMinSomeBody in
/-- The loop of `ArgMinSome` finishes exactly if it looks at no pair with weights that
cancel: it does not step over such a pair. -/
theorem returns_argMinSome (result : Option (ArgPair K V)) :
    argMinSome.Returns entries result ↔ VisitsPresent entries ∧ result = firstArg entries := by
  change Loop.Returns argMinSomeBody (none, entries) result ↔ _
  cases entries with
  | nil =>
    refine (@returns_of_inl _ _ argMinSomeBody _ _ _ rfl).trans ?_
    simp
  | cons entry rest =>
    obtain ⟨current, times⟩ := entry
    by_cases present : totalWeight times ≠ 0
    · by_cases notNull : isSome current
      · have finishes : argMinSomeBody (none, (current, times) :: rest) = .inl (some current) := by
          simp [present, notNull]
        rw [returns_of_inl finishes]
        simp [notNull, present]
      · have goesOn : argMinSomeBody (none, (current, times) :: rest) =
            .inr (some current, Cursor.seekKeyWith isSome ((current, times) :: rest)) := by
          simp [present, notNull]
        rw [returns_of_inr goesOn, VisitsPresent, visited, firstArg,
          find?_eq_head?_dropWhile_not, Cursor.seekKeyWith]
        -- the cursor is at the first pair without a null, or past the end
        cases ahead : ((current, times) :: rest).dropWhile fun entry => !isSome entry.1 with
        | nil =>
          refine (@returns_of_inl _ _ argMinSomeBody _ _ _ rfl).trans ?_
          simp [present]
        | cons next later =>
          obtain ⟨pair, pairTimes⟩ := next
          have pairNotNull : isSome pair := by
            have headNot := head?_dropWhile_not (fun entry => !isSome entry.1)
              ((current, times) :: rest)
            rw [ahead] at headNot
            simpa using headNot
          by_cases pairPresent : totalWeight pairTimes ≠ 0
          · have finishes : argMinSomeBody (some current, (pair, pairTimes) :: later) =
                .inl (some pair) := by
              simp [pairPresent, pairNotNull]
            rw [returns_of_inl finishes]
            simp [present, pairPresent]
          · have stays : argMinSomeBody (some current, (pair, pairTimes) :: later) =
                .inr (some current, (pair, pairTimes) :: later) := by
              simp [pairPresent]
            have cancelled : totalWeight pairTimes = 0 := by simpa using pairPresent
            simp [not_returns_of_stays stays, cancelled]
    · have stays : argMinSomeBody (none, (current, times) :: rest) =
          .inr (none, (current, times) :: rest) := by
        simp [present]
      have cancelled : totalWeight times = 0 := by simpa using present
      simp [not_returns_of_stays stays, cancelled]

variable (collection : Collection (ArgPair K V) T R)

/-- The least pair whose first component is not null, or the least pair if all first
components are null. -/
def IsLeastArg (pair : ArgPair K V) : Prop :=
  IsLeast {other | collection.Present other ∧ isSome other} pair ∨
    (∀ other, collection.Present other → ¬isSome other) ∧
      IsLeast {other | collection.Present other} pair

/-- `ArgMinSome` returns the least pair with a first component that is not null, exactly
if its loop looks at no pair with weights that cancel. -/
theorem summarised_argMinSome_iff :
    collection.Summarised argMinSome (IsLeastArg collection) ↔ VisitsPresent collection.entries := by
  constructor
  · rintro ⟨result, returns, _⟩
    exact ((returns_argMinSome _ _).mp returns).1
  · intro visits
    refine ⟨_, (returns_argMinSome _ _).mpr ⟨visits, rfl⟩, ?_⟩
    have sorted := collection.sorted
    rw [firstArg]
    cases found : collection.entries.find? fun entry => isSome entry.1 with
    | some entry =>
      obtain ⟨notNull, earlier, later, entries, nulls⟩ := find?_eq_some_iff_append.mp found
      have present : collection.Present entry.1 :=
        ⟨entry.2, by simp [entries], visits entry (by simp [found])⟩
      refine ⟨⟨entry.1, present⟩, Or.inl ⟨⟨present, notNull⟩, ?_⟩⟩
      rintro pair ⟨⟨times, member, _⟩, pairNotNull⟩
      rw [entries] at member sorted
      rcases mem_append.mp member with member | member
      · exact absurd pairNotNull (by simpa using nulls _ member)
      · exact SortedMap.Sorted.head?_le (pairwise_append.mp sorted).2.1 rfl _ member
    | none =>
      have nulls := find?_eq_none.mp found
      cases entries : collection.entries with
      | nil =>
        rintro key ⟨times, member, _⟩
        simp [entries] at member
      | cons entry =>
        have present : collection.Present entry.1 :=
          ⟨entry.2, by simp [entries], visits entry (by simp [entries])⟩
        refine ⟨⟨entry.1, present⟩, Or.inr ⟨?_, present, ?_⟩⟩
        · rintro pair ⟨times, member, _⟩
          exact nulls _ member
        · rintro pair ⟨times, member, _⟩
          rw [entries] at member sorted
          exact sorted.head?_le rfl _ member

variable {first second : Entries (ArgPair K V) T R}

omit [LinearOrder V] [DecidableEq R] in
/-- The loop of `ArgMinSome` looks at no more pairs of a collection than of its parts. -/
theorem visits_append (visitsFirst : VisitsPresent first) (visitsSecond : VisitsPresent second) :
    VisitsPresent (first ++ second) := by
  intro entry member
  simp only [visited, head?_append, find?_append, mem_append, mem_toList,
    or_eq_some_iff] at member
  rcases member with (inFirst | ⟨_, inSecond⟩) | (inFirst | ⟨_, inSecond⟩)
  · exact visitsFirst entry (by simp [inFirst])
  · exact visitsSecond entry (by simp [inSecond])
  · exact visitsFirst entry (by simp [inFirst])
  · exact visitsSecond entry (by simp [inSecond])

variable {left right : ArgPair K V}

theorem argMinSomeCombine_of_le (order : left ≤ right) (notNull : isSome right → isSome left) :
    argMinSomeCombine left right = left := by
  unfold argMinSomeCombine
  cases nullLeft : isSome left <;> cases nullRight : isSome right <;> simp_all

theorem argMinSomeCombine_of_null (null : isSome left = false) (notNull : isSome right = true) :
    argMinSomeCombine left right = right := by
  simp [argMinSomeCombine, null, notNull]

variable {entries : Entries (ArgPair K V) T R}

omit [LinearOrder V] [AddCommMonoid R] [DecidableEq R] in
theorem eq_nil_of_firstArg (none : firstArg entries = none) : entries = [] := by
  cases entries with
  | nil => rfl
  | cons => simp [firstArg] at none

omit [LinearOrder V] [AddCommMonoid R] [DecidableEq R] in
/-- What `firstArg` finds in a list. -/
theorem firstArg_eq_some {pair : ArgPair K V} (found : firstArg entries = some pair) :
    (∃ times, (pair, times) ∈ entries) ∧
      (isSome pair = (entries.find? fun entry => isSome entry.1).isSome) := by
  rw [firstArg] at found
  obtain ⟨entry, selected, rfl⟩ := map_eq_some_iff.mp found
  rcases or_eq_some_iff.mp selected with selected | ⟨none, head⟩
  · refine ⟨⟨entry.2, mem_of_find?_eq_some selected⟩, ?_⟩
    have notNull := find?_some selected
    rw [selected, isSome_some]
    exact notNull
  · have member : entry ∈ entries := mem_of_head? head
    refine ⟨⟨entry.2, member⟩, ?_⟩
    rw [none]
    simpa using find?_eq_none.mp none entry member

omit [AddCommMonoid R] [DecidableEq R] in
/-- The first pairs of two ascending parts combine to the first pair of the whole. -/
theorem firstArg_append (below : ∀ entry ∈ first, ∀ other ∈ second, entry.1 < other.1) :
    firstArg (first ++ second) =
      combineParts argMinSomeCombine (firstArg first) (firstArg second) := by
  cases foundFirst : firstArg first with
  | none =>
    rw [eq_nil_of_firstArg foundFirst]
    rfl
  | some pair =>
    obtain ⟨⟨times, member⟩, nullFirst⟩ := firstArg_eq_some foundFirst
    cases foundSecond : firstArg second with
    | none =>
      rw [eq_nil_of_firstArg foundSecond, append_nil, foundFirst]
      rfl
    | some other =>
      obtain ⟨⟨otherTimes, otherMember⟩, nullSecond⟩ := firstArg_eq_some foundSecond
      have less : pair < other := below _ member _ otherMember
      rw [firstArg] at foundFirst foundSecond ⊢
      rw [find?_append, head?_append, combineParts]
      cases findFirst : first.find? fun entry => isSome entry.1 with
      | some =>
        rw [findFirst] at foundFirst nullFirst
        rw [argMinSomeCombine_of_le less.le fun _ => nullFirst, ← foundFirst]
        rfl
      | none =>
        rw [findFirst] at foundFirst nullFirst
        cases findSecond : second.find? fun entry => isSome entry.1 with
        | some =>
          rw [findSecond] at foundSecond nullSecond
          rw [argMinSomeCombine_of_null nullFirst nullSecond, ← foundSecond]
          rfl
        | none =>
          rw [findSecond] at nullSecond
          have head : first.head?.map fst = some pair := foundFirst
          rw [argMinSomeCombine_of_le less.le fun notNull => absurd notNull (by simp [nullSecond]),
            ← head]
          cases first <;> simp at head ⊢

theorem combinesAt_argMinSome_iff (collection : Collection (ArgPair K V) T R) (pair : ArgPair K V) :
    collection.CombinesAt argMinSome pair ↔
      VisitsPresent (collection.before pair).entries ∧
        VisitsPresent (collection.startingAt pair).entries := by
  constructor
  · rintro ⟨first, second, returnsFirst, returnsSecond, _⟩
    exact ⟨((returns_argMinSome _ _).mp returnsFirst).1,
      ((returns_argMinSome _ _).mp returnsSecond).1⟩
  · rintro ⟨visitsFirst, visitsSecond⟩
    have sorted := collection.sorted
    have split := entries_eq_append collection pair
    rw [split] at sorted
    refine ⟨_, _, (returns_argMinSome _ _).mpr ⟨visitsFirst, rfl⟩,
      (returns_argMinSome _ _).mpr ⟨visitsSecond, rfl⟩, (returns_argMinSome _ _).mpr ?_⟩
    rw [split]
    refine ⟨visits_append visitsFirst visitsSecond, ?_⟩
    exact (firstArg_append (pairwise_append.mp sorted).2.2).symm

/-- One pair, inserted at time 0 and removed at time 1. -/
def cancelledPair : Collection (ArgPair Nat Nat) Nat ℤ where
  entries := [(toLex (WithBot.some 0, 0), [(0, 1), (1, -1)])]
  sorted := by simp [SortedMap.Sorted]

/-- `ArgMinSome` does not return from a collection whose only pair is cancelled. -/
theorem argMinSome_stuck_at_cancelled_pair :
    ¬cancelledPair.Summarised argMinSome (IsLeastArg cancelledPair) := by
  rw [summarised_argMinSome_iff]
  intro visits
  exact visits (toLex (WithBot.some 0, 0), [(0, 1), (1, -1)]) (by decide) (by decide)

end

/-- `Min`, `Max`, `MinSome1` and `Fold` terminate on every collection and return what the
present keys determine, and the aggregates of parts combine. `ArgMinSome` does so exactly
if the first pair, and the first pair without a null, of every collection it is run on are
present. -/
theorem aggregators_summarise_iff : (∀ collection : Collection K T R,
      (collection.Summarised minimum (IsLeast {key | collection.Present key}) ∧
        ∀ key, collection.CombinesAt minimum key) ∧
      (collection.Summarised maximum (IsGreatest {key | collection.Present key}) ∧
        ∀ key, collection.CombinesAt maximum key) ∧
      ∀ parameters : FoldParameters K R A Out, collection.Summarised (fold parameters)
          (· = foldKeys parameters parameters.init (live collection.entries))) ∧
    (∀ collection : Collection (WithBot K) T R,
      collection.Summarised minSome1 (IsLeastSome collection) ∧
        ∀ key, collection.CombinesAt minSome1 key) ∧
    (∀ collection : Collection (ArgPair K V) T R,
      (collection.Summarised argMinSome (IsLeastArg collection) ↔
        VisitsPresent collection.entries) ∧
      ∀ pair, collection.CombinesAt argMinSome pair ↔
        VisitsPresent (collection.before pair).entries ∧
          VisitsPresent (collection.startingAt pair).entries) := by
  refine ⟨?_, ?_, ?_⟩
  · intro collection
    exact ⟨⟨summarised_minimum collection, combinesAt_minimum collection⟩,
      ⟨summarised_maximum collection, combinesAt_maximum collection⟩,
      fun parameters => summarised_fold parameters collection⟩
  · intro collection
    exact ⟨summarised_minSome1 collection, combinesAt_minSome1 collection⟩
  · intro collection
    exact ⟨summarised_argMinSome_iff collection, combinesAt_argMinSome_iff collection⟩

end OpenDera.Aggregate
