import OpenDera.Std.Multiplicity

/-!
# Filters of batch files

A batch file comes with the range of its keys and, if one is enabled, a Bloom filter or
a bitmap of its keys, so that a lookup need not read the file. A bitmap numbers the keys
from a minimum. The builder of a merge takes for it the least key of the input batches,
before it knows which keys are left after filtering and cancellation; a file that is
opened again takes the least key it stores. The two agree exactly if the least input key
is stored.
-/

namespace OpenDera.Storage

open List

variable {K V : Type*} [LinearOrder K] [LinearOrder V]

/-- How a type supports bitmaps: the integer types and their wrappers number their values,
the other types do not. -/
structure SupportsRoaring (K : Type*) [LinearOrder K] where
  number : Option (K ↪o ℤ)

namespace SupportsRoaring

variable (type : SupportsRoaring K)

def supportsRoaring32 : Bool := type.number.isSome

/-- The distance of a key from the minimum if it fits in 32 bits. -/
def roaringU32Offset (key min : K) : Option ℕ :=
  type.number.bind fun number =>
    if min ≤ key ∧ number key - number min < 2 ^ 32 then some (number key - number min).toNat
    else none

end SupportsRoaring

/-- A Bloom filter over hashes, which has no false negatives. -/
structure BloomFilter where
  State : Type
  new : ℕ → State
  insertHash : State → UInt64 → State
  containsHash : State → UInt64 → Bool
  contains_insert : ∀ state hash, containsHash (insertHash state hash) hash
  contains_of_contains : ∀ state hash other, containsHash state hash →
    containsHash (insertHash state other) hash

/-- What the filters of a key type depend on: the configuration, the hash function, the
library of Bloom filters and whether lookups are predicted to be faster with a bitmap. -/
structure Environment (K : Type*) [LinearOrder K] where
  type : SupportsRoaring K
  bloom : BloomFilter
  defaultHash : K → UInt64
  enableRoaring : Bool
  enableBloom : Bool
  lookupPrefersRoaring : Bool

variable (environment : Environment K)

/-! ## Choosing a filter -/

variable (batch : IndexedZSet K V)

/-- The keys of a batch, in ascending order. -/
def storedKeys : List K := batch.groups.map Prod.fst

/-- The least and the greatest key of a batch. -/
def keyBounds : Option (K × K) :=
  batch.groups.head?.bind fun first => batch.groups.getLast?.map fun last => (first.1, last.1)

/-- What is known about a merge before it is written. -/
structure FilterPlan (K : Type*) where
  min : K
  max : K

namespace FilterPlan

/-- Extend the bounds seen so far by those of another batch, which must not be empty. -/
def extendBounds (bounds : Option (FilterPlan K)) (batch : IndexedZSet K V) :
    Option (Option (FilterPlan K)) :=
  (keyBounds batch).map fun (batchMin, batchMax) =>
    match bounds with
    | some ⟨min, max⟩ =>
      some ⟨if batchMin < min then batchMin else min, if max < batchMax then batchMax else max⟩
    | none => some ⟨batchMin, batchMax⟩

def fromBatches (batches : List (IndexedZSet K V)) : Option (FilterPlan K) :=
  (batches.foldlM extendBounds none).join

variable (plan : FilterPlan K)

def roaringRangeFits : Bool :=
  environment.type.supportsRoaring32 &&
    (environment.type.roaringU32Offset plan.max plan.min).isSome

def canUseRoaring : Bool :=
  environment.enableRoaring && plan.roaringRangeFits environment

end FilterPlan

/-- A Bloom filter, or a bitmap of distances from a minimum. -/
inductive BatchKeyFilter (K : Type*) (bloom : BloomFilter) where
  | bloom (filter : bloom.State)
  | roaringU32 (bitmap : List ℕ) (min : K)

/-- `decide_filter`. -/
def decideFilter (plan : Option (FilterPlan K)) (estimatedKeys : ℕ) :
    Option (BatchKeyFilter K environment.bloom) :=
  match environment.enableBloom, plan with
  | true, some plan =>
    if !plan.canUseRoaring environment then some (.bloom (environment.bloom.new estimatedKeys))
    else if environment.lookupPrefersRoaring then some (.roaringU32 [] plan.min)
    else some (.bloom (environment.bloom.new estimatedKeys))
  | true, none => some (.bloom (environment.bloom.new estimatedKeys))
  | false, some plan =>
    if plan.canUseRoaring environment then some (.roaringU32 [] plan.min) else none
  | false, none => none

/-- The filter a builder made by `for_merge` starts with. -/
def forMerge (batches : List (IndexedZSet K V)) : Option (BatchKeyFilter K environment.bloom) :=
  let keyCapacity := (batches.map fun batch => (storedKeys batch).length).sum
  if environment.enableRoaring then
    decideFilter environment (FilterPlan.fromBatches batches) keyCapacity
  else
    decideFilter environment none keyCapacity

/-! ## Writing and probing -/

/-- Append to a bitmap; a value below the last one is a panic. -/
def push (bitmap : List ℕ) (value : ℕ) : Option (List ℕ) :=
  if bitmap.all (· < value) then some (bitmap ++ [value])
  else if bitmap.getLast? = some value then some bitmap
  else none

/-- Add a key; a key outside the planned range is a panic. -/
def BatchKeyFilter.pushKey (filter : BatchKeyFilter K environment.bloom) (key : K) :
    Option (BatchKeyFilter K environment.bloom) :=
  match filter with
  | .bloom filter => some (.bloom (environment.bloom.insertHash filter (environment.defaultHash key)))
  | .roaringU32 bitmap min =>
    (environment.type.roaringU32Offset key min).bind fun offset =>
      (push bitmap offset).map fun bitmap => .roaringU32 bitmap min

/-- A file: the batch it stores and the filter as written. A bitmap is written without its
minimum. -/
structure BatchFile (K V : Type*) [LinearOrder K] [LinearOrder V] (bloom : BloomFilter) where
  batch : IndexedZSet K V
  filter : Option (bloom.State ⊕ List ℕ)

/-- The filters of a batch, the range first. -/
structure BatchFilters (K : Type*) (bloom : BloomFilter) where
  range : Option (K × K)
  membership : Option (BatchKeyFilter K bloom)

/-- Ask a membership filter; a key outside the range of a bitmap is a panic. -/
def BatchKeyFilter.maybeContainsKey (key : K) : BatchKeyFilter K environment.bloom → Option Bool
  | .bloom filter => some (environment.bloom.containsHash filter (environment.defaultHash key))
  | .roaringU32 bitmap min =>
    (environment.type.roaringU32Offset key min).map fun offset => decide (offset ∈ bitmap)

attribute [local simp] BatchKeyFilter.maybeContainsKey

/-- Whether a key may be in the batch. -/
def BatchFilters.maybeContainsKey (filters : BatchFilters K environment.bloom) (key : K) :
    Option Bool :=
  if filters.range.any fun range => decide (range.1 ≤ key ∧ key ≤ range.2) then
    filters.membership.elim (some true) (BatchKeyFilter.maybeContainsKey environment key)
  else
    some false

open BatchKeyFilter

/-- `into_reader`: the file and the filters that the writer hands over. -/
def intoReader (filter : Option (BatchKeyFilter K environment.bloom)) (batch : IndexedZSet K V) :
    Option (BatchFile K V environment.bloom × BatchFilters K environment.bloom) :=
  match filter with
  | none => some (⟨batch, none⟩, ⟨keyBounds batch, none⟩)
  | some filter =>
    ((storedKeys batch).foldlM (pushKey environment) filter).map fun filter =>
      let block := match filter with
        | .bloom filter => .inl filter
        | .roaringU32 bitmap _ => .inr bitmap
      (⟨batch, some block⟩, ⟨keyBounds batch, some filter⟩)

/-- `membership_filter` with the range from `key_range`: a bitmap of an empty file is an
error. -/
def reopen (file : BatchFile K V environment.bloom) : Option (BatchFilters K environment.bloom) :=
  match file.filter with
  | none => some ⟨keyBounds file.batch, none⟩
  | some (.inl filter) => some ⟨keyBounds file.batch, some (.bloom filter)⟩
  | some (.inr bitmap) =>
    (keyBounds file.batch).map fun range => ⟨some range, some (.roaringU32 bitmap range.1)⟩

/-- A merge of batches, of which the pairs that satisfy `keep` are kept. -/
structure FileMerge (K V : Type*) [LinearOrder K] [LinearOrder V] where
  environment : Environment K
  batches : List (IndexedZSet K V)
  keep : K × V → Bool

namespace FileMerge

variable (merge : FileMerge K V)

/-- What reaches the file. -/
def merged : IndexedZSet K V := merge.batches.sum.filter merge.keep

/-- The filters handed over with a file accept all its keys, and no probe panics, before and
after the file is opened again. -/
def Answers (file : BatchFile K V merge.environment.bloom)
    (filters : BatchFilters K merge.environment.bloom) : Prop :=
  (∀ key, filters.maybeContainsKey merge.environment key ≠ none) ∧
  (∀ reopened, reopen merge.environment file = some reopened →
    ∀ key, reopened.maybeContainsKey merge.environment key ≠ none) ∧
  ∀ key ∈ storedKeys file.batch, filters.maybeContainsKey merge.environment key = some true

/-- The file is written, and its filters answer. -/
def AnswersProbes : Prop :=
  ∃ file filters,
    intoReader merge.environment (forMerge merge.environment merge.batches) merge.merged =
      some (file, filters) ∧ merge.Answers file filters

/-- The file is written, no filter rejects one of its keys, before and after it is opened
again, and no probe panics. -/
def NeverRejects : Prop :=
  ∃ file filters,
    intoReader merge.environment (forMerge merge.environment merge.batches) merge.merged =
      some (file, filters) ∧ merge.Answers file filters ∧
    ∀ key ∈ storedKeys file.batch, ∃ reopened, reopen merge.environment file = some reopened ∧
      reopened.maybeContainsKey merge.environment key = some true

/-- If a bitmap is chosen, its minimum, the least input key, is stored, or nothing is. -/
def KeepsMinimum : Prop :=
  ∀ bitmap min, forMerge merge.environment merge.batches = some (.roaringU32 bitmap min) →
    storedKeys merge.merged = [] ∨ min ∈ storedKeys merge.merged

end FileMerge

/-! ## What the filters say -/

variable {batch : IndexedZSet K V}

theorem keyBounds_eq_none (none : keyBounds batch = none) : storedKeys batch = [] := by
  rw [keyBounds] at none
  cases groups : batch.groups with
  | nil => simp [storedKeys, groups]
  | cons => simp [groups, List.getLast?_cons] at none

/-- The bounds of a batch are keys of it, and all its keys lie between them. -/
theorem keyBounds_spec {range : K × K} (bounds : keyBounds batch = some range) :
    range.1 ∈ storedKeys batch ∧ range.2 ∈ storedKeys batch ∧
      ∀ key ∈ storedKeys batch, range.1 ≤ key ∧ key ≤ range.2 := by
  obtain ⟨first, isFirst, rest⟩ := Option.bind_eq_some_iff.mp bounds
  obtain ⟨last, isLast, rfl⟩ := Option.map_eq_some_iff.mp rest
  refine ⟨mem_map_of_mem (mem_of_head? isFirst),
    mem_map_of_mem (mem_of_getLast? isLast), forall_mem_map.mpr ?_⟩
  exact fun entry member => ⟨batch.sorted.head?_le isFirst entry member,
    batch.sorted.le_getLast? isLast entry member⟩

open IndexedZSet

theorem mem_storedKeys {key : K} :
    key ∈ storedKeys batch ↔ ∃ value, batch.weight key value ≠ 0 := by
  rw [← group_ne_zero_iff]
  simp [storedKeys, mem_groups]

/-- A merge stores no key that no input batch has. -/
theorem FileMerge.exists_of_mem_merged {merge : FileMerge K V} {key : K}
    (member : key ∈ storedKeys merge.merged) : ∃ batch ∈ merge.batches, key ∈ storedKeys batch := by
  obtain ⟨value, present⟩ := mem_storedKeys.mp member
  by_contra absent
  push Not at absent
  refine present ?_
  rw [merged, weight_filter, weight_sum, sum_eq_zero, ite_self]
  intro weight weighs
  obtain ⟨batch, isInput, rfl⟩ := mem_map.mp weighs
  by_contra nonzero
  exact absent batch isInput (mem_storedKeys.mpr ⟨value, nonzero⟩)

variable {batches : List (IndexedZSet K V)}

/-- The bounds of several batches enclose their keys and the bounds before. -/
theorem FilterPlan.foldlM_extendBounds {start : Option (FilterPlan K)} {plan : FilterPlan K}
    (folded : batches.foldlM extendBounds start = some (some plan)) :
    (∀ old ∈ start, plan.min ≤ old.min ∧ old.max ≤ plan.max) ∧
      ∀ batch ∈ batches, ∀ key ∈ storedKeys batch, plan.min ≤ key ∧ key ≤ plan.max := by
  induction batches generalizing start with
  | nil => simp_all
  | cons _ _ ih =>
    obtain ⟨next, extended, later⟩ := Option.bind_eq_some_iff.mp folded
    obtain ⟨own, bounds, rfl⟩ := Option.map_eq_some_iff.mp extended
    obtain ⟨enclosed, others⟩ := ih later
    have keys := (keyBounds_spec bounds).2.2
    cases start with
    | none =>
      have within := enclosed _ rfl
      exact ⟨by simp, forall_mem_cons.mpr ⟨by grind, others⟩⟩
    | some =>
      have within := enclosed _ rfl
      exact ⟨by grind, forall_mem_cons.mpr ⟨by grind, others⟩⟩

variable {min : K}

/-- A bitmap is chosen only if the keys of all input batches lie between its minimum and
a key whose distance from it fits in 32 bits. -/
theorem forMerge_eq_roaring {bitmap : List ℕ}
    (chosen : forMerge environment batches = some (.roaringU32 bitmap min)) :
    bitmap = [] ∧ ∃ max, FilterPlan.roaringRangeFits environment ⟨min, max⟩ ∧
      ∀ batch ∈ batches, ∀ key ∈ storedKeys batch, min ≤ key ∧ key ≤ max := by
  have decided : ∀ plan estimatedKeys,
      decideFilter environment plan estimatedKeys = some (.roaringU32 bitmap min) →
        bitmap = [] ∧ ∃ planned, plan = some planned ∧ min = planned.min ∧
          planned.canUseRoaring environment := by
    intro plan estimatedKeys
    unfold decideFilter
    grind
  unfold forMerge at chosen
  split at chosen
  case isFalse => simpa using decided _ _ chosen
  case isTrue =>
    obtain ⟨empty, plan, planned, rfl, usable⟩ := decided _ _ chosen
    rw [FilterPlan.canUseRoaring, Bool.and_eq_true] at usable
    exact ⟨empty, plan.max, usable.2,
      (FilterPlan.foldlM_extendBounds (Option.join_eq_some_iff.mp planned)).2⟩

/-- Between two keys whose distance fits, every distance is computed. -/
theorem roaringU32Offset_eq {max : K} (fits : FilterPlan.roaringRangeFits environment ⟨min, max⟩) :
    ∃ number : K ↪o ℤ, ∀ base key, min ≤ base → base ≤ key → key ≤ max →
      environment.type.roaringU32Offset key base = some (number key - number base).toNat := by
  unfold FilterPlan.roaringRangeFits SupportsRoaring.roaringU32Offset at *
  cases numbered : environment.type.number with
  | none => simp [numbered] at fits
  | some number =>
    refine ⟨number, fun base key low order high => ?_⟩
    have small : number max - number min < 2 ^ 32 := by
      rw [numbered] at fits
      grind
    have := number.le_iff_le.mpr low
    have := number.le_iff_le.mpr high
    rw [Option.bind_some, if_pos ⟨order, by omega⟩]

/-- Ascending keys are appended to a bitmap. -/
theorem foldlM_pushKey_roaring {number : K ↪o ℤ} {keys : List K} (sorted : keys.Pairwise (· < ·))
    (offsets : ∀ key ∈ keys, min ≤ key ∧
      environment.type.roaringU32Offset key min = some (number key - number min).toNat)
    {bitmap : List ℕ}
    (below : ∀ value ∈ bitmap, ∀ key ∈ keys, value < (number key - number min).toNat) :
    keys.foldlM (pushKey environment) (.roaringU32 bitmap min) =
      some (.roaringU32 (bitmap ++ keys.map fun key => (number key - number min).toNat) min) := by
  induction keys generalizing bitmap with
  | nil => simp
  | cons key _ ih =>
    have pushed : pushKey environment (.roaringU32 bitmap min) key =
        some (.roaringU32 (bitmap ++ [(number key - number min).toNat]) min) := by
      have above : bitmap.all (· < (number key - number min).toNat) := by
        simpa only [all_eq_true, decide_eq_true_eq] using
          fun value member => below value member key mem_cons_self
      simp only [pushKey, (offsets key mem_cons_self).2, Option.bind_some, push,
        if_pos above, Option.map_some]
    rw [foldlM_cons, pushed]
    refine (ih sorted.tail (fun other member => offsets other (mem_cons_of_mem _ member))
      ?_).trans (by simp)
    intro value member other later
    rcases mem_append.mp member with old | new
    · exact below value old other (mem_cons_of_mem _ later)
    · rw [mem_singleton.mp new]
      have := number.le_iff_le.mpr (offsets key mem_cons_self).1
      have := number.lt_iff_lt.mpr (rel_of_pairwise_cons sorted later)
      omega

/-- A Bloom filter contains the keys added to it. -/
theorem foldlM_pushKey_bloom (keys : List K) (filter : environment.bloom.State) :
    ∃ final, keys.foldlM (pushKey environment) (.bloom filter) = some (.bloom final) ∧
      (∀ hash, environment.bloom.containsHash filter hash → environment.bloom.containsHash final hash) ∧
      ∀ key ∈ keys, environment.bloom.containsHash final (environment.defaultHash key) := by
  induction keys generalizing filter with
  | nil => exact ⟨filter, rfl, fun _ contains => contains, by simp⟩
  | cons key _ ih =>
    obtain ⟨final, folded, kept, added⟩ :=
      ih (environment.bloom.insertHash filter (environment.defaultHash key))
    refine ⟨final, folded, fun hash contains => ?_, ?_⟩
    · exact kept hash (environment.bloom.contains_of_contains _ _ _ contains)
    · rintro other (_ | ⟨_, later⟩)
      · exact kept _ (environment.bloom.contains_insert _ _)
      · exact added other later

namespace FileMerge

variable {merge : FileMerge K V}

section

variable {membership : Option (BatchKeyFilter K merge.environment.bloom)}

/-- Filters answer for every key if the membership filter does for every key in range. -/
theorem maybeContainsKey_ne_none
    (answers : ∀ low ∈ storedKeys merge.merged, ∀ high ∈ storedKeys merge.merged, ∀ key,
      low ≤ key → key ≤ high →
      membership.elim (some true) (BatchKeyFilter.maybeContainsKey merge.environment key) ≠ none)
    (key : K) : BatchFilters.maybeContainsKey merge.environment
      ⟨keyBounds merge.merged, membership⟩ key ≠ none := by
  cases bounds : keyBounds merge.merged with
  | none => simp [BatchFilters.maybeContainsKey]
  | some =>
    obtain ⟨isLow, isHigh, -⟩ := keyBounds_spec bounds
    unfold BatchFilters.maybeContainsKey
    split
    case isFalse => simp
    case isTrue within =>
      rw [Option.any_some, decide_eq_true_eq] at within
      exact answers _ isLow _ isHigh key within.1 within.2

/-- Filters accept the stored keys that the membership filter accepts. -/
theorem maybeContainsKey_eq_true {key : K} (member : key ∈ storedKeys merge.merged)
    (accepts : membership.elim (some true)
      (BatchKeyFilter.maybeContainsKey merge.environment key) = some true) :
    BatchFilters.maybeContainsKey merge.environment
      ⟨keyBounds merge.merged, membership⟩ key = some true := by
  cases bounds : keyBounds merge.merged with
  | none => simp [keyBounds_eq_none bounds] at member
  | some =>
    have within := (keyBounds_spec bounds).2.2 key member
    simpa [BatchFilters.maybeContainsKey, within] using accepts

end

/-- The file of a merge with a bitmap: the distances of its keys from the least input key. -/
theorem intoReader_roaring {bitmap : List ℕ}
    (chosen : forMerge merge.environment merge.batches = some (.roaringU32 bitmap min)) :
    ∃ number : K ↪o ℤ, (∀ key ∈ storedKeys merge.merged, min ≤ key) ∧
      (∀ base, min ≤ base → ∀ high ∈ storedKeys merge.merged, ∀ key, base ≤ key → key ≤ high →
        merge.environment.type.roaringU32Offset key base = some (number key - number base).toNat) ∧
      let offsets := (storedKeys merge.merged).map fun key => (number key - number min).toNat
      intoReader merge.environment (forMerge merge.environment merge.batches) merge.merged =
        some (⟨merge.merged, some (.inr offsets)⟩,
          ⟨keyBounds merge.merged, some (.roaringU32 offsets min)⟩) := by
  obtain ⟨rfl, max, fits, within⟩ := forMerge_eq_roaring merge.environment chosen
  obtain ⟨number, numbers⟩ := roaringU32Offset_eq merge.environment fits
  have inside : ∀ key ∈ storedKeys merge.merged, min ≤ key ∧ key ≤ max := by
    intro key member
    obtain ⟨batch, isInput, listed⟩ := exists_of_mem_merged member
    exact within batch isInput key listed
  refine ⟨number, fun key member => (inside key member).1, ?_, ?_⟩
  · intro base low high isHigh key order below
    exact numbers base key low order (below.trans (inside high isHigh).2)
  · have folded := @foldlM_pushKey_roaring _ _ merge.environment min number (storedKeys _)
      (pairwise_map.mpr merge.merged.sorted) (fun key member => ⟨(inside key member).1,
        numbers min key le_rfl (inside key member).1 (inside key member).2⟩) [] (by simp)
    rw [chosen, intoReader, folded]
    rfl

/-- The filters handed over answer. Those of the file opened again are the same under the
condition, unless nothing is stored. -/
theorem exists_written (merge : FileMerge K V) : ∃ file filters,
    intoReader merge.environment (forMerge merge.environment merge.batches) merge.merged =
      some (file, filters) ∧ merge.Answers file filters ∧
    (merge.KeepsMinimum → storedKeys file.batch = [] ∨
      reopen merge.environment file = some filters) := by
  cases chosen : forMerge merge.environment merge.batches with
  | none =>
    have safe := @maybeContainsKey_ne_none _ _ _ _ merge none (by simp)
    refine ⟨_, _, rfl, ⟨safe, fun _ opened => ?_,
      fun _ member => maybeContainsKey_eq_true member rfl⟩, fun _ => .inr rfl⟩
    exact Option.some.inj opened ▸ safe
  | some filter =>
    cases filter with
    | bloom filter =>
      obtain ⟨final, folded, -, contains⟩ :=
        foldlM_pushKey_bloom merge.environment (storedKeys merge.merged) filter
      have safe := @maybeContainsKey_ne_none _ _ _ _ merge (some (.bloom final)) (by simp)
      refine ⟨_, _, by rw [intoReader, folded]; rfl, ⟨safe, fun _ opened => ?_, fun key member =>
        maybeContainsKey_eq_true member (congrArg some (contains key member))⟩, fun _ => .inr rfl⟩
      exact Option.some.inj opened ▸ safe
    | roaringU32 bitmap min =>
      obtain ⟨number, least, numbers, written⟩ := intoReader_roaring chosen
      -- The bitmap answers from whichever minimum below the stored keys it is read.
      have safe : ∀ base, min ≤ base → (∀ key ∈ storedKeys merge.merged, base ≤ key) →
          ∀ offsets key, BatchFilters.maybeContainsKey merge.environment
            ⟨keyBounds merge.merged, some (.roaringU32 offsets base)⟩ key ≠ none := by
        refine fun base above below offsets => maybeContainsKey_ne_none ?_
        intro low isLow high isHigh key order within
        simp [numbers base above high isHigh key ((below low isLow).trans order) within]
      refine ⟨_, _, chosen ▸ written, ⟨safe min le_rfl least _, ?_, ?_⟩, ?_⟩
      · intro reopened opened
        cases bounds : keyBounds merge.merged with
        | none => simp [reopen, bounds] at opened
        | some range =>
          obtain ⟨isLow, -, within⟩ := keyBounds_spec bounds
          obtain rfl : _ = reopened := by simpa [reopen, bounds] using opened
          rw [← bounds]
          exact safe range.1 (least range.1 isLow) (fun key member => (within key member).1) _
      · intro key member
        have offset := numbers min le_rfl key member key (least key member) le_rfl
        refine maybeContainsKey_eq_true member ?_
        simp only [Option.elim_some, BatchKeyFilter.maybeContainsKey, offset, Option.map_some,
          Option.some.injEq, decide_eq_true_eq]
        exact mem_map_of_mem member
      · intro keeps
        refine (keeps bitmap min chosen).imp_right fun stored => ?_
        cases bounds : keyBounds merge.merged with
        | none => simp [keyBounds_eq_none bounds] at stored
        | some range =>
          obtain ⟨isLow, -, within⟩ := keyBounds_spec bounds
          have same : range.1 = min := le_antisymm (within min stored).1 (least range.1 isLow)
          simp [reopen, bounds, same]

/-- The condition suffices. -/
theorem neverRejects_of_keepsMinimum (keeps : merge.KeepsMinimum) : merge.NeverRejects := by
  obtain ⟨file, filters, written, answers, same⟩ := exists_written merge
  refine ⟨file, filters, written, answers, fun key member => ?_⟩
  rcases same keeps with empty | same
  · simp [empty] at member
  · exact ⟨filters, same, answers.2.2 key member⟩

/-- A file with a bitmap whose minimum is not stored rejects its least key when it is
opened again. -/
theorem keepsMinimum_of_neverRejects (never : merge.NeverRejects) : merge.KeepsMinimum := by
  intro bitmap min chosen
  obtain ⟨number, least, numbers, written⟩ := intoReader_roaring chosen
  obtain ⟨file, filters, same, -, accepts⟩ := never
  obtain ⟨rfl, rfl⟩ := Prod.mk.inj (Option.some.inj (written.symm.trans same))
  cases bounds : keyBounds merge.merged with
  | none => exact .inl (keyBounds_eq_none bounds)
  | some range =>
    obtain ⟨isLow, -, within⟩ := keyBounds_spec bounds
    obtain ⟨reopened, opened, accepted⟩ := accepts range.1 isLow
    obtain rfl : _ = reopened := by simpa [reopen, bounds] using opened
    have offset := numbers range.1 (least range.1 isLow) range.1 isLow range.1 le_rfl le_rfl
    have listed : 0 ∈ (storedKeys merge.merged).map fun key => (number key - number min).toNat := by
      simpa [BatchFilters.maybeContainsKey, within range.1 isLow, offset] using accepted
    obtain ⟨key, member, zero⟩ := mem_map.mp listed
    have order := number.le_iff_le.mpr (least key member)
    have equal : number key = number min := by omega
    exact .inr (number.injective equal ▸ member)

end FileMerge

/-- The filters handed over accept every stored key and no probe panics. No filter ever rejects a
stored key, also after the file is opened again, exactly if the least input key is stored or no
bitmap is used. -/
theorem neverRejects_iff (merge : FileMerge K V) :
    merge.AnswersProbes ∧ (merge.NeverRejects ↔ merge.KeepsMinimum) := by
  obtain ⟨file, filters, written, answers, -⟩ := FileMerge.exists_written merge
  exact ⟨⟨file, filters, written, answers⟩, FileMerge.keepsMinimum_of_neverRejects,
    FileMerge.neverRejects_of_keepsMinimum⟩

/-- Bitmaps over integers, without Bloom filters. -/
def bitmapsOnly : Environment ℤ where
  type := ⟨some (RelEmbedding.refl _)⟩
  bloom := ⟨Unit, fun _ => (), fun _ _ => (), fun _ _ => true, by simp, by simp⟩
  defaultHash := fun _ => 0
  enableRoaring := true
  enableBloom := false
  lookupPrefersRoaring := true

/-- Key 1 is inserted by one batch and removed by the other; key 5 stays. -/
def leastKeyCancels : FileMerge ℤ ℤ where
  environment := bitmapsOnly
  batches := [.ofTuples [((1, 0), 1), ((5, 0), 1)], .ofTuples [((1, 0), -1)]]
  keep := fun _ => true

/-- Opened again, the file rejects key 5, which it stores. -/
theorem leastKeyCancels_rejects : ¬leastKeyCancels.NeverRejects := by
  intro never
  rcases FileMerge.keepsMinimum_of_neverRejects never [] 1 rfl with empty | stored
  · exact absurd empty (by decide)
  · exact absurd stored (by decide)

end OpenDera.Storage
