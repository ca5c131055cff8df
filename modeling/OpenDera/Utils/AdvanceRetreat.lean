import Mathlib.Algebra.Order.Ring.Nat
import Mathlib.Data.List.Basic
import OpenDera.Std.Counted

/-!
# Exponential searches

`advance` counts the elements at the start of a slice that satisfy a predicate, `retreat`
those at its end, in time logarithmic in the result. Both come in a version that checks
its indices and one that reads from memory unchecked. They are one search that sees the
slice through a function from positions to truth values; a read outside the slice, an
overflow and a loop that does not end are failures.
-/

namespace OpenDera.Utils

open Counted Nat List

/-- The largest size of an object in bytes. -/
def isizeMax : Nat := 2 ^ 63 - 1

/-- `DEFAULT_SMALL_LIMIT`. -/
def defaultSmallLimit : Nat := 8

variable (first second : Nat)

/-- Addition of machine words, which must not overflow. -/
def add : Counted Nat :=
  if first + second < 2 ^ 64 then pure (first + second) else failure

/-- Subtraction of machine words, which must not underflow. -/
def sub : Option Nat :=
  if second ≤ first then some (first - second) else none

section

variable (length : Nat) (function : Nat → Option Bool)

/-- The position is inside the slice and satisfies the predicate, which is evaluated only
inside. -/
def holdsAt (index : Nat) : Counted Bool :=
  if index < length then tick (function index) else pure false

/-- Advance in exponentially growing steps. -/
def grow : Nat → Nat → Nat → Counted (Nat × Nat)
  | 0, _, _ => failure
  | fuel + 1, index, step => do
    let next ← add index step
    if ← holdsAt length function next then
      grow fuel next ((step <<< 1) % 2 ^ 64)
    else
      pure (index, step)

/-- Advance in exponentially shrinking steps. -/
def shrink : Nat → Nat → Nat → Counted Nat
  | 0, _, _ => failure
  | fuel + 1, index, step =>
    if step = 0 then
      pure index
    else do
      let next ← add index step
      if ← holdsAt length function next then
        shrink fuel next (step >>> 1)
      else
        shrink fuel index (step >>> 1)

/-- Search the positions from `offset` on one by one. -/
def linear : Nat → Nat → Counted Nat
  | 0, offset => pure offset
  | remaining + 1, offset => do
    if ← tick (function offset) then
      linear remaining (offset + 1)
    else
      pure offset

/-- Exponential search if the answer is not within `smallLimit`, otherwise linear search of
the first `limit` positions. -/
def search (smallLimit limit : Nat) : Counted Nat := do
  if ← holdsAt length function smallLimit then
    let index ← add smallLimit 1
    if ← holdsAt length function index then
      let (index, step) ← grow length function length index 1
      let index ← shrink length function step index (step >>> 1)
      add index 1
    else
      pure index
  else
    linear function limit 0

end

section

variable {α Byte : Type*} (smallLimit : Nat)

/-- `advance_raw`. -/
def advanceRaw (slice : List α) (function : α → Bool) : Counted Nat :=
  search slice.length (fun index => slice[index]?.map function) smallLimit
    (min slice.length smallLimit)

/-- `retreat_raw`. -/
def retreatRaw (slice : List α) (function : α → Bool) : Counted Nat :=
  if slice = [] then
    pure 0
  else
    let lastIndex := slice.length - 1
    search slice.length
      (fun index => (sub lastIndex index).bind fun position => slice[position]?.map function)
      smallLimit (min lastIndex smallLimit + 1)

/-- A slice of elements of unknown type. -/
structure SlicePtr (Byte : Type*) where
  ptr : List Byte
  elements : Nat
  elementSize : Nat

namespace SlicePtr

/-- The elements of a slice of bytes. -/
def new (slice : List Byte) (elementSize : Nat) : SlicePtr Byte :=
  { ptr := slice, elements := slice.length / elementSize, elementSize := elementSize }

/-- The bytes of an element; there is no check, so an index outside is a failure. -/
def getUnchecked (slice : SlicePtr Byte) (index : Nat) : Option (List Byte) :=
  if index < slice.elements then
    some ((slice.ptr.drop (index * slice.elementSize)).take slice.elementSize)
  else
    none

end SlicePtr

variable (slice : List Byte)

/-- `advance_erased`. -/
def advanceErased (size : Nat) (function : List Byte → Bool) : Counted Nat :=
  if size = 0 then
    pure 0
  else
    let slice := SlicePtr.new slice size
    search slice.elements (fun index => (slice.getUnchecked index).map function) defaultSmallLimit
      (min slice.elements defaultSmallLimit)

/-- `retreat_erased`. -/
def retreatErased (size : Nat) (function : List Byte → Bool) : Counted Nat :=
  if size = 0 ∨ slice = [] then
    pure 0
  else
    let slice := SlicePtr.new slice size
    match sub slice.elements 1 with
    | none => failure
    | some lastIndex =>
      search slice.elements
        (fun index => (sub lastIndex index).bind fun position =>
          (slice.getUnchecked position).map function)
        defaultSmallLimit (min lastIndex defaultSmallLimit + 1)

end

/-! ## Every search counts exactly -/

section

variable {length count index exponent : Nat} {function : Nat → Option Bool}

theorem returns_add {first second : Nat} (fits : first + second < 2 ^ 64) :
    (add first second).Returns (first + second) 0 := by
  rw [add, if_pos fits]
  exact returns_pure _ _

variable (inside : count ≤ length)
  (reads : ∀ index < length, function index = some (decide (index < count)))

include inside reads

/-- A branch on the predicate costs one evaluation. -/
theorem returns_branch {α : Type} {yes no : Counted α} {result : α} {cost : Nat} (index : Nat)
    (holds : index < count → yes.Returns result cost)
    (fails : count ≤ index → no.Returns result cost) :
    (do if ← holdsAt length function index then yes else no).Returns result (1 + cost) := by
  have evaluated : (holdsAt length function index).Returns (decide (index < count)) 1 := by
    unfold holdsAt
    split
    case isTrue within =>
      rw [reads index within]
      exact returns_tick _
    case isFalse outside =>
      rw [decide_eq_false (by omega)]
      exact returns_pure _ _
  refine evaluated.bind ?_
  by_cases before : index < count
  · simpa [before] using holds before
  · simpa [before] using fails (by omega)

/-- A linear search finds the answer if it goes far enough. -/
theorem returns_linear {remaining offset : Nat} (low : offset ≤ count)
    (high : count ≤ offset + remaining) (within : offset + remaining ≤ length) :
    (linear function remaining offset).Returns count remaining := by
  induction remaining generalizing offset with
  | zero =>
    obtain rfl : offset = count := by omega
    exact returns_pure _ _
  | succ remaining ih =>
    rw [linear, reads offset (by omega)]
    refine ((returns_tick _).bind ?_).mono (show 1 + remaining ≤ _ by omega)
    by_cases before : offset < count
    · simpa [before] using ih (by omega) (by omega) (by omega)
    · obtain rfl : offset = count := by omega
      simpa using returns_pure _ _

/-- Growing steps end at a position that satisfies the predicate, and the answer is at most
one more step away. -/
theorem returns_grow (small : length ≤ isizeMax) {fuel : Nat} (holds : index < count)
    (enough : count ≤ index + fuel) (step : 2 ^ exponent ≤ index + 1) :
    ∃ last final, last < count ∧ count ≤ last + 2 ^ final ∧ 2 ^ final ≤ last + 1 ∧
      exponent ≤ final ∧
      (grow length function fuel index (2 ^ exponent)).Returns (last, 2 ^ final)
        (final + 1 - exponent) := by
  unfold isizeMax at small
  induction fuel generalizing index exponent with
  | zero => omega
  | succ fuel ih =>
    have adds := @returns_add index (2 ^ exponent) (by omega)
    have positive := Nat.two_pow_pos exponent
    by_cases further : index + 2 ^ exponent < count
    · have doubled := pow_succ 2 exponent
      have shifted : (2 ^ exponent <<< 1) % 2 ^ 64 = 2 ^ (exponent + 1) := by
        rw [shiftLeft_eq, ← pow_succ, mod_eq_of_lt (by omega)]
      obtain ⟨last, final, low, high, bounded, grows, returns⟩ :=
        @ih (index + 2 ^ exponent) (exponent + 1) further (by omega) (by omega)
      refine ⟨last, final, low, high, bounded, by omega, ?_⟩
      rw [← shifted] at returns
      exact (adds.bind (returns_branch inside reads _ (fun _ => returns) (by omega))).mono (by omega)
    · refine ⟨index, exponent, holds, by omega, step, le_refl _, ?_⟩
      exact (adds.bind (returns_branch inside reads _ (absurd · further)
        fun _ => returns_pure _ 0)).mono (by omega)

/-- Shrinking steps end just before the answer. -/
theorem returns_shrink {fuel : Nat} (low : index < count) (high : count ≤ index + 2 ^ exponent)
    (fits : index + 2 ^ exponent < 2 ^ 64) (enough : exponent < fuel) :
    (shrink length function fuel index (2 ^ exponent >>> 1)).Returns (count - 1) exponent := by
  induction exponent generalizing index fuel with
  | zero =>
    obtain ⟨fuel, rfl⟩ := Nat.exists_eq_add_of_lt enough
    obtain rfl : count = index + 1 := by omega
    exact returns_pure _ _
  | succ exponent ih =>
    obtain ⟨fuel, rfl⟩ : ∃ fewer, fuel = fewer + 1 := ⟨fuel - 1, by omega⟩
    have positive := Nat.two_pow_pos exponent
    rw [pow_succ] at high fits
    have half : 2 ^ (exponent + 1) >>> 1 = 2 ^ exponent := by
      rw [shiftRight_eq_div_pow, pow_succ]
      omega
    rw [half, shrink, if_neg (by omega)]
    refine ((returns_add (by omega)).bind (returns_branch inside reads _
      (fun further => ?_) fun near => ?_)).mono (show 0 + (1 + exponent) ≤ _ by omega)
    · exact ih further (by omega) (by omega) (by omega)
    · exact ih low near (by omega) (by omega)

/-- The search finds the answer with few evaluations. -/
theorem returns_search (small : length ≤ isizeMax) {smallLimit limit : Nat}
    (enough : min length smallLimit ≤ limit) (within : limit ≤ length)
    (short : limit ≤ smallLimit + 1) :
    (search length function smallLimit limit).Returns count (2 * count.log2 + smallLimit + 3) := by
  have bound : count < 2 ^ 63 := by
    unfold isizeMax at small
    omega
  refine (returns_branch inside reads _ (fun far => ?_) fun near => ?_).mono
    (show 1 + (2 * count.log2 + smallLimit + 2) ≤ _ by omega)
  · refine ((returns_add (by omega)).bind (returns_branch inside reads _ (fun farther => ?_)
      fun exactly => ?_)).mono (show 0 + (1 + (2 * count.log2 + 1)) ≤ _ by omega)
    · obtain ⟨last, final, low, high, bounded, -, grows⟩ :=
        @returns_grow _ _ _ 0 _ inside reads small length farther (by omega) (by omega)
      have shrinks := returns_shrink inside reads low high (by omega) Nat.lt_two_pow_self
      have logarithm : final ≤ count.log2 := (le_log2 (by omega)).mpr (by omega)
      have adds := @returns_add (count - 1) 1 (by omega)
      rw [Nat.sub_add_cancel (by omega)] at adds
      exact (grows.bind (shrinks.bind adds)).mono (by omega)
    · obtain rfl : count = smallLimit + 1 := by omega
      exact returns_pure _ _
  · exact (returns_linear inside reads (zero_le _) (by omega) (by omega)).mono (by omega)

end

/-- A slice of elements that take space in memory. -/
structure Slice (α Byte : Type*) where
  elements : List α
  size : Nat
  positive : 0 < size
  bytes : α → List Byte
  sized : ∀ element, (bytes element).length = size
  fits : size * elements.length ≤ isizeMax

variable {α Byte : Type*}

/-- The predicate is true on the first `count` elements and false after them. -/
def TrueOnPrefix (function : α → Bool) (elements : List α) (count : Nat) : Prop :=
  count ≤ elements.length ∧
    ∀ index element, elements[index]? = some element → (function element = true ↔ index < count)

namespace Slice

variable (slice : Slice α Byte)

/-- `bytes_of`. -/
def bytesOf : List Byte :=
  slice.elements.flatMap slice.bytes

theorem length_le : slice.elements.length ≤ isizeMax :=
  Nat.le_trans (Nat.le_mul_of_pos_left _ slice.positive) slice.fits

theorem length_bytesOf : slice.bytesOf.length = slice.elements.length * slice.size := by
  simp [bytesOf, length_flatMap, slice.sized]

theorem elements_new : (SlicePtr.new slice.bytesOf slice.size).elements = slice.elements.length := by
  rw [SlicePtr.new, length_bytesOf, Nat.mul_div_cancel _ slice.positive]

/-- The bytes at an index are those of the element. -/
theorem getUnchecked_new (index : Nat) :
    (SlicePtr.new slice.bytesOf slice.size).getUnchecked index = slice.elements[index]?.map slice.bytes := by
  rw [SlicePtr.getUnchecked, elements_new]
  simp only [SlicePtr.new, bytesOf]
  generalize slice.elements = elements
  induction elements generalizing index with
  | nil => rfl
  | cons element elements ih =>
    have sized := slice.sized element
    cases index with
    | zero => simp [← sized]
    | succ index =>
      simpa [succ_mul, ← sized, ← drop_drop, add_comm] using ih index

variable (erased : List Byte → Bool)

/-- The searches that read unchecked do what the others do. -/
theorem advanceErased_bytesOf : advanceErased slice.bytesOf slice.size erased =
      advanceRaw defaultSmallLimit slice.elements (erased ∘ slice.bytes) := by
  rw [advanceErased, if_neg (ne_of_gt slice.positive)]
  simp only [elements_new, getUnchecked_new, Option.map_map]
  rfl

theorem retreatErased_bytesOf : retreatErased slice.bytesOf slice.size erased =
      retreatRaw defaultSmallLimit slice.elements (erased ∘ slice.bytes) := by
  have empty : slice.bytesOf = [] ↔ slice.elements = [] := by
    rw [← length_eq_zero_iff, ← length_eq_zero_iff, length_bytesOf, mul_eq_zero,
      or_iff_left (ne_of_gt slice.positive)]
  unfold retreatErased retreatRaw
  simp only [ne_of_gt slice.positive, false_or, empty, elements_new, getUnchecked_new,
    Option.map_map]
  split
  case isTrue => rfl
  case isFalse occupied =>
    have some : 1 ≤ slice.elements.length := length_pos_iff.mpr occupied
    rw [sub, if_pos some]

end Slice

section

variable {function : α → Bool} {elements : List α} {count : Nat} (small : elements.length ≤ isizeMax)
  (smallLimit : Nat)

include small

/-- The search from the start of a slice. -/
theorem TrueOnPrefix.returns_advanceRaw (ordered : TrueOnPrefix function elements count) :
    (advanceRaw smallLimit elements function).Returns count (2 * count.log2 + smallLimit + 3) := by
  refine returns_search ordered.1 (fun index within => ?_) small (le_refl _) (by omega) (by omega)
  have iff := ordered.2 index _ (getElem?_eq_getElem within)
  rw [getElem?_eq_getElem within, Option.map_some, Option.some.injEq, Bool.eq_iff_iff, iff,
    decide_eq_true_iff]

/-- The search from the end of a slice. -/
theorem TrueOnPrefix.returns_retreatRaw (ordered : TrueOnPrefix function elements.reverse count) :
    (retreatRaw smallLimit elements function).Returns count (2 * count.log2 + smallLimit + 3) := by
  obtain ⟨inside, iff⟩ := ordered
  rw [length_reverse] at inside
  unfold retreatRaw
  split
  case isTrue empty =>
    obtain rfl : count = 0 := by simpa [empty] using inside
    exact returns_pure _ _
  case isFalse occupied =>
    have some := length_pos_iff.mpr occupied
    refine returns_search inside (fun index within => ?_) small (by omega) (by omega) (by omega)
    have mirrored := getElem?_eq_getElem (show elements.length - 1 - index < elements.length by omega)
    rw [sub, if_pos (by omega), Option.bind_some, mirrored, Option.map_some, Option.some.injEq,
      Bool.eq_iff_iff, iff index _ (by rw [getElem?_reverse within, mirrored]), decide_eq_true_iff]

end

/-- The exponential searches return the length of the prefix or suffix on which the predicate
is true, stay inside the slice and evaluate the predicate only logarithmically often. -/
theorem exponential_searches_count (slice : Slice α Byte) (smallLimit : Nat) (function : α → Bool)
    (erased : List Byte → Bool) (count : Nat) :
    (TrueOnPrefix function slice.elements count →
      (advanceRaw smallLimit slice.elements function).Returns count
        (2 * count.log2 + smallLimit + 3)) ∧
    (TrueOnPrefix function slice.elements.reverse count →
      (retreatRaw smallLimit slice.elements function).Returns count
        (2 * count.log2 + smallLimit + 3)) ∧
    (TrueOnPrefix (erased ∘ slice.bytes) slice.elements count →
      (advanceErased slice.bytesOf slice.size erased).Returns count
        (2 * count.log2 + defaultSmallLimit + 3)) ∧
    (TrueOnPrefix (erased ∘ slice.bytes) slice.elements.reverse count →
      (retreatErased slice.bytesOf slice.size erased).Returns count
        (2 * count.log2 + defaultSmallLimit + 3)) := by
  have small := slice.length_le
  rw [slice.advanceErased_bytesOf, slice.retreatErased_bytesOf]
  exact ⟨fun ordered => ordered.returns_advanceRaw small _,
    fun ordered => ordered.returns_retreatRaw small _,
    fun ordered => ordered.returns_advanceRaw small _,
    fun ordered => ordered.returns_retreatRaw small _⟩

/-- Three numbers, each in one byte. -/
def threeNumbers : Slice Nat Nat where
  elements := [1, 2, 3]
  size := 1
  positive := by decide
  bytes := fun number => [number]
  sized := fun _ => rfl
  fits := by decide

/-- Two of the numbers are below three, and two are above one. -/
theorem exponential_searches_count_threeNumbers :
    (advanceRaw 0 threeNumbers.elements (· < 3)).Returns 2 5 ∧
    (retreatErased threeNumbers.bytesOf threeNumbers.size (· ≠ [1])).Returns 2 13 := by
  have below : TrueOnPrefix (· < 3) threeNumbers.elements 2 := by
    refine ⟨by decide, fun index element found => ?_⟩
    match index with
    | 0 | 1 | 2 => cases found; decide
    | _ + 3 => cases found
  have above : TrueOnPrefix ((· ≠ [1]) ∘ threeNumbers.bytes) threeNumbers.elements.reverse 2 := by
    refine ⟨by decide, fun index element found => ?_⟩
    match index with
    | 0 | 1 | 2 => cases found; decide
    | _ + 3 => cases found
  have counts := exponential_searches_count threeNumbers 0 (· < 3) (· ≠ [1]) 2
  exact ⟨counts.1 below, counts.2.2.2 above⟩

end OpenDera.Utils
