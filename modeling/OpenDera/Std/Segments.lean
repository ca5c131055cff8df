import Mathlib.Data.List.Induction

/-!
# Streams cut into segments

A stream of items in which some are marked as the last of their segment. `marks`
counts the finished segments and `segmentAt stream k` lists the items of the `k`-th
one. Both are determined by appending one item at a time: the item belongs to the
segment whose number is the number of marks before it.
-/

namespace Segments

open List

variable {I Image : Type*}

/-- The number of finished segments. -/
def marks : List (I × Bool) → Nat
  | [] => 0
  | (_, last) :: stream => marks stream + last.toNat

/-- The items of the `k`-th segment, as far as the stream goes. -/
def segmentAt : List (I × Bool) → Nat → List I
  | [], _ => []
  | (item, last) :: stream, 0 => item :: if last then [] else segmentAt stream 0
  | (_, last) :: stream, k + 1 => segmentAt stream (if last then k else k + 1)

variable (first second : List (I × Bool))

@[simp] theorem marks_append : marks (first ++ second) = marks first + marks second := by
  induction first with
  | nil => simp [marks]
  | cons _ _ ih =>
    rw [cons_append, marks, marks, ih]
    omega

variable (image : I → Image) (stream : List (I × Bool))

@[simp] theorem marks_map :
    marks (stream.map fun entry => (image entry.1, entry.2)) = marks stream := by
  induction stream with
  | nil => rfl
  | cons _ _ ih => simp [marks, ih]

theorem segmentAt_map (k : Nat) :
    segmentAt (stream.map fun entry => (image entry.1, entry.2)) k = (segmentAt stream k).map image := by
  induction stream generalizing k with
  | nil => rfl
  | cons entry _ ih =>
    obtain ⟨item, last⟩ := entry
    cases k <;> cases last <;> simp [segmentAt, ih]

variable (stream : List (I × Bool))

/-- An item joins the segment whose number is the number of marks before it. -/
theorem segmentAt_append_singleton (item : I) (last : Bool) (k : Nat) :
    segmentAt (stream ++ [(item, last)]) k =
      segmentAt stream k ++ if k = marks stream then [item] else [] := by
  induction stream generalizing k with
  | nil => cases k <;> cases last <;> simp [segmentAt, marks]
  | cons entry _ ih =>
    obtain ⟨head, mark⟩ := entry
    cases mark with
    | false => cases k <;> simp only [cons_append, segmentAt, marks, ih] <;> rfl
    | true => cases k <;> simp [segmentAt, marks, ih]

/-- A finished segment does not grow. -/
theorem segmentAt_append {k : Nat} (finished : k < marks first) :
    segmentAt (first ++ second) k = segmentAt first k := by
  induction second using reverseRecOn with
  | nil => simp
  | append_singleton second entry ih =>
    have earlier : k ≠ marks (first ++ second) := by
      rw [marks_append]
      omega
    rw [← append_assoc, segmentAt_append_singleton, ih, if_neg earlier, append_nil]

/-- Segments behind the last mark but one are empty. -/
theorem segmentAt_eq_nil {k : Nat} (later : marks stream < k) : segmentAt stream k = [] := by
  induction stream using reverseRecOn with
  | nil => rfl
  | append_singleton _ entry ih =>
    rw [marks_append] at later
    rw [segmentAt_append_singleton, ih (by omega), if_neg (by omega), append_nil]

end Segments
