import OpenDera.Std.IndexedZSet

/-!
# Output split into chunks

An operator that must not build its whole output at once collects weighted tuples
in a buffer, hands out a consolidated batch whenever the buffer is large enough
and hands out the rest at the end. `total` is the sum of everything handed out
and still pending; handing out a chunk does not change it, so where an output was
cut is invisible in the sum of the chunks.
-/

/-- Tuples collected so far and the batches already handed out, each flagged with
whether it completes the output. -/
structure ChunkBuffer (K V : Type*) [LinearOrder K] [LinearOrder V] where
  pending : List ((K × V) × ℤ) := []
  yielded : List (IndexedZSet K V × Bool) := []

namespace ChunkBuffer

open IndexedZSet

variable {K V : Type*} [LinearOrder K] [LinearOrder V]

/-- The sum of the batches in a list of chunks. -/
def sumOf (chunks : List (IndexedZSet K V × Bool)) : IndexedZSet K V := (chunks.map Prod.fst).sum

variable (buffer : ChunkBuffer K V) (tuple : (K × V) × ℤ)

/-- Add one tuple to the pending ones. -/
def pushVal : ChunkBuffer K V :=
  { buffer with pending := buffer.pending ++ [tuple] }

/-- Hand out the pending tuples if there are at least `chunkSize` of them. -/
def yieldFull (chunkSize : Nat) : ChunkBuffer K V :=
  if chunkSize ≤ buffer.pending.length then
    { pending := [], yielded := buffer.yielded ++ [(ofTuples buffer.pending, false)] }
  else
    buffer

/-- Hand out the rest as the completing chunk. -/
def finish : List (IndexedZSet K V × Bool) :=
  buffer.yielded ++ [(ofTuples buffer.pending, true)]

/-- Everything handed out so far together with what is pending. -/
def total : IndexedZSet K V :=
  sumOf buffer.yielded + ofTuples buffer.pending

@[simp] theorem total_empty : total ({} : ChunkBuffer K V) = 0 := by
  simp [total, sumOf, ofTuples]

@[simp] theorem total_pushVal : (buffer.pushVal tuple).total = buffer.total + ofTuples [tuple] := by
  simp [total, pushVal, ofTuples_append, add_assoc]

@[simp] theorem total_yieldFull (chunkSize : Nat) :
    (buffer.yieldFull chunkSize).total = buffer.total := by
  unfold yieldFull
  split_ifs
  · simp [total, sumOf, ofTuples]
  · rfl

/-- The chunks handed out add up to everything that was collected. -/
@[simp] theorem sumOf_finish : sumOf buffer.finish = buffer.total := by
  simp [finish, total, sumOf]

/-- Collecting tuples one by one adds all of them, wherever chunks are cut. -/
theorem total_foldl {push : ChunkBuffer K V → (K × V) × ℤ → ChunkBuffer K V}
    (adds : ∀ buffer tuple, (push buffer tuple).total =
      buffer.total + ofTuples [tuple]) (tuples : List ((K × V) × ℤ)) (buffer : ChunkBuffer K V) :
    (tuples.foldl push buffer).total = buffer.total + ofTuples tuples := by
  induction tuples generalizing buffer with
  | nil => simp [ofTuples]
  | cons _ _ ih =>
    rw [List.foldl_cons, ih, adds, add_assoc, ← ofTuples_append, List.singleton_append]

end ChunkBuffer
