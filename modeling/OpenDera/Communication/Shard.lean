import OpenDera.Trace.Builder

/-!
# Sharding a batch

A batch is cut into one part for each worker by the hash of its keys: its groups
are pushed in order into the builder of the worker that the hash of the key
selects. No builder is ever handed a sequence of pushes that is not a batch, and
the part of a worker is the restriction of the batch to the worker's keys.
-/

namespace OpenDera

open List

variable {K V : Type*} [LinearOrder K] [LinearOrder V] {workers : Nat} [NeZero workers]

/-- The worker that owns `key`. -/
def shardOf (workers : Nat) [NeZero workers] (defaultHash : K → Nat) (key : K) : Fin workers :=
  Fin.ofNat workers (defaultHash key)

variable (defaultHash : K → Nat)

/-- Push a group into the builder of the worker that owns its key. -/
def pushShard (builders : Fin workers → Builder K V)
    (group : K × ZSet V) : Fin workers → Builder K V :=
  let shard := shardOf workers defaultHash group.1
  let builder := group.2.entries.foldl
    (fun builder value => builder.pushValDiff value.1 value.2) (builders shard)
  Function.update builders shard (builder.pushKey group.1)

/-- The parts of the batch by worker. -/
def shardBatch (batch : IndexedZSet K V) : Option (Fin workers → IndexedZSet K V) :=
  let builders := batch.groups.foldl (pushShard defaultHash) fun _ => {}
  if finished : ∀ worker, (builders worker).done.isSome then
    some fun worker => (builders worker).done.get (finished worker)
  else
    none

/-- The part of a batch whose keys hash to `worker`. -/
def shard (worker : Fin workers) (batch : IndexedZSet K V) : IndexedZSet K V :=
  batch.filterKeys fun key => shardOf workers defaultHash key = worker

variable (batch : IndexedZSet K V)

/-- A batch in a builder, as its groups in order. -/
private def pushed : Builder K V :=
  { groups := batch.groups.map fun group => (group.1, group.2.entries) }

private theorem complete_pushed : (pushed batch).Complete := by
  refine ⟨rfl, pairwise_map.mpr batch.sorted, ?_⟩
  intro group member
  obtain ⟨stored, storedMember, rfl⟩ := mem_map.mp member
  refine ⟨stored.2.sorted, stored.2.nonzero, ?_⟩
  intro noEntries
  refine batch.nonempty stored storedMember ?_
  exact ZSet.entries_eq_nil_iff.mp noEntries

private theorem done_pushed : (pushed batch).done = some batch := by
  have tuples : (pushed batch).tuples = batch.tuples := by
    simp [pushed, Builder.tuples, IndexedZSet.tuples, flatMap_map]
  rw [Builder.done, if_pos (complete_pushed batch), tuples, IndexedZSet.ofTuples_tuples]

omit [LinearOrder K] in
/-- Every builder receives the groups of its worker's keys, in order. -/
private theorem foldl_pushShard (groups : List (K × ZSet V))
    (builders : Fin workers → Builder K V) (settled : ∀ worker, (builders worker).vals = [])
    (worker : Fin workers) :
    groups.foldl (pushShard defaultHash) builders worker =
      { groups := (builders worker).groups ++
          (groups.filter fun group => shardOf workers defaultHash group.1 = worker).map
            fun group => (group.1, group.2.entries) } := by
  induction groups generalizing builders with
  | nil =>
    cases same : builders worker
    simpa [same] using settled worker
  | cons group _ ih =>
    have stillSettled : ∀ other, (pushShard defaultHash builders group other).vals = [] := by
      intro other
      unfold pushShard
      by_cases owner : other = shardOf workers defaultHash group.1
      · simp [owner, Builder.pushKey]
      · simpa [owner] using settled other
    rw [foldl_cons, ih _ stillSettled]
    by_cases owner : shardOf workers defaultHash group.1 = worker
    · simp [pushShard, owner, Builder.foldl_pushValDiff, Builder.pushKey, settled]
    · simp [pushShard, owner, Function.update_of_ne (Ne.symm owner)]

/-- Sharding succeeds, and each worker's part is the restriction to its keys. -/
theorem shardBatch_eq :
    shardBatch defaultHash batch = some fun worker : Fin workers => shard defaultHash worker batch := by
  have built : ∀ worker : Fin workers,
      (batch.groups.foldl (pushShard defaultHash) (fun _ => {}) worker).done =
        some (shard defaultHash worker batch) := by
    intro worker
    rw [foldl_pushShard defaultHash batch.groups _ (fun _ => rfl) worker]
    exact done_pushed (shard defaultHash worker batch)
  unfold shardBatch
  simp [built]

end OpenDera
