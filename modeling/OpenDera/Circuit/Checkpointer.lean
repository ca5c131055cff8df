import Mathlib.Data.List.Triplewise
import OpenDera.Std.Run

/-!
# Checkpoints and their garbage collection

A checkpoint is a directory that lists the batch files it references; the catalog lists the
checkpoints from which a process can be restored. Collection drops all but the last two
checkpoints and the exempted ones from the catalog, and deletes the batch files of the
dropped ones, except those of the exempted ones and of the first other one that stays: it
relies on later checkpoints to reference no other old file.

Every storage operation may fail; the outcome of an event says how far it came. An
identifier is used for one checkpoint only, so one function `dependencies` says what
`gather_batches_for_checkpoint_uuid` finds in the directories of a run.
-/

namespace OpenDera.Checkpointer

open List Option

variable {Uuid File : Type} (dependencies : Uuid → List File)

/-- The storage directory as far as checkpoints use it. -/
structure Storage (Uuid File : Type) where
  /-- There is a catalog file. -/
  catalogued : Bool := false
  catalog : List Uuid := []
  /-- Catalogs replaced since the directory was synced, which a crash may bring back. -/
  unsynced : List (List Uuid) := []
  directories : List Uuid := []
  files : List File := []

/-- `update_checkpoint_file`, up to the rename. -/
def Storage.updateCheckpointFile (storage : Storage Uuid File) (checkpointList : List Uuid) :
    Storage Uuid File :=
  { storage with
    catalogued := true
    catalog := checkpointList
    unsynced := storage.catalog :: storage.unsynced }

/-- `read_checkpoints` refuses a storage with checkpoints and without a catalog. -/
def Storage.readCheckpoints (storage : Storage Uuid File) : Option (List Uuid) :=
  if storage.catalogued || storage.directories.isEmpty then some storage.catalog else none

/-- A process with its list of checkpoints, the files of the checkpoint it was restored
from and the files it has created. For reference, `listed` holds the files of all
checkpoints that were in the list since the process started. -/
structure State (Uuid File : Type) where
  storage : Storage Uuid File := {}
  checkpointList : List Uuid := []
  restored : List File := []
  created : List File := []
  listed : List File := []

/-- How far `commit` comes. -/
inductive CommitOutcome where
  /-- It fails before there is a directory. -/
  | failed
  /-- It fails before the catalog is replaced. -/
  | uncatalogued
  /-- It fails to sync the catalog. -/
  | unsynced
  | committed

/-- How far `gc_checkpoint` comes; a deletion that is not reached or fails changes
nothing. -/
inductive GcOutcome (Uuid File : Type) where
  /-- It fails to read the exempted checkpoints. -/
  | failed
  /-- It fails before the catalog is replaced. -/
  | notPersisted
  | persisted (deletesFile : File → Bool) (deletesDirectory : Uuid → Bool)

inductive Event (Uuid File : Type) where
  | create (file : File)
  | commit (uuid : Uuid) (outcome : CommitOutcome)
  | gcCheckpoint (except : List Uuid) (outcome : GcOutcome Uuid File)
  /-- A new process that restores a checkpoint of the catalog or none. -/
  | restart (restore : Option Uuid) (deletesFile : File → Bool) (deletesDirectory : Uuid → Bool)

namespace State

/-- `commit`. A checkpoint that was not synced is taken off the list again. -/
def commit (state : State Uuid File) (uuid : Uuid) : CommitOutcome → State Uuid File
  | .failed => state
  | .uncatalogued => { state with storage := written }
  | .unsynced => { state with storage := written.updateCheckpointFile (state.checkpointList ++ [uuid]) }
  | .committed =>
    { state with
      storage := { written.updateCheckpointFile (state.checkpointList ++ [uuid]) with unsynced := [] }
      checkpointList := state.checkpointList ++ [uuid]
      listed := dependencies uuid ++ state.listed }
where
  /-- The storage with the directory of the checkpoint. -/
  written : Storage Uuid File :=
    { state.storage with directories := uuid :: state.storage.directories }

def minCheckpointThreshold : Nat := 2

variable [DecidableEq Uuid] [DecidableEq File] (state : State Uuid File) (except : List Uuid)

/-- The checkpoints that collection drops. -/
def toRemove : List Uuid :=
  (state.checkpointList.take (state.checkpointList.length - minCheckpointThreshold)).filter
    (· ∉ except)

/-- The checkpoints that stay. -/
def retained : List Uuid :=
  state.checkpointList.filter (· ∉ state.toRemove except)

/-- The batch files that collection keeps in any case. -/
def batchFilesToKeep : List File :=
  except.flatMap dependencies ++
    ((state.retained except).find? (· ∉ except)).toList.flatMap dependencies

/-- `gc_checkpoint`. -/
def gcCheckpoint (outcome : GcOutcome Uuid File) : State Uuid File :=
  if state.checkpointList.length ≤ minCheckpointThreshold then state
  else
    match outcome with
    | .failed => state
    | .notPersisted => { state with checkpointList := state.retained except }
    | .persisted deletesFile deletesDirectory =>
      let storage := state.storage.updateCheckpointFile (state.retained except)
      let unused := ((state.toRemove except).flatMap dependencies).filter
        (· ∉ state.batchFilesToKeep dependencies except)
      { state with
        checkpointList := state.retained except
        storage := { storage with
          files := storage.files.filter fun file => ¬ (file ∈ unused ∧ deletesFile file)
          directories := storage.directories.filter fun uuid =>
            ¬ (uuid ∈ state.toRemove except ∧ deletesDirectory uuid) } }

/-- `Checkpointer::new` reads the catalog and lets `gc_startup` delete what no checkpoint
in it uses. -/
def restart (restore : Option Uuid) (deletesFile : File → Bool) (deletesDirectory : Uuid → Bool) :
    State Uuid File :=
  let inUse := state.storage.catalog.flatMap dependencies
  { storage := { state.storage with
      files := state.storage.files.filter fun file => file ∈ inUse ∨ ¬ deletesFile file
      directories := state.storage.directories.filter fun uuid =>
        uuid ∈ state.storage.catalog ∨ ¬ deletesDirectory uuid }
    checkpointList := state.storage.catalog
    restored := restore.toList.flatMap dependencies
    listed := inUse }

/-- Files are created under new names, a commit uses a new identifier and references
files of the restored checkpoint and created files, and a restart can read the catalog
and restores a checkpoint of it. -/
def Possible : Event Uuid File → Prop
  | .create file => file ∉ state.storage.files
  | .commit uuid _ => uuid ∉ state.storage.directories ∧
      ∀ file ∈ dependencies uuid, file ∈ state.restored ∨ file ∈ state.created
  | .gcCheckpoint _ _ => True
  | .restart restore _ _ => state.storage.readCheckpoints.isSome ∧
      ∀ uuid ∈ restore, uuid ∈ state.storage.catalog

instance (event : Event Uuid File) : Decidable (state.Possible dependencies event) := by
  cases event <;> unfold Possible <;> infer_instance

def apply : Event Uuid File → State Uuid File
  | .create file =>
    { state with
      storage := { state.storage with files := file :: state.storage.files }
      created := file :: state.created }
  | .commit uuid outcome => state.commit dependencies uuid outcome
  | .gcCheckpoint except outcome => state.gcCheckpoint dependencies except outcome
  | .restart restore deletesFile deletesDirectory =>
    state.restart dependencies restore deletesFile deletesDirectory

variable (event : Event Uuid File)

def step : Option (State Uuid File) :=
  if state.Possible dependencies event then some (state.apply dependencies event) else none

/-- Everything that the catalog references is present, the list is what a restart reads
back, and collection keeps the exempted checkpoints and at least two. -/
structure Sound : Prop where
  complete : ∀ uuid ∈ state.storage.catalog, uuid ∈ state.storage.directories ∧
    ∀ file ∈ dependencies uuid, file ∈ state.storage.files
  readBack : state.checkpointList = state.storage.catalog ∨
    state.checkpointList ∈ state.storage.unsynced
  exempted : ∀ except outcome, ∀ uuid ∈ except, uuid ∈ state.checkpointList →
    uuid ∈ (state.gcCheckpoint dependencies except outcome).checkpointList
  atLeastTwo : ∀ except outcome, 2 ≤ state.checkpointList.length →
    2 ≤ (state.gcCheckpoint dependencies except outcome).checkpointList.length

/-- A commit references a file that was in the list since the process started only if the
newest checkpoint does, and collection replaces the catalog. -/
def Condition : Prop :=
  state.Possible dependencies event ∧
    match event with
    | .commit uuid _ => ∀ file ∈ dependencies uuid, file ∈ state.listed →
        ∃ newest ∈ state.checkpointList.getLast?, file ∈ dependencies newest
    | .gcCheckpoint _ (.notPersisted) => False
    | _ => True

end State

/-! ## Chains of checkpoints -/

/-- The checkpoints are complete and different, and between two that reference a file all
reference it. -/
structure Chained (storage : Storage Uuid File) (checkpoints : List Uuid) : Prop where
  complete : ∀ uuid ∈ checkpoints, uuid ∈ storage.directories ∧
    ∀ file ∈ dependencies uuid, file ∈ storage.files
  nodup : checkpoints.Nodup
  between : checkpoints.Triplewise fun earlier middle later =>
    ∀ file ∈ dependencies earlier, file ∈ dependencies later → file ∈ dependencies middle

variable {dependencies} {storage : Storage Uuid File} {checkpoints : List Uuid}

theorem Chained.sublist (chained : Chained dependencies storage checkpoints) {part : List Uuid}
    (sublist : part.Sublist checkpoints) : Chained dependencies storage part := by
  refine ⟨fun uuid mem => chained.complete uuid (sublist.subset mem),
    chained.nodup.sublist sublist, ?_⟩
  have between := chained.between
  clear chained
  induction sublist with
  | slnil => exact .nil
  | cons _ _ ih => exact ih (triplewise_cons.1 between).2
  | cons_cons _ sublist ih =>
    obtain ⟨pairs, rest⟩ := triplewise_cons.1 between
    exact .cons (pairs.sublist sublist) (ih rest)

variable {uuid : Uuid}

/-- A checkpoint may be added whose old files are all referenced by the newest one. -/
theorem Chained.concat (chained : Chained dependencies storage checkpoints)
    (fresh : uuid ∉ storage.directories) (present : ∀ file ∈ dependencies uuid, file ∈ storage.files)
    (newest : ∀ file ∈ dependencies uuid, (∃ old ∈ checkpoints, file ∈ dependencies old) →
      ∃ last ∈ checkpoints.getLast?, file ∈ dependencies last) :
    Chained dependencies { storage with directories := uuid :: storage.directories }
      (checkpoints ++ [uuid]) := by
  refine ⟨?_, ?_, triplewise_append.2 ⟨chained.between, by simp, fun _ _ => by simp, ?_⟩⟩
  · intro listed mem
    rcases mem_append.1 mem with mem | mem
    · exact (chained.complete listed mem).imp_left (mem_cons_of_mem _)
    · rw [mem_singleton.1 mem]
      exact ⟨mem_cons_self, present⟩
  · refine nodup_append.2 ⟨chained.nodup, by simp, ?_⟩
    intro listed mem other otherMem eq
    rw [mem_singleton.1 otherMem] at eq
    exact fresh (eq ▸ (chained.complete listed mem).1)
  · simp only [mem_singleton, forall_eq]
    rcases eq_nil_or_concat checkpoints with rfl | ⟨front, last, rfl⟩
    · exact .nil
    simp only [concat_eq_append] at *
    have fromLast (old : Uuid) (mem : old ∈ front ++ [last]) (file : File)
        (ofOld : file ∈ dependencies old) (ofNew : file ∈ dependencies uuid) :
        file ∈ dependencies last := by
      simpa using newest file ofNew ⟨old, mem, ofOld⟩
    refine pairwise_append.2 ⟨?_, by simp, ?_⟩
    · refine ((triplewise_append.1 chained.between).2.2.2 last (by simp)).imp_of_mem ?_
      intro earlier middle earlierMem _ between file ofEarlier ofNew
      exact between file ofEarlier (fromLast earlier (by simp [earlierMem]) file ofEarlier ofNew)
    · intro earlier earlierMem middle middleMem file ofEarlier ofNew
      rw [mem_singleton.1 middleMem]
      exact fromLast earlier (by simp [earlierMem]) file ofEarlier ofNew

variable [DecidableEq Uuid] {state : State Uuid File}

/-- The exempted checkpoints of the front and the last two stay. -/
theorem State.retained_eq (nodup : state.checkpointList.Nodup) (except : List Uuid) :
    state.retained except =
      (state.checkpointList.take (state.checkpointList.length - minCheckpointThreshold)).filter
        (· ∈ except) ++
      state.checkpointList.drop (state.checkpointList.length - minCheckpointThreshold) := by
  unfold retained toRemove
  generalize state.checkpointList.length - minCheckpointThreshold = count
  have disjoint := (nodup_append.1 ((take_append_drop count state.checkpointList).symm ▸ nodup)).2.2
  rw [← take_append_drop count state.checkpointList, filter_append, take_append_drop]
  congr 1
  · apply filter_congr
    grind
  · apply filter_eq_self.2
    grind

open State

/-- A batch file of a checkpoint that stays is kept if a dropped one references it. -/
theorem Chained.mem_batchFilesToKeep (chained : Chained dependencies storage state.checkpointList)
    {except : List Uuid} {dropped kept : Uuid} (droppedMem : dropped ∈ state.toRemove except)
    (keptMem : kept ∈ state.retained except) {file : File}
    (ofDropped : file ∈ dependencies dropped) (ofKept : file ∈ dependencies kept) :
    file ∈ state.batchFilesToKeep dependencies except := by
  unfold batchFilesToKeep
  rw [mem_append, mem_flatMap, mem_flatMap]
  by_cases exempt : kept ∈ except
  · exact .inl ⟨kept, exempt, ofKept⟩
  right
  rw [retained_eq chained.nodup except] at keptMem ⊢
  unfold toRemove at droppedMem
  have between := chained.between
  generalize state.checkpointList.length - minCheckpointThreshold = count at *
  have keptBack : kept ∈ state.checkpointList.drop count := by
    simpa [exempt] using keptMem
  have frontFind : ((state.checkpointList.take count).filter (· ∈ except)).find? (· ∉ except) =
      none := by simp
  rw [find?_append, frontFind, none_or]
  rw [← take_append_drop count state.checkpointList, triplewise_append] at between
  have pairs := between.2.2.1 dropped (mem_filter.1 droppedMem).1
  -- The first checkpoint of the back that is not exempted is the kept one or before it.
  obtain ⟨first, found⟩ : ∃ first,
      (state.checkpointList.drop count).find? (· ∉ except) = some first := by
    apply isSome_iff_exists.1
    exact find?_isSome.2 ⟨kept, keptBack, by simpa using exempt⟩
  refine ⟨first, mem_toList.2 found, ?_⟩
  obtain ⟨_, before, after, backEq, beforeExempt⟩ := find?_eq_some_iff_append.1 found
  rw [backEq] at keptBack pairs
  have afterFirst := (pairwise_cons.1 (pairwise_append.1 pairs).2.1).1
  rcases mem_append.1 keptBack with mem | mem
  · exact absurd (by simpa using beforeExempt kept mem) exempt
  · rcases mem_cons.1 mem with rfl | mem
    · exact ofKept
    · exact afterFirst kept mem file ofDropped ofKept

/-! ## Runs -/

/-- What holds between the steps of a process that meets the condition. -/
structure Invariant (dependencies : Uuid → List File) (state : State Uuid File) : Prop where
  chained : Chained dependencies state.storage state.storage.catalog
  sublist : state.checkpointList.Sublist state.storage.catalog
  readBack : state.checkpointList = state.storage.catalog ∨
    state.checkpointList ∈ state.storage.unsynced
  restored : ∀ file ∈ state.restored, file ∈ state.listed
  created : ∀ file ∈ state.created, file ∉ state.listed → file ∈ state.storage.files
  listed : ∀ uuid ∈ state.checkpointList, ∀ file ∈ dependencies uuid, file ∈ state.listed

namespace Invariant

variable (invariant : Invariant dependencies state)

include invariant

variable {outcome : CommitOutcome}

section

variable (condition : state.Condition dependencies (.commit uuid outcome))

include condition

omit [DecidableEq Uuid] in
/-- The files that a commit may reference are present. -/
theorem files_present : ∀ file ∈ dependencies uuid, file ∈ state.storage.files := by
  intro file mem
  by_cases listed : file ∈ state.listed
  · obtain ⟨newest, last, ofNewest⟩ := condition.2 file mem listed
    have catalogued := invariant.sublist.subset (mem_of_getLast? last)
    exact (invariant.chained.complete newest catalogued).2 file ofNewest
  · rcases condition.1.2 file mem with restored | created
    · exact absurd (invariant.restored file restored) listed
    · exact invariant.created file created listed

omit [DecidableEq Uuid] in
/-- A commit keeps the invariant however far it comes. -/
theorem commit : Invariant dependencies (state.commit dependencies uuid outcome) := by
  have concat := (invariant.chained.sublist invariant.sublist).concat condition.1.1
    (invariant.files_present condition) fun file ofNew ⟨old, mem, ofOld⟩ =>
      condition.2 file ofNew (invariant.listed old mem file ofOld)
  have chained : Chained dependencies
      ((commit.written state uuid).updateCheckpointFile (state.checkpointList ++ [uuid]))
      (state.checkpointList ++ [uuid]) := ⟨concat.complete, concat.nodup, concat.between⟩
  cases outcome with
  | failed => exact invariant
  | uncatalogued =>
    refine { invariant with chained := { invariant.chained with complete := ?_ } }
    intro listed mem
    exact (invariant.chained.complete listed mem).imp_left (mem_cons_of_mem _)
  | unsynced =>
    refine { invariant with chained := chained, sublist := ?_, readBack := ?_ }
    · exact sublist_append_left _ _
    rcases invariant.readBack with eq | readable
    · exact .inr (eq ▸ mem_cons_self)
    · exact .inr (mem_cons_of_mem _ readable)
  | committed =>
    refine ⟨⟨chained.complete, chained.nodup, chained.between⟩, .refl _, .inl rfl, ?_, ?_, ?_⟩
    · exact fun file mem => mem_append_right _ (invariant.restored file mem)
    · intro file mem unlisted
      exact invariant.created file mem fun mem => unlisted (mem_append_right _ mem)
    · intro other mem file referenced
      apply mem_append.2
      rcases mem_append.1 mem with mem | mem
      · exact .inr (invariant.listed other mem file referenced)
      · exact .inl (mem_singleton.1 mem ▸ referenced)

end

variable [DecidableEq File]

/-- Collection keeps the invariant unless it fails to replace the catalog. -/
theorem gcCheckpoint {except : List Uuid} {outcome : GcOutcome Uuid File}
    (condition : state.Condition dependencies (.gcCheckpoint except outcome)) :
    Invariant dependencies (state.gcCheckpoint dependencies except outcome) := by
  unfold State.gcCheckpoint
  split
  case isTrue => exact invariant
  case isFalse =>
    cases outcome with
    | failed => exact invariant
    | notPersisted => exact condition.2.elim
    | persisted =>
      have list := invariant.chained.sublist invariant.sublist
      have retained := list.sublist
        (filter_sublist : List.Sublist (state.retained except) state.checkpointList)
      refine ⟨⟨?_, retained.nodup, retained.between⟩, .refl _, .inl rfl, invariant.restored, ?_, ?_⟩
      · intro uuid mem
        obtain ⟨directory, present⟩ := retained.complete uuid mem
        have stays : uuid ∉ state.toRemove except := by simpa using (mem_filter.1 mem).2
        refine ⟨mem_filter.2 ⟨directory, by simp [stays]⟩, fun file referenced => ?_⟩
        refine mem_filter.2 ⟨present file referenced, decide_eq_true fun deleted => ?_⟩
        obtain ⟨fromDropped, unkept⟩ := mem_filter.1 deleted.1
        obtain ⟨dropped, droppedMem, ofDropped⟩ := mem_flatMap.1 fromDropped
        exact of_decide_eq_true unkept
          (list.mem_batchFilesToKeep droppedMem mem ofDropped referenced)
      · intro file mem unlisted
        refine mem_filter.2 ⟨invariant.created file mem unlisted, ?_⟩
        refine decide_eq_true fun deleted => unlisted ?_
        obtain ⟨dropped, droppedMem, ofDropped⟩ :=
          mem_flatMap.1 (mem_filter.1 deleted.1).1
        exact invariant.listed dropped (mem_of_mem_take (mem_filter.1 droppedMem).1) file ofDropped
      · exact fun uuid mem => invariant.listed uuid (mem_filter.1 mem).1

/-- A restart keeps the invariant whatever it deletes. -/
theorem restart {restore : Option Uuid} {deletesFile : File → Bool} {deletesDirectory : Uuid → Bool}
    (condition : state.Condition dependencies (.restart restore deletesFile deletesDirectory)) :
    Invariant dependencies (state.restart dependencies restore deletesFile deletesDirectory) := by
  have used (uuid : Uuid) (mem : uuid ∈ state.storage.catalog) (file : File)
      (referenced : file ∈ dependencies uuid) :
      file ∈ state.storage.catalog.flatMap dependencies :=
    mem_flatMap.2 ⟨uuid, mem, referenced⟩
  refine ⟨{ invariant.chained with complete := ?_ }, .refl _, .inl rfl, ?_,
    by simp [State.restart], used⟩
  · intro uuid mem
    obtain ⟨directory, present⟩ := invariant.chained.complete uuid mem
    refine ⟨mem_filter.2 ⟨directory, decide_eq_true (.inl mem)⟩, fun file referenced => ?_⟩
    exact mem_filter.2 ⟨present file referenced,
      decide_eq_true (.inl (used uuid mem file referenced))⟩
  · intro file mem
    obtain ⟨uuid, restored, referenced⟩ := mem_flatMap.1 mem
    exact used uuid (condition.1.2 uuid (mem_toList.1 restored)) file referenced

theorem step {event : Event Uuid File} (condition : state.Condition dependencies event) :
    Invariant dependencies (state.apply dependencies event) := by
  cases event with
  | create =>
    refine { invariant with chained := { invariant.chained with complete := ?_ }, created := ?_ }
    · intro uuid mem
      exact (invariant.chained.complete uuid mem).imp_right fun present other referenced =>
        mem_cons_of_mem _ (present other referenced)
    · intro other mem unlisted
      rcases mem_cons.1 mem with rfl | mem
      · exact mem_cons_self
      · exact mem_cons_of_mem _ (invariant.created other mem unlisted)
  | commit => exact invariant.commit condition
  | gcCheckpoint => exact invariant.gcCheckpoint condition
  | restart => exact invariant.restart condition

theorem sound : state.Sound dependencies where
  complete := invariant.chained.complete
  readBack := invariant.readBack
  exempted except outcome uuid exempt mem := by
    have kept : uuid ∈ state.retained except := by simp [retained, toRemove, *]
    unfold State.gcCheckpoint
    split
    · exact mem
    · cases outcome <;> assumption
  atLeastTwo except outcome many := by
    have kept : 2 ≤ (state.retained except).length := by
      rw [retained_eq (invariant.chained.sublist invariant.sublist).nodup,
        length_append, length_drop]
      unfold minCheckpointThreshold
      omega
    unfold State.gcCheckpoint
    split
    · exact many
    · cases outcome <;> assumption

end Invariant

variable [DecidableEq File]

/-- In every run whose commits reference no old file that the newest checkpoint lacks and
whose collections replace the catalog, every catalogued checkpoint stays complete, the
list is what a restart reads back and collection keeps what it must. -/
theorem checkpoints_sound {events : List (Event Uuid File)}
    (meets : Run.Meets (State.step dependencies) {} (State.Condition dependencies) events) :
    ∃ final, Run.run (State.step dependencies) {} events = some final ∧
      final.Sound dependencies := by
  have initially : Invariant dependencies ({} : State Uuid File) := by
    refine ⟨⟨?_, ?_, ?_⟩, ?_, ?_, ?_, ?_, ?_⟩ <;> simp
  obtain ⟨final, reached, invariant⟩ := Run.invariant_of_meets (Invariant dependencies) initially
    (fun state event condition invariant =>
      ⟨_, if_pos condition.1, invariant.step condition⟩) meets
  exact ⟨final, reached, invariant.sound⟩

/-- The last checkpoint references the file of the first one again. -/
def reused : Nat → List Nat
  | 1 => [1]
  | 2 => [2]
  | _ => [1]

/-- A process that is restored from the first of two checkpoints. -/
def restoredFirst : List (Event Nat Nat) :=
  [.create 1, .commit 1 .committed, .create 2, .commit 2 .committed,
    .restart (some 1) (fun _ => true) (fun _ => true), .commit 3 .committed,
    .gcCheckpoint [] (.persisted (fun _ => true) (fun _ => true))]

/-- Collection deletes the file that the last checkpoint references. -/
theorem restoredFirst_incomplete :
    ∃ final, Run.run (State.step reused) {} restoredFirst = some final ∧ ¬ final.Sound reused := by
  refine ⟨_, rfl, fun sound => ?_⟩
  have missing := (sound.complete 3 (by decide)).2 1 (by decide)
  revert missing
  decide

/-- Without a restore, the last checkpoint keeps the file of the second. -/
theorem checkpoints_sound_kept : ∃ final, Run.run (State.step fun uuid => [min uuid 2]) {}
      [.create 1, .commit 1 .committed, .create 2, .commit 2 .committed, .commit 3 .committed,
        .gcCheckpoint [] (.persisted (fun _ => true) (fun _ => true))] = some final ∧
      final.Sound fun uuid => [min uuid 2] := by
  apply checkpoints_sound
  repeat
    refine Run.meets_cons (by constructor <;> decide) fun next stepped => ?_
    obtain rfl := Option.some.inj stepped
  exact Run.meets_nil

end OpenDera.Checkpointer
