import OpenDera.Circuit.DynamicScheduler
import OpenDera.Std.Run

/-!
# The discipline of a schedule

What a scheduler is for, in terms of what can be seen from outside: its history. In
every step each active node is evaluated exactly once, after its predecessors and, if it
is asynchronous, only while it is ready. In every transaction each node is flushed once,
only while committing, and not before its predecessors have completed their flush; a
node whose predecessors have done so by the end of a step has been flushed.
-/

namespace OpenDera

/-- What a history says about the current step and the current transaction. -/
structure Observed where
  evaluated : List NodeId
  completed : List NodeId
  flushed : List NodeId
  flushCompleted : List NodeId
  committing : Bool
  deriving DecidableEq, Repr

/-- Take one more effect into account. -/
def Observed.record (seen : Observed) : Effect → Observed
  | .startTransaction => { seen with flushed := [], flushCompleted := [], committing := false }
  | .startCommitTransaction => { seen with committing := true }
  | .startStep => { seen with evaluated := [], completed := [] }
  | .eval node _ => { seen with evaluated := node :: seen.evaluated }
  | .flush node => { seen with flushed := node :: seen.flushed }
  | .completed node flushComplete => { seen with
      completed := node :: seen.completed
      flushCompleted := if flushComplete then node :: seen.flushCompleted else seen.flushCompleted }
  | .commitComplete _ => { seen with committing := false }
  | .endStep | .report _ _ _ | .flushComplete _ => seen

/-- What a history says, read from its start. -/
def observe : List Effect → Observed
  | [] =>
    { evaluated := [], completed := [], flushed := [], flushCompleted := [], committing := false }
  | effect :: earlier => (observe earlier).record effect

@[simp] theorem observe_cons (effect : Effect) (earlier : List Effect) :
    observe (effect :: earlier) = (observe earlier).record effect := rfl

/-- The effects that the discipline allows after what has been observed. -/
def Plan.Allows (plan : Plan) (seen : Observed) : Effect → Prop
  | .eval node ready =>
    node ∈ plan.nodes ∧ node ∉ seen.evaluated ∧
      (∀ earlier ∈ plan.predecessors node, earlier ∈ seen.completed) ∧
      (plan.isAsync node = true → ready = true)
  | .completed node flushComplete =>
    node ∈ seen.evaluated ∧ node ∉ seen.completed ∧
      (flushComplete = true → node ∈ seen.flushed ∧ node ∉ seen.flushCompleted)
  | .flush node =>
    seen.committing = true ∧ node ∈ plan.nodes ∧ node ∉ seen.flushed ∧
      ∀ earlier ∈ plan.predecessors node, earlier ∈ seen.flushCompleted
  | .endStep =>
    (∀ node ∈ plan.nodes, node ∈ seen.evaluated ∧ node ∈ seen.completed) ∧
      (seen.committing = true → ∀ node ∈ plan.nodes,
        (∀ earlier ∈ plan.predecessors node, earlier ∈ seen.flushCompleted) →
          node ∈ seen.flushed)
  | .report _ commitComplete _ =>
    seen.committing = true ∧
      (commitComplete = true ↔ ∀ node ∈ plan.nodes, node ∈ seen.flushCompleted)
  | .commitComplete _ =>
    seen.committing = true ∧
      ∀ node ∈ plan.nodes, node ∈ seen.flushed ∧ node ∈ seen.flushCompleted
  | .startTransaction | .startCommitTransaction | .startStep | .flushComplete _ => True

/-- Every effect of the history was allowed when it happened. -/
def Plan.Disciplined (plan : Plan) : List Effect → Prop
  | [] => True
  | effect :: earlier => plan.Allows (observe earlier) effect ∧ plan.Disciplined earlier

/-- A scheduler's own view of what has been observed. -/
def Inner.seen (inner : Inner) : Observed :=
  observe inner.history

/-! ## What a step leaves unchanged -/

/-- An effect that concerns all workers. -/
def Effect.isMark : Effect → Bool
  | .report _ _ _ | .commitComplete _ | .flushComplete _ => true
  | _ => false

namespace Inner

/-- The part of the history that concerns all workers. -/
def marks (inner : Inner) : List Effect :=
  inner.history.filter Effect.isMark

/-- What is left alone. -/
structure Frame (before after : Inner) : Prop where
  completed : after.seen.completed = before.seen.completed
  marks : after.marks = before.marks
  phase : after.transactionPhase = before.transactionPhase
  flushState : after.flushState = before.flushState

theorem Frame.refl (inner : Inner) : Frame inner inner := ⟨rfl, rfl, rfl, rfl⟩

theorem Frame.trans {first second third : Inner} (one : Frame first second)
    (two : Frame second third) : Frame first third :=
  ⟨two.completed.trans one.completed, two.marks.trans one.marks, two.phase.trans one.phase,
    two.flushState.trans one.flushState⟩

variable {plan : Plan} {ready : NodeId → Bool} {inner after : Inner} {node : NodeId}

theorem frame_spawned (ready : NodeId → Bool) (inner : Inner) (node : NodeId) :
    Frame inner (inner.spawned ready node) := by
  refine ⟨?_, ?_, rfl, rfl⟩
  · unfold seen spawned
    cases inner.flushesNow node <;> rfl
  · unfold marks spawned
    cases inner.flushesNow node <;> rfl

theorem spawnTask_frame (spawns : inner.spawnTask plan ready node = some after) : Frame inner after := by
  unfold spawnTask at spawns
  dsimp only at spawns
  split at spawns
  · cases spawns
    exact frame_spawned ready inner node
  · cases spawns

variable {flushComplete : Bool}

theorem satisfy_frame
    (satisfies : inner.satisfy plan ready flushComplete node = some after) : Frame inner after := by
  unfold satisfy at satisfies
  dsimp only at satisfies
  split at satisfies
  · split at satisfies
    · split at satisfies
      · have later := spawnTask_frame satisfies
        exact ⟨later.completed, later.marks, later.phase, later.flushState⟩
      · cases satisfies
        exact ⟨rfl, rfl, rfl, rfl⟩
    · cases satisfies
  · cases satisfies

theorem scheduleSuccessors_frame
    (schedules : inner.scheduleSuccessors plan ready flushComplete node = some after) :
    Frame inner after :=
  Run.related Frame Frame.refl (fun _ _ _ => Frame.trans) (fun _ _ _ => satisfy_frame) schedules

theorem processNotification_frame
    (processes : inner.processNotification plan ready node = some after) : Frame inner after := by
  unfold processNotification at processes
  dsimp only at processes
  split at processes
  · split at processes
    · cases processes
      exact Frame.refl inner
    · split at processes
      · split at processes
        · have later := spawnTask_frame processes
          exact ⟨later.completed, later.marks, later.phase, later.flushState⟩
        · cases processes
          exact ⟨rfl, rfl, rfl, rfl⟩
      · cases processes
        exact Frame.refl inner
  · cases processes

theorem processNotifications_frame
    (processes : inner.processNotifications plan ready = some after) : Frame inner after := by
  have later : Frame { inner with notified := [], permit := false } after :=
    Run.related Frame Frame.refl (fun _ _ _ => Frame.trans) (fun _ _ _ => processNotification_frame)
      processes
  exact ⟨later.completed, later.marks, later.phase, later.flushState⟩

variable (starts : inner.startStep plan ready = some after)

include starts

theorem startStep_frame : Frame (inner.resetTasks plan) after :=
  Run.related Frame Frame.refl (fun _ _ _ => Frame.trans) (fun _ _ _ => spawnTask_frame) starts

/-- A step starts with no completed task. -/
theorem startStep_completed : after.seen.completed = [] :=
  (startStep_frame starts).completed

end Inner

end OpenDera
