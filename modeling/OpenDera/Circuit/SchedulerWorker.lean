import OpenDera.Circuit.SchedulerStep

/-!
# A worker stays healthy

The scheduler of a worker is at rest between steps and sound during one. At the end of a
step every node has been evaluated and completed. A step that waits, with nothing to
join and no notification to process, waits for an asynchronous node that is not ready or
has not called back yet.
-/

namespace OpenDera

open Dependencies Observed List Function

namespace Inner

variable {plan : Plan} {operators : Operators} {inner : Inner} {node : NodeId} {flushOwed : Bool}

attribute [local simp] record

/-- The scheduler between steps. -/
structure Resting (plan : Plan) (operators : Operators) (inner : Inner) : Prop where
  flushing : Flushing plan [] inner
  listening : Listening plan operators [] inner
  idle : inner.handles = []
  disciplined : plan.Disciplined inner.history

/-- When nothing is owed, it does not matter whether it would include a flush. -/
theorem Sound.forget {heard waiting : List NodeId}
    (sound : Sound plan operators heard flushOwed [] waiting inner) :
    Sound plan operators heard false [] waiting inner := by
  refine { sound with flushing := ?_ }
  have flushing := sound.flushing
  rwa [ite_self] at flushing

theorem Flushing.committing_eq {owed : List NodeId} (flushing : Flushing plan owed inner) :
    inner.seen.committing = inner.committing := by
  have phase := flushing.phase
  unfold committing
  cases state : inner.transactionPhase <;> rw [state] at phase
  · exact phase.1
  · exact phase.1
  · exact phase

/-! ## The end of a step -/

section

variable (all : inner.seen.completed.length = plan.nodes.length)

include all

/-- As many completed tasks as nodes: all nodes have completed. -/
theorem Bookkeeping.all_completed {owed waiting : List NodeId}
    (book : Bookkeeping plan owed waiting inner) :
    ∀ node ∈ plan.nodes, node ∈ inner.seen.completed := by
  have inside : inner.seen.completed ⊆ plan.nodes := fun node done =>
    book.evaluated_mem node (book.completed_evaluated node done)
  have perm := (subperm_of_subset book.completed_nodup inside).perm_of_length_le
    (Nat.le_of_eq all.symm)
  exact fun node member => perm.mem_iff.mpr member

/-- When the last task has been joined nothing is owed to anyone, and the scheduler is at
rest. -/
theorem Sound.rest (sound : Sound plan operators [] flushOwed (plan.successors node) [] inner) :
    Resting plan operators { inner with history := .endStep :: inner.history } := by
  have book := sound.bookkeeping
  have completed := book.all_completed all
  have last : plan.successors node = [] := by
    rw [eq_nil_iff_forall_not_mem]
    intro successor after
    have member := Plan.successor_mem after
    have settled := book.settled member
      (book.satisfied successor (book.completed_evaluated successor (completed successor member)))
    exact count_eq_zero.mp settled.1 after
  have idle : inner.handles = [] := by
    rw [← map_eq_nil_iff, eq_nil_iff_forall_not_mem]
    intro other running
    obtain ⟨evaluated, incomplete⟩ := (book.running other).mp running
    exact incomplete (completed other (book.evaluated_mem other evaluated))
  have flushing := sound.flushing
  rw [last, ite_self] at flushing
  refine ⟨{ flushing with }, { sound.listening with }, idle, ⟨?_, ?_⟩, sound.disciplined⟩
  · exact fun other member => ⟨book.completed_evaluated other (completed other member), completed other member⟩
  · intro commits other member reported
    by_contra unflushed
    have committing : inner.committing = true := flushing.committing_eq.symm.trans commits
    obtain ⟨earlier, before, missing⟩ := book.prompt committing other
      (book.completed_evaluated other (completed other member)) unflushed
    exact missing (reported earlier before)

end

/-- Aborting a step leaves the flush accounts as they are. -/
theorem Sound.abort (sound : Sound plan operators [] flushOwed [] [] inner) :
    Flushing plan [] { inner.remove plan node with handles := [] } ∧
      plan.Disciplined ({ inner.remove plan node with handles := [] } : Inner).history := by
  have flushing := sound.forget.flushing.setTask node
    { inner.tasks node with isReady := (inner.tasks node).isReady && !plan.isAsync node } rfl
  exact ⟨{ flushing with }, sound.disciplined⟩

/-! ## The start of a step and of a transaction -/

variable (resting : Resting plan operators inner)

include resting

attribute [local simp] seen in
/-- A scheduler at rest can start a step. -/
theorem Resting.startStep : ∃ after, inner.startStep plan operators.ready = some after ∧
      Sound plan operators [] false [] [] after := by
  have listening := resting.listening
  have nobody : ∀ other, ¬ (inner.resetTasks plan).Running other := by
    simp [Running, resetTasks, resting.idle]
  refine Sound.spawnAll ⟨?_, ?_, ?_, trivial, resting.disciplined⟩
  · constructor
    case counted =>
      simp [resetTasks, pending, Plan.predecessors, countP_true]
    case scheduled =>
      simp [resetTasks]
    case eager =>
      intro other known zero ready
      exact .inr (mem_filter.mpr ⟨known, by simp [zero, ready]⟩)
    case waiting_nodup => exact plan.nodup.filter _
    case waiting_spawnable =>
      intro other waits
      obtain ⟨known, condition⟩ := mem_filter.mp waits
      simp only [Bool.and_eq_true, beq_iff_eq] at condition
      exact ⟨known, condition.1, condition.2, by simp [resetTasks]⟩
    case evaluated_mem => simp [resetTasks]
    case satisfied => simp [resetTasks]
    case completed_evaluated => simp [resetTasks]
    case completed_nodup => simp [resetTasks]
    case running => simpa [resetTasks] using nobody
    case handles_nodup => simp [resetTasks, resting.idle]
    case prompt => simp [resetTasks]
  · exact resting.flushing.congr (fun _ => rfl) rfl rfl rfl rfl
  · exact { listening with }

/-- Starting a transaction forgets all flushes. -/
theorem Resting.startTransaction : Resting plan operators (inner.startTransaction plan) := by
  have listening := resting.listening
  refine ⟨⟨?_, ⟨rfl, rfl⟩, ?_⟩, { listening with }, resting.idle, trivial, resting.disciplined⟩
  · intro other _
    simp [Inner.startTransaction, FlushAccount, seen, pending, Plan.predecessors]
  · intro other _ impossible
    cases impossible

/-- Starting to commit counts all operators as unflushed. -/
theorem Resting.startCommit (started : inner.transactionPhase = .started) :
    Resting plan operators { inner with
      transactionPhase := .committing plan.nodes.length
      history := .startCommitTransaction :: inner.history } := by
  have phase := resting.flushing.phase
  rw [started] at phase
  have listening := resting.listening
  refine ⟨⟨?_, ⟨rfl, ?_⟩, ?_⟩, { listening with }, resting.idle, trivial, resting.disciplined⟩
  · exact fun other known => (resting.flushing.account other known).congr Iff.rfl rfl
  · simp [seen, show (observe inner.history).flushCompleted = [] from phase.2]
  · exact fun _ _ _ => rfl

end Inner

namespace Worker

variable {plan : Plan} {worker : Worker}

open OpenDera.Inner

/-- What holds of a worker in each of its stages. -/
def Healthy (plan : Plan) (worker : Worker) : Prop :=
  match worker.stage with
  | .idle => Resting plan worker.operators worker.inner
  | .running completedTasks => Sound plan worker.operators [] false [] [] worker.inner ∧
      completedTasks = worker.inner.seen.completed.length ∧ completedTasks < plan.nodes.length
  | .collecting error => Flushing plan [] worker.inner ∧ plan.Disciplined worker.inner.history ∧
      (∃ unflushed, worker.inner.transactionPhase = .committing unflushed ∧
        worker.reports.getLast? = some (unflushed == 0, worker.inner.flushState)) ∧
      (error = none → Listening plan worker.operators [] worker.inner ∧ worker.inner.handles = [])
  | .failed _ => plan.Disciplined worker.inner.history

attribute [local simp] Worker.new Inner.new in
theorem healthy_new (plan : Plan) (ready : NodeId → Bool) : (Worker.new plan ready).Healthy plan := by
  refine ⟨⟨?_, rfl, ?_⟩, ?_, rfl, trivial⟩
  · intro other _
    simp [FlushAccount, seen, observe, pending, Plan.predecessors]
  · intro other _ impossible
    cases impossible
  · constructor
    case synchronous =>
      intro other _ sync
      simp [sync]
    case known =>
      intro other _ async _ set
      simp [async] at set
    case unconsumed =>
      intro other _ handle
      cases handle
    case running =>
      intro other running
      cases running
    case announced =>
      intro other known async ready
      exact .inr (.inl (mem_filter.mpr ⟨known, (Bool.and_eq_true _ _).mpr ⟨async, ready⟩⟩))
    case heard_mem =>
      intro other told
      obtain ⟨known, condition⟩ := mem_filter.mp told
      exact ⟨known, ((Bool.and_eq_true _ _).mp condition).1⟩
    case permitted =>
      intro occupied
      simpa using occupied

/-! ## Operators and evaluations -/

/-- What happens outside the scheduler matters to it only as far as notifications are
concerned. -/
theorem Healthy.outside (healthy : worker.Healthy plan) (operators : Operators) (inner : Inner)
    (tasks : inner.tasks = worker.inner.tasks)
    (phase : inner.transactionPhase = worker.inner.transactionPhase)
    (flushState : inner.flushState = worker.inner.flushState)
    (history : inner.history = worker.inner.history)
    (handles : inner.handles.map Prod.fst = worker.inner.handles.map Prod.fst)
    (listens : Listening plan worker.operators [] worker.inner → Listening plan operators [] inner) :
    ({ worker with operators := operators, inner := inner } : Worker).Healthy plan := by
  obtain ⟨operatorsBefore, before, stage, clock, reports⟩ := worker
  obtain ⟨innerTasks, notified, permit, innerHandles, innerPhase, innerFlush, innerHistory⟩ := inner
  subst tasks phase flushState history
  have flushes : Flushing plan [] before → Flushing plan []
      ⟨before.tasks, notified, permit, innerHandles, before.transactionPhase, before.flushState,
        before.history⟩ := fun flushing => { flushing with }
  have empties : before.handles = [] → innerHandles = [] := by
    intro empty
    rw [empty, map_nil, map_eq_nil_iff] at handles
    exact handles
  cases stage with
  | idle =>
    exact ⟨flushes healthy.flushing, listens healthy.listening, empties healthy.idle,
      healthy.disciplined⟩
  | running =>
    obtain ⟨sound, count, fewer⟩ := healthy
    refine ⟨⟨?_, flushes sound.flushing, listens sound.listening, sound.disciplined⟩, count, fewer⟩
    have book := sound.bookkeeping
    exact { book with
      running := fun node => Iff.trans (Iff.of_eq (congrArg (node ∈ ·) handles)) (book.running node)
      handles_nodup := handles ▸ book.handles_nodup }
  | collecting =>
    obtain ⟨flushing, disciplined, reported, quiet⟩ := healthy
    exact ⟨flushes flushing, disciplined, reported, fun ok =>
      ⟨listens (quiet ok).1, empties (quiet ok).2⟩⟩
  | failed => exact healthy

variable (worker) (node)

theorem map_fst_advance (before after : Evaluation) :
    (worker.advance node before after).inner.handles.map Prod.fst =
      worker.inner.handles.map Prod.fst := by
  unfold advance
  rw [map_map]
  refine map_congr_left fun handle _ => ?_
  by_cases same : handle = (node, before) <;> simp [same]

theorem running_advance (before after : Evaluation) (other : NodeId) :
    (worker.advance node before after).inner.Running other ↔ worker.inner.Running other := by
  simp only [Running, map_fst_advance]

theorem spawned_advance {before after : Evaluation} (changes : after ≠ .spawned) (other : NodeId) :
    (other, .spawned) ∈ (worker.advance node before after).inner.handles ↔
      (other, .spawned) ∈ worker.inner.handles ∧ (other, .spawned) ≠ (node, before) := by
  unfold advance
  rw [mem_map]
  constructor
  · rintro ⟨handle, member, same⟩
    split at same
    · exact absurd (Prod.mk.inj same).2 changes
    · rename_i different
      subst same
      exact ⟨member, different⟩
  · rintro ⟨member, different⟩
    exact ⟨_, member, if_neg different⟩

variable {node} {worker} (healthy : worker.Healthy plan)

include healthy

variable {node : NodeId}

/-- Consuming the input of an evaluation makes its operator wait for the next one. -/
theorem Healthy.consume (spawned : (node, .spawned) ∈ worker.inner.handles) :
    ({ worker.advance node .spawned .consumed with
      operators := { worker.operators with
        ready := update worker.operators.ready node false } } : Worker).Healthy plan := by
  refine healthy.outside _ _ rfl rfl rfl rfl (map_fst_advance worker node _ _) fun listening => ?_
  constructor
  case synchronous => exact listening.synchronous
  case known =>
    intro other known async out set
    rw [running_advance] at out
    have different : other ≠ node := fun same =>
      out (mem_map.mpr ⟨_, spawned, same.symm⟩)
    simpa [different] using listening.known other known async out set
  case unconsumed =>
    intro other async handle
    obtain ⟨old, distinct⟩ := (spawned_advance worker node (by decide) other).mp handle
    have different : other ≠ node := fun same => distinct (by rw [same])
    simpa [different] using listening.unconsumed other async old
  case running =>
    exact fun other still => listening.running other ((running_advance worker node _ _ other).mp still)
  case announced =>
    intro other known async ready
    have different : other ≠ node := fun same => by simp [same] at ready
    simp only [update_of_ne different] at ready
    rw [running_advance, spawned_advance worker node (by decide)]
    exact (listening.announced other known async ready).imp_right (.imp_right (.imp_right
      fun handle => ⟨handle, fun same => different (Prod.mk.inj same).1⟩))
  case heard_mem => exact listening.heard_mem
  case permitted => exact listening.permitted

/-- An evaluation that returns changes nothing until it is joined. -/
theorem Healthy.finish (node : NodeId) :
    (worker.advance node .consumed .finished).Healthy plan := by
  refine healthy.outside worker.operators _ rfl rfl rfl rfl (map_fst_advance worker node _ _)
    fun listening => ?_
  have spawned : ∀ other,
      (other, .spawned) ∈ (worker.advance node .consumed .finished).inner.handles ↔
        (other, .spawned) ∈ worker.inner.handles := by
    simp [spawned_advance]
  have running := running_advance worker node .consumed .finished
  exact { listening with
    known := fun other known async out =>
      listening.known other known async fun still => out ((running other).mpr still)
    unconsumed := fun other async handle => listening.unconsumed other async ((spawned other).mp handle)
    running := fun other still => listening.running other ((running other).mp still)
    announced := fun other known async ready => by
      have before := listening.announced other known async ready
      rwa [← running other, ← spawned other] at before }

/-- An operator that becomes ready is going to call back. -/
theorem Healthy.becomeReady (unready : worker.operators.ready node = false) :
    ({ worker with operators :=
        { ready := update worker.operators.ready node true
          callbackDue := update worker.operators.callbackDue node true } } :
      Worker).Healthy plan := by
  refine healthy.outside _ _ rfl rfl rfl rfl rfl fun listening => ?_
  have grows : ∀ other, worker.operators.ready other = true →
      update worker.operators.ready node true other = true := by
    intro other ready
    by_cases same : other = node
    · subst same
      simp
    · simpa [same] using ready
  refine { listening with known := ?_, unconsumed := ?_, announced := ?_ }
  · exact fun other known async out set => grows other (listening.known other known async out set)
  · exact fun other async handle => grows other (listening.unconsumed other async handle)
  · intro other known async ready
    by_cases same : other = node
    · subst same
      exact .inl (by simp)
    · simp only [update_of_ne same] at ready ⊢
      exact listening.announced other known async ready

/-- A notification that arrives is kept until it is processed. -/
theorem Healthy.notify (member : node ∈ plan.nodes) (async : plan.isAsync node = true) :
    ({ worker with
      operators := { worker.operators with
        callbackDue := update worker.operators.callbackDue node false }
      inner := worker.inner.notify node } : Worker).Healthy plan := by
  refine healthy.outside _ _ rfl rfl rfl rfl rfl fun listening => ?_
  refine { listening with announced := ?_, heard_mem := ?_, permitted := fun _ => rfl }
  · intro other known asyncOther ready
    by_cases same : other = node
    · subst same
      exact .inr (.inl (by simp [Inner.notify]))
    · exact (listening.announced other known asyncOther ready).imp
        (fun due => by simpa [same] using due) (.imp_left mem_insert_of_mem)
  · intro other told
    rcases mem_insert_iff.mp told with rfl | old
    · exact ⟨member, async⟩
    · exact listening.heard_mem other old

end Worker

end OpenDera
