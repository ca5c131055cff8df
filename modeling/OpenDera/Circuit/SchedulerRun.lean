import OpenDera.Circuit.SchedulerWorker

/-!
# Every action keeps a worker healthy

The one condition is on the processing of notifications: no notified operator may have
become ready again while its last evaluation waits to be joined. Whatever else happens,
in whatever order, no assertion of the scheduler fails and no effect breaks the
discipline.
-/

namespace OpenDera

open Dependencies List Option

namespace Inner

variable {plan : Plan} {inner : Inner} {owed : List NodeId} (flushing : Flushing plan owed inner)

include flushing

/-- The number of unflushed operators tells whether all have completed their flush. -/
theorem Flushing.unflushed_eq_zero {unflushed : Nat}
    (phase : inner.transactionPhase = .committing unflushed) :
    unflushed = 0 ↔ ∀ node ∈ plan.nodes, node ∈ inner.seen.flushCompleted := by
  have account := flushing.phase
  rw [phase] at account
  rw [account.2, countP_eq_zero]
  simp

/-- A node that has completed its flush has been flushed. -/
theorem Flushing.flushed_of_completed {node : NodeId} (member : node ∈ plan.nodes)
    (done : node ∈ inner.seen.flushCompleted) :
    (inner.tasks node).flushState = .completed ∧ node ∈ inner.seen.flushed := by
  have account := flushing.account node member
  cases state : (inner.tasks node).flushState <;> rw [state] at account
  · exact absurd done account.2.1
  · exact absurd done account.2.1
  · exact ⟨rfl, account.1⟩

/-- What a committing worker reports is what its history shows. -/
theorem Flushing.allows_report {unflushed : Nat}
    (phase : inner.transactionPhase = .committing unflushed) (command : Nat)
    (flushRequested : Bool) :
    plan.Allows inner.seen (.report command (unflushed == 0) flushRequested) := by
  refine ⟨?_, ?_⟩
  · rw [flushing.committing_eq]
    simp [committing, phase]
  · rw [beq_iff_eq]
    exact flushing.unflushed_eq_zero phase

omit flushing

/-- Once all operators have completed their flush, the transaction can be completed. -/
theorem Flushing.commit (flushing : Flushing plan [] inner)
    (phase : inner.transactionPhase = .committing 0) (command : Nat) :
    plan.Allows inner.seen (.commitComplete command) ∧
      Flushing plan [] { inner with
        transactionPhase := .commitComplete
        history := .commitComplete command :: inner.history } := by
  have all := (flushing.unflushed_eq_zero phase).mp rfl
  refine ⟨⟨?_, fun node member => ?_⟩, ?_, rfl, ?_⟩
  · rw [flushing.committing_eq]
    simp [committing, phase]
  · exact ⟨(flushing.flushed_of_completed member (all node member)).2, all node member⟩
  · exact fun node member => (flushing.account node member).congr Iff.rfl rfl
  · intro node member started
    rw [(flushing.flushed_of_completed member (all node member)).1] at started
    cases started

end Inner

namespace Worker

open OpenDera.Inner

variable {plan : Plan} {worker : Worker}

/-! ## Steps -/

variable {inner : Inner}

theorem endStep_committing (worker : Worker) {unflushed : Nat}
    (phase : inner.transactionPhase = .committing unflushed) (error : Option SchedulerError) :
    worker.endStep inner error = { worker with
      inner := { inner with
        history := .report worker.clock (unflushed == 0) inner.flushState ::
          if error.isNone then .endStep :: inner.history else inner.history }
      stage := .collecting error
      reports := worker.reports ++ [(unflushed == 0, inner.flushState)] } := by
  simp only [endStep, phase]

theorem endStep_not_committing (worker : Worker) (phase : inner.committing = false)
    (error : Option SchedulerError) :
    worker.endStep inner error = { worker with
      inner := { inner with
        history := if error.isNone then .endStep :: inner.history else inner.history }
      stage := .afterStep error
      clock := worker.clock + 1 } := by
  cases state : inner.transactionPhase with
  | committing => simp [committing, state] at phase
  | started | commitComplete => simp only [endStep, state]

theorem healthy_endStep
    (resting : Resting plan worker.operators { inner with history := .endStep :: inner.history }) :
    (worker.endStep inner none).Healthy plan := by
  have flushing := resting.flushing
  have listening := resting.listening
  cases phase : inner.transactionPhase with
  | committing unflushed =>
    rw [endStep_committing worker phase]
    have allowed := flushing.allows_report phase worker.clock inner.flushState
    exact ⟨{ flushing with }, ⟨allowed, resting.disciplined⟩, ⟨unflushed, phase, by simp⟩, fun _ =>
      ⟨{ listening with }, resting.idle⟩⟩
  | started | commitComplete =>
    rw [endStep_not_committing worker (by simp [committing, phase])]
    exact ⟨{ flushing with }, { listening with }, resting.idle, resting.disciplined⟩

theorem healthy_endStep_error (flushing : Flushing plan [] inner)
    (disciplined : plan.Disciplined inner.history) (error : SchedulerError) :
    (worker.endStep inner (some error)).Healthy plan := by
  cases phase : inner.transactionPhase with
  | committing unflushed =>
    rw [endStep_committing worker phase]
    have allowed := flushing.allows_report phase worker.clock inner.flushState
    refine ⟨{ flushing with }, ⟨allowed, disciplined⟩, ⟨unflushed, phase, by simp⟩, fun impossible => ?_⟩
    cases impossible
  | started | commitComplete =>
    rw [endStep_not_committing worker (by simp [committing, phase])]
    exact disciplined

variable (healthy : worker.Healthy plan)

include healthy

variable {completedTasks : Nat}

section

variable (stage : worker.stage = .running completedTasks)

include stage

/-- Joining a finished task. -/
theorem Healthy.join {node : NodeId} (finished : (node, .finished) ∈ worker.inner.handles)
    (result : Except SchedulerError Bool) :
    (∃ inner completed, worker.inner.joinNext plan worker.operators.ready completedTasks node result =
        some (inner, .running completed) ∧
      ({ worker with inner := inner, stage := .running completed } : Worker).Healthy plan) ∨
    ∃ inner error, worker.inner.joinNext plan worker.operators.ready completedTasks node result =
        some (inner, .returned error) ∧ (worker.endStep inner error).Healthy plan := by
  unfold Healthy at healthy
  rw [stage] at healthy
  obtain ⟨sound, count, fewer⟩ := healthy
  cases result with
  | error error =>
    refine .inr ⟨_, _, rfl, ?_⟩
    exact healthy_endStep_error sound.abort.1 sound.abort.2 error
  | ok isFlushComplete =>
    obtain ⟨accounted, flushComplete, accounts, same, after⟩ := sound.joined finished isFlushComplete
    have completed : (worker.inner.joined plan node flushComplete).seen.completed.length =
        completedTasks + 1 := by
      rw [seen_joined, count]
      rfl
    by_cases last : completedTasks + 1 = plan.nodes.length
    · refine .inr ⟨worker.inner.joined plan node flushComplete, none, ?_,
        healthy_endStep (after.rest (completed.trans last))⟩
      simp only [joinNext, accounts, bind_eq_bind, bind_some, same, if_pos last]
      rfl
    · obtain ⟨scheduled, schedules, soundScheduled⟩ := after.scheduleSuccessors
      refine .inl ⟨scheduled, completedTasks + 1, ?_, soundScheduled.forget, ?_, by omega⟩
      · simp only [joinNext, accounts, bind_eq_bind, bind_some, same, if_neg last, schedules]
        rfl
      · rw [(scheduleSuccessors_frame schedules).completed, completed]

/-- Processing notifications, if no operator is ready again before its task is joined. -/
theorem Healthy.processNotifications
    (harmless : Harmless worker.operators worker.inner worker.inner.notified) :
    ∃ inner, worker.inner.processNotifications plan worker.operators.ready = some inner ∧
      ({ worker with inner := inner } : Worker).Healthy plan := by
  unfold Healthy at healthy ⊢
  simp only [stage] at healthy ⊢
  obtain ⟨sound, count, fewer⟩ := healthy
  obtain ⟨after, processes, soundAfter⟩ := sound.processNotifications harmless
  exact ⟨after, processes, soundAfter, by rw [(processNotifications_frame processes).completed, count],
    fewer⟩

end

/-! ## Commands -/

/-- Executing the next command. -/
theorem Healthy.execute (stage : worker.stage = .idle) (command : Command) :
    ∃ after, worker.execute plan command = some after ∧ after.Healthy plan := by
  have resting : Resting plan worker.operators worker.inner := by
    unfold Healthy at healthy
    rwa [stage] at healthy
  cases command with
  | startTransaction =>
    refine ⟨_, rfl, ?_⟩
    simp only [stage]
    exact resting.startTransaction
  | startCommitTransaction =>
    unfold Worker.execute Inner.startCommitTransaction
    cases phase : worker.inner.transactionPhase with
    | started =>
      refine ⟨_, rfl, ?_⟩
      simp only [stage]
      exact resting.startCommit phase
    | committing | commitComplete => exact ⟨_, rfl, resting.disciplined⟩
  | step =>
    unfold Worker.execute
    dsimp only
    split
    · split
      · rename_i empty
        refine ⟨_, rfl, healthy_endStep ?_⟩
        have listening := resting.listening
        exact ⟨resting.flushing.congr (fun _ => rfl) rfl rfl rfl rfl, { listening with }, resting.idle,
          ⟨by simp [empty], by simp [empty]⟩, trivial, resting.disciplined⟩
      · rename_i occupied
        obtain ⟨inner, starts, sound⟩ := resting.startStep
        rw [starts]
        refine ⟨_, rfl, sound, ?_, length_pos_iff.mpr occupied⟩
        rw [startStep_completed starts]
        rfl
    · exact ⟨_, rfl, resting.disciplined⟩

/-- Concluding a step with the statuses of all workers, among them its own. -/
theorem Healthy.conclude {error : Option SchedulerError}
    (stage : worker.stage = .collecting error) {statuses : List (Bool × Bool)}
    (own : ∀ status, worker.reports.getLast? = some status → status ∈ statuses) :
    (worker.conclude error (statuses.all Prod.fst) (statuses.all Prod.snd)).Healthy plan := by
  unfold Healthy at healthy
  rw [stage] at healthy
  obtain ⟨flushing, disciplined, ⟨unflushed, phase, last⟩, quiet⟩ := healthy
  have resumes : ∀ inner, Flushing plan [] inner → plan.Disciplined inner.history →
      (Listening plan worker.operators [] worker.inner → Listening plan worker.operators [] inner) →
      inner.handles = worker.inner.handles →
      ({ worker with inner := inner, stage := .afterStep error, clock := worker.clock + 1 } :
        Worker).Healthy plan := by
    intro inner flushes obeys listens handles
    cases error with
    | none => exact ⟨flushes, listens (quiet rfl).1, handles.trans (quiet rfl).2, obeys⟩
    | some => exact obeys
  unfold Worker.conclude
  dsimp only
  by_cases complete : statuses.all Prod.fst = true
  · have zero : unflushed = 0 := by
      have status := all_eq_true.mp complete _ (own _ last)
      simpa using status
    subst zero
    obtain ⟨allowed, commits⟩ := flushing.commit phase worker.clock
    rw [if_pos complete]
    refine resumes _ ?_ ?_ (fun listening => { listening with }) rfl
    · cases statuses.all Prod.snd <;> exact { commits with }
    · cases statuses.all Prod.snd
      · exact ⟨allowed, disciplined⟩
      · exact ⟨trivial, allowed, disciplined⟩
  · rw [if_neg complete]
    exact resumes _ flushing disciplined id rfl

omit healthy

/-- The condition under which an action loses no notification. -/
def Harmless (worker : Worker) : Action → Prop
  | .processNotifications => Inner.Harmless worker.operators worker.inner worker.inner.notified
  | _ => True

variable (healthy : worker.Healthy plan)

include healthy

/-- Every harmless action of a healthy worker succeeds and keeps it healthy. -/
theorem Healthy.act (commands : Nat → Command)
    {statuses : Nat → Option (List (Bool × Bool))} {action : Action}
    (harmless : worker.Harmless action)
    (own : ∀ reports, statuses (worker.reports.length - 1) = some reports →
      ∀ status, worker.reports.getLast? = some status → status ∈ reports) :
    ∃ after, worker.act plan commands statuses action = some after ∧ after.Healthy plan := by
  cases action
  all_goals dsimp only [Worker.act]
  case command =>
    split
    case h_1 idle => exact healthy.execute idle (commands worker.clock)
    case h_2 => exact ⟨worker, rfl, healthy⟩
  case flush =>
    split
    case h_1 idle =>
      refine ⟨_, rfl, ?_⟩
      unfold Healthy at healthy ⊢
      simp only [idle] at healthy ⊢
      have flushing := healthy.flushing
      have listening := healthy.listening
      exact ⟨{ flushing with }, { listening with }, healthy.idle, healthy.disciplined⟩
    case h_2 => exact ⟨worker, rfl, healthy⟩
  case consume =>
    split
    case isTrue spawned => exact ⟨_, rfl, healthy.consume spawned⟩
    case isFalse => exact ⟨worker, rfl, healthy⟩
  case finish node => exact ⟨_, rfl, healthy.finish node⟩
  case becomeReady =>
    split
    case isTrue unready => exact ⟨_, rfl, healthy.becomeReady unready⟩
    case isFalse => exact ⟨worker, rfl, healthy⟩
  case notify =>
    split
    case isTrue condition => exact ⟨_, rfl, healthy.notify condition.1 condition.2⟩
    case isFalse => exact ⟨worker, rfl, healthy⟩
  case join node result =>
    split
    case h_1 running =>
      split
      case isTrue finished =>
        rcases healthy.join running finished result with
          ⟨inner, completed, joins, healthyAfter⟩ | ⟨inner, error, joins, healthyAfter⟩
        · exact ⟨_, by rw [joins], healthyAfter⟩
        · exact ⟨_, by rw [joins], healthyAfter⟩
      case isFalse => exact ⟨worker, rfl, healthy⟩
    case h_2 => exact ⟨worker, rfl, healthy⟩
  case processNotifications =>
    split
    case h_1 running =>
      split
      · obtain ⟨inner, processes, healthyAfter⟩ := healthy.processNotifications running harmless
        exact ⟨_, by rw [processes]; rfl, healthyAfter⟩
      · exact ⟨worker, rfl, healthy⟩
    case h_2 => exact ⟨worker, rfl, healthy⟩
  case collect =>
    split
    case h_1 collecting =>
      split
      case h_1 reports known =>
        exact ⟨_, rfl, healthy.conclude collecting (own reports known)⟩
      case h_2 => exact ⟨worker, rfl, healthy⟩
    case h_2 => exact ⟨worker, rfl, healthy⟩

theorem Healthy.disciplined : plan.Disciplined worker.inner.history := by
  unfold Healthy at healthy
  split at healthy
  · exact Resting.disciplined healthy
  · exact healthy.1.disciplined
  · exact healthy.2.1
  · exact healthy

/-! ## Waiting -/

/-- The step cannot go on: there is no task to join and no notification to process. -/
def Waits (worker : Worker) : Prop :=
  (∃ completedTasks, worker.stage = .running completedTasks) ∧ worker.inner.handles = [] ∧
    worker.inner.permit = false

/-- The node has not completed in the current step, and its predecessors have. -/
def Due (plan : Plan) (worker : Worker) (node : NodeId) : Prop :=
  node ∈ plan.nodes ∧ node ∉ worker.inner.seen.completed ∧
    ∀ earlier ∈ plan.predecessors node, earlier ∈ worker.inner.seen.completed

/-- A step that waits has nodes that are due, and each of them is asynchronous and either
not ready or about to notify the scheduler. -/
theorem Healthy.waits (waits : worker.Waits) :
    (∃ node, worker.Due plan node) ∧ ∀ node, worker.Due plan node →
      plan.isAsync node = true ∧
        (worker.operators.ready node = false ∨ worker.operators.callbackDue node = true) := by
  obtain ⟨⟨completedTasks, stage⟩, empty, quiet⟩ := waits
  unfold Healthy at healthy
  rw [stage] at healthy
  obtain ⟨sound, count, fewer⟩ := healthy
  have book := sound.bookkeeping
  have nobody : ∀ node, ¬ worker.inner.Running node := by simp [Running, empty]
  constructor
  · have missing : ∃ node ∈ plan.nodes, node ∉ worker.inner.seen.completed := by
      by_contra all
      push Not at all
      have short := (subperm_of_subset plan.nodup all).length_le
      omega
    obtain ⟨node, member, incomplete, first⟩ := plan.acyclic _ missing
    exact ⟨node, member, incomplete, fun earlier before =>
      not_not.mp (first earlier before (Plan.predecessor_mem before))⟩
  · rintro node ⟨member, incomplete, satisfied⟩
    have zero : (worker.inner.tasks node).unsatisfiedDependencies = 0 := by
      rw [book.counted node member]
      exact pending_eq_zero satisfied
    have unknown : ¬ (worker.inner.tasks node).isReady = true := by
      intro set
      rcases book.eager node member zero set with evaluated | waits
      · exact nobody node ((book.running node).mpr ⟨evaluated, incomplete⟩)
      · cases waits
    have async : plan.isAsync node = true := by
      by_contra sync
      exact unknown (sound.listening.synchronous node member (Bool.eq_false_iff.mpr sync))
    refine ⟨async, ?_⟩
    by_cases ready : worker.operators.ready node = true
    · rcases sound.listening.announced node member async ready with due | told | ⟨-, set⟩ | handle
      · exact .inr due
      · have permit := sound.listening.permitted (ne_nil_of_mem told)
        rw [quiet] at permit
        cases permit
      · exact absurd set unknown
      · rw [empty] at handle
        cases handle
    · exact .inl (Bool.eq_false_iff.mpr ready)

end Worker

end OpenDera
