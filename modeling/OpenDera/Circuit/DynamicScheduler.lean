import Mathlib.Data.Fintype.Basic
import OpenDera.Circuit.Graph

/-!
# The dynamic scheduler

A node is spawned when the predecessors it waits for have completed and, if it is
asynchronous, it is known to be ready. During a step a spawned task is joined, the set of
ready notifications is processed, and, at the start, the nodes without predecessors are
spawned. While a transaction commits, a node is flushed just before it is spawned if all of
its predecessors have completed their flush. A failed assertion is `none`. `history` records
the calls to the circuit and what the scheduler decides, the latest first.
-/

namespace OpenDera

open Function

/-- How far a node's flush has come in the current transaction. -/
inductive FlushState where
  | unflushedDependencies (count : Nat)
  | started
  | completed
  deriving DecidableEq, Repr

/-- One unflushed dependency fewer; a node with none left must not lose one. -/
def FlushState.decrement : FlushState → Option FlushState
  | .unflushedDependencies (count + 1) => some (.unflushedDependencies count)
  | _ => none

/-- The mutable part of a task. -/
structure Task where
  unsatisfiedDependencies : Nat
  isReady : Bool
  scheduled : Bool
  flushState : FlushState
  deriving DecidableEq, Repr

/-- Where the scheduler stands in a transaction; while committing, it counts the
operators that have not completed their flush. -/
inductive TransactionPhase where
  | started
  | committing (unflushedOperators : Nat)
  | commitComplete
  deriving DecidableEq, Repr

/-- How far a spawned evaluation has come: an operator may become ready for the next
step once it has consumed its input for this one. -/
inductive Evaluation where
  | spawned
  | consumed
  | finished
  deriving DecidableEq, Repr

/-- What the scheduler does, as seen from outside. A report, a commit and a completed
flush of the whole circuit carry the number of the command that caused them. -/
inductive Effect where
  | startTransaction
  | startCommitTransaction
  | startStep
  | eval (node : NodeId) (ready : Bool)
  | flush (node : NodeId)
  | completed (node : NodeId) (flushComplete : Bool)
  | endStep
  | report (command : Nat) (commitComplete flushRequested : Bool)
  | commitComplete (command : Nat)
  | flushComplete (command : Nat)
  deriving DecidableEq, Repr

/-- The state of the scheduler of one worker. -/
structure Inner where
  tasks : NodeId → Task
  /-- The nodes that have sent a ready notification. -/
  notified : List NodeId
  /-- Waiting for notifications returns at once. -/
  permit : Bool
  /-- The evaluations that have been spawned and not been joined. -/
  handles : List (NodeId × Evaluation)
  transactionPhase : TransactionPhase
  /-- The parent circuit has asked for a flush that is not complete. -/
  flushState : Bool
  history : List Effect

namespace Inner

/-- Change the task of one node. -/
def setTask (inner : Inner) (node : NodeId) (task : Task) : Inner :=
  { inner with tasks := update inner.tasks node task }

/-- Add a ready notification and leave a permit for whoever waits. -/
def notify (inner : Inner) (node : NodeId) : Inner :=
  { inner with notified := inner.notified.insert node, permit := true }

variable (plan : Plan) (ready : NodeId → Bool)

/-- The scheduler of a prepared circuit. The callbacks are installed after operators may
have become ready, so every operator that is ready already counts as notified. -/
def new : Inner :=
  let missed := plan.nodes.filter fun node => plan.isAsync node && ready node
  { tasks := fun node =>
      { unsatisfiedDependencies := (plan.predecessors node).length
        isReady := !plan.isAsync node
        scheduled := false
        flushState := .unflushedDependencies (plan.predecessors node).length }
    notified := missed
    permit := !missed.isEmpty
    handles := []
    transactionPhase := .commitComplete
    flushState := false
    history := [] }

variable (inner : Inner)

/-- The scheduler is committing. -/
def committing : Bool :=
  match inner.transactionPhase with
  | .committing _ => true
  | _ => false

/-- The node is flushed when it is spawned now. -/
def flushesNow (node : NodeId) : Bool :=
  inner.committing && (inner.tasks node).flushState == .unflushedDependencies 0

variable (inner : Inner)

/-- The state after `node` has been spawned, and flushed first if its turn has come. -/
def spawned (node : NodeId) : Inner :=
  let task := inner.tasks node
  { inner.setTask node
      { task with
        scheduled := true
        flushState := if inner.flushesNow node then .started else task.flushState } with
    handles := inner.handles ++ [(node, .spawned)]
    history := .eval node (ready node) ::
      ((if inner.flushesNow node then [.flush node] else []) ++ inner.history) }

/-- Spawn a task to evaluate `node`. -/
def spawnTask (node : NodeId) : Option Inner :=
  let task := inner.tasks node
  if node ∈ plan.nodes ∧ task.unsatisfiedDependencies = 0 ∧ task.isReady = true ∧
      task.scheduled = false then
    some (inner.spawned ready node)
  else
    none

variable (flushComplete : Bool)

/-- Tell one successor that a predecessor has completed. -/
def satisfy (inner : Inner) (successor : NodeId) : Option Inner :=
  let task := inner.tasks successor
  if successor ∈ plan.nodes then
    match task.unsatisfiedDependencies,
        if flushComplete then task.flushState.decrement else some task.flushState with
    | unsatisfied + 1, some flushState =>
      let updated := inner.setTask successor
        { task with unsatisfiedDependencies := unsatisfied, flushState := flushState }
      if unsatisfied = 0 ∧ task.isReady = true then
        updated.spawnTask plan ready successor
      else
        some updated
    | _, _ => none
  else
    none

/-- Tell all successors that `node` has completed and spawn those that can run. -/
def scheduleSuccessors (inner : Inner) (node : NodeId) : Option Inner :=
  (plan.successors node).foldlM (satisfy plan ready flushComplete) inner

/-- Process one ready notification: duplicates and spurious ones are ignored. -/
def processNotification (node : NodeId) : Option Inner :=
  let task := inner.tasks node
  if node ∈ plan.nodes ∧ plan.isAsync node = true then
    if task.isReady = true then
      some inner
    else if ready node = true then
      let updated := inner.setTask node { task with isReady := true }
      -- A node that already ran in this step takes its notification to the next one.
      if task.unsatisfiedDependencies = 0 ∧ task.scheduled = false then
        updated.spawnTask plan ready node
      else
        some updated
    else
      some inner
  else
    none

/-- Process and dequeue all notifications. -/
def processNotifications : Option Inner :=
  inner.notified.foldlM (processNotification plan ready) { inner with notified := [], permit := false }

/-- Forget the flushes of the last transaction. -/
def startTransaction : Inner :=
  { inner with
    tasks := fun node =>
      { inner.tasks node with
        flushState := .unflushedDependencies (plan.predecessors node).length }
    transactionPhase := .started
    history := .startTransaction :: inner.history }

/-- Start to commit, if a transaction is under way that does not commit yet. -/
def startCommitTransaction : Except SchedulerError Inner :=
  match inner.transactionPhase with
  | .started => .ok { inner with
      transactionPhase := .committing plan.nodes.length
      history := .startCommitTransaction :: inner.history }
  | _ => .error .commitWithoutTransaction

/-- A transaction has been started and is not complete. -/
def transactionInProgress : Bool :=
  match inner.transactionPhase with
  | .started | .committing _ => true
  | .commitComplete => false

/-- Reset all tasks for a new step. -/
def resetTasks : Inner :=
  { inner with
    tasks := fun node =>
      { inner.tasks node with
        unsatisfiedDependencies := (plan.predecessors node).length
        scheduled := false }
    history := .startStep :: inner.history }

/-- The nodes that can be spawned at the start of a step. -/
def runnable : List NodeId :=
  plan.nodes.filter fun node =>
    (inner.tasks node).unsatisfiedDependencies == 0 && (inner.tasks node).isReady

/-- Start a step: reset the tasks and spawn the nodes that wait for nothing. -/
def startStep : Option Inner :=
  let reset := inner.resetTasks plan
  (reset.runnable plan).foldlM (spawnTask plan ready) reset

/-- Where a step stands after one of its tasks has been joined. -/
inductive StepProgress where
  | running (completedTasks : Nat)
  | returned (error : Option SchedulerError)
  deriving DecidableEq, Repr

/-- Take a task out of the set of running ones. An asynchronous node has to become ready
again before its next evaluation. -/
def remove (node : NodeId) : Inner :=
  let task := inner.tasks node
  { inner.setTask node { task with isReady := task.isReady && !plan.isAsync node } with
    handles := inner.handles.filter fun handle => handle.1 ≠ node }

/-- Account for the flush of a node whose evaluation has returned: whether it has just
become complete. -/
def accountFlush (node : NodeId) (isFlushComplete : Bool) : Option (Inner × Bool) :=
  let task := inner.tasks node
  if task.flushState = .started ∧ isFlushComplete = true then
    match inner.transactionPhase with
    | .committing (unflushed + 1) =>
      some ({ inner.setTask node { task with flushState := .completed } with
        transactionPhase := .committing unflushed }, true)
    | _ => none
  else
    some (inner, false)

/-- Join a task. An error aborts the step, after all other tasks have ended. -/
def joinNext (completedTasks : Nat)
    (node : NodeId) (result : Except SchedulerError Bool) : Option (Inner × StepProgress) :=
  let joined := inner.remove plan node
  match result with
  | .error error => some ({ joined with handles := [] }, .returned (some error))
  | .ok isFlushComplete => do
      let (accounted, flushComplete) ← joined.accountFlush node isFlushComplete
      let recorded := { accounted with history := .completed node flushComplete :: accounted.history }
      if completedTasks + 1 = plan.nodes.length then
        return (recorded, .returned none)
      else
        let scheduled ← recorded.scheduleSuccessors plan ready flushComplete node
        return (scheduled, .running (completedTasks + 1))

end Inner

/-! ## The workers of a circuit -/

/-- A command to the scheduler. -/
inductive Command where
  | startTransaction
  | step
  | startCommitTransaction
  deriving DecidableEq, Repr

/-- What a worker is doing. -/
inductive Stage where
  | idle
  | running (completedTasks : Nat)
  /-- The step has returned; its status has been handed in. -/
  | collecting (error : Option SchedulerError)
  | failed (error : SchedulerError)
  deriving DecidableEq, Repr

/-- The stage after a step: an error ends the circuit. -/
def Stage.afterStep : Option SchedulerError → Stage
  | none => .idle
  | some error => .failed error

/-- The operators of a worker: which are ready, and which of the ready ones have not
called the scheduler yet. -/
structure Operators where
  ready : NodeId → Bool
  callbackDue : NodeId → Bool

/-- A worker: its operators, its scheduler, the number of commands it has executed and the
statuses it has handed in. -/
structure Worker where
  operators : Operators
  inner : Inner
  stage : Stage
  clock : Nat
  reports : List (Bool × Bool)

/-- What can happen to a worker. -/
inductive Action where
  /-- Start the next command. -/
  | command
  /-- The parent circuit asks for a flush. -/
  | flush
  /-- An evaluation consumes the input that made its operator ready. -/
  | consume (node : NodeId)
  /-- An evaluation returns. -/
  | finish (node : NodeId)
  | becomeReady (node : NodeId)
  /-- A ready notification arrives, for whatever reason. -/
  | notify (node : NodeId)
  | join (node : NodeId) (result : Except SchedulerError Bool)
  | processNotifications
  /-- The statuses of all workers have arrived. -/
  | collect

namespace Worker

variable (plan : Plan)

/-- A worker before its first command. -/
def new (ready : NodeId → Bool) : Worker :=
  { operators := { ready := ready, callbackDue := fun _ => false }
    inner := .new plan ready
    stage := .idle
    clock := 0
    reports := [] }

variable (worker : Worker)

/-- Leave `do_step`, and hand in the status if the transaction commits. -/
def endStep (inner : Inner) (error : Option SchedulerError) : Worker :=
  let ended := if error.isNone then .endStep :: inner.history else inner.history
  match inner.transactionPhase with
  | .committing unflushed => { worker with
      inner := { inner with
        history := .report worker.clock (unflushed == 0) inner.flushState :: ended }
      stage := .collecting error
      reports := worker.reports ++ [(unflushed == 0, inner.flushState)] }
  | _ => { worker with
      inner := { inner with history := ended }
      stage := .afterStep error
      clock := worker.clock + 1 }

/-- Start a command. -/
def execute (worker : Worker) : Command → Option Worker
  | .startTransaction => some { worker with
      inner := worker.inner.startTransaction plan
      clock := worker.clock + 1 }
  | .startCommitTransaction =>
    match worker.inner.startCommitTransaction plan with
    | .ok inner => some { worker with inner := inner, clock := worker.clock + 1 }
    | .error error => some { worker with stage := .failed error }
  | .step =>
    if worker.inner.transactionInProgress then
      if plan.nodes = [] then
        some (worker.endStep
          { worker.inner with history := .startStep :: worker.inner.history } none)
      else
        (worker.inner.startStep plan worker.operators.ready).map fun inner =>
          { worker with inner := inner, stage := .running 0 }
    else
      some { worker with stage := .failed .stepWithoutTransaction }

/-- Advance the evaluation of `node`. -/
def advance (node : NodeId) (before after : Evaluation) : Worker :=
  { worker with
    inner := { worker.inner with
      handles := worker.inner.handles.map fun handle =>
        if handle = (node, before) then (node, after) else handle } }

/-- The statuses of all workers decide whether the transaction is committed, and whether
the flush that the parent asked for is complete. -/
def conclude (error : Option SchedulerError) (commitComplete flushComplete : Bool) : Worker :=
  let inner := worker.inner
  let committed := if commitComplete then
      { inner with
        transactionPhase := .commitComplete
        flushState := if flushComplete then false else inner.flushState
        history := (if flushComplete then [.flushComplete worker.clock] else []) ++
          .commitComplete worker.clock :: inner.history }
    else
      inner
  { worker with inner := committed, stage := .afterStep error, clock := worker.clock + 1 }

/-- One action of a worker. `statuses` are the values of all workers in a round of the
consensus, once they have been handed in. -/
def act (commands : Nat → Command)
    (statuses : Nat → Option (List (Bool × Bool))) (worker : Worker) : Action → Option Worker
  | .command =>
    match worker.stage with
    | .idle => worker.execute plan (commands worker.clock)
    | _ => some worker
  | .flush =>
    match worker.stage with
    | .idle => some { worker with inner := { worker.inner with flushState := true } }
    | _ => some worker
  | .consume node =>
    if (node, .spawned) ∈ worker.inner.handles then
      some { worker.advance node .spawned .consumed with
        operators := { worker.operators with
          ready := update worker.operators.ready node false } }
    else
      some worker
  | .finish node => some (worker.advance node .consumed .finished)
  | .becomeReady node =>
    if worker.operators.ready node = false then
      some { worker with operators :=
        { ready := update worker.operators.ready node true
          callbackDue := update worker.operators.callbackDue node true } }
    else
      some worker
  | .notify node =>
    if node ∈ plan.nodes ∧ plan.isAsync node = true then
      some { worker with
        operators := { worker.operators with
          callbackDue := update worker.operators.callbackDue node false }
        inner := worker.inner.notify node }
    else
      some worker
  | .join node result =>
    match worker.stage with
    | .running completedTasks =>
      if (node, .finished) ∈ worker.inner.handles then
        match worker.inner.joinNext plan worker.operators.ready completedTasks node result with
        | some (inner, .running completed) =>
          some { worker with inner := inner, stage := .running completed }
        | some (inner, .returned error) => some (worker.endStep inner error)
        | none => none
      else
        some worker
    | _ => some worker
  | .processNotifications =>
    match worker.stage with
    | .running _ =>
      if worker.inner.permit then
        (worker.inner.processNotifications plan worker.operators.ready).map fun inner =>
          { worker with inner := inner }
      else
        some worker
    | _ => some worker
  | .collect =>
    match worker.stage with
    | .collecting error =>
      match statuses (worker.reports.length - 1) with
      | some reports =>
        some (worker.conclude error (reports.all Prod.fst) (reports.all Prod.snd))
      | none => some worker
    | _ => some worker

end Worker

/-- All workers. -/
structure Workers (count : Nat) where
  worker : Fin count → Worker

namespace Workers

variable {count : Nat}

/-- The workers before their first command. -/
def new (plan : Plan) (ready : Fin count → NodeId → Bool) : Workers count :=
  { worker := fun index => .new plan (ready index) }

variable (workers : Workers count)

/-- The statuses that all workers have handed in for a round of the consensus. -/
def statuses (round : Nat) : Option (List (Bool × Bool)) :=
  if ∀ index, round < (workers.worker index).reports.length then
    some (List.ofFn fun index => (workers.worker index).reports.getD round (false, false))
  else
    none

/-- Change one worker. -/
def set (index : Fin count) (worker : Worker) : Workers count :=
  { worker := update workers.worker index worker }

/-- One action of one worker. -/
def next (plan : Plan) (commands : Nat → Command) (workers : Workers count)
    (event : Fin count × Action) : Option (Workers count) :=
  ((workers.worker event.1).act plan commands workers.statuses event.2).map (workers.set event.1)

end Workers

end OpenDera
