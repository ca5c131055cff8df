import OpenDera.Circuit.SchedulerHistory

/-!
# What the scheduler's counters and flags mean

The counters of a task are exact: they hold the dependencies that have not completed in
this step, and the flushes of predecessors that have not completed in this transaction.
While the successors of a joined task are being told, the news is still owed to some of
them, and while nodes are being spawned, some that could run are waiting for it. Whoever is
ready has either been heard of, or its notification is on its way.
-/

namespace OpenDera

open Dependencies List Function

namespace Inner

/-- A spawned evaluation of the node has not been joined. -/
def Running (inner : Inner) (node : NodeId) : Prop :=
  node ∈ inner.handles.map Prod.fst

variable (plan : Plan)

/-- The dependency counters and flags agree with what was observed in this step. The
completions in `owed` have not been passed on, and the nodes in `waiting` can be spawned. -/
structure Bookkeeping (owed waiting : List NodeId) (inner : Inner) : Prop where
  counted : ∀ node ∈ plan.nodes, (inner.tasks node).unsatisfiedDependencies =
    pending plan.dependencies inner.seen.completed owed node
  scheduled : ∀ node ∈ plan.nodes,
    ((inner.tasks node).scheduled = true ↔ node ∈ inner.seen.evaluated)
  eager : ∀ node ∈ plan.nodes, (inner.tasks node).unsatisfiedDependencies = 0 →
    (inner.tasks node).isReady = true → node ∈ inner.seen.evaluated ∨ node ∈ waiting
  waiting_nodup : waiting.Nodup
  waiting_spawnable : ∀ node ∈ waiting, node ∈ plan.nodes ∧
    (inner.tasks node).unsatisfiedDependencies = 0 ∧ (inner.tasks node).isReady = true ∧
    node ∉ inner.seen.evaluated
  evaluated_mem : ∀ node ∈ inner.seen.evaluated, node ∈ plan.nodes
  satisfied : ∀ node ∈ inner.seen.evaluated, (inner.tasks node).unsatisfiedDependencies = 0
  completed_evaluated : ∀ node ∈ inner.seen.completed, node ∈ inner.seen.evaluated
  completed_nodup : inner.seen.completed.Nodup
  running : ∀ node, inner.Running node ↔
    node ∈ inner.seen.evaluated ∧ node ∉ inner.seen.completed
  handles_nodup : (inner.handles.map Prod.fst).Nodup
  prompt : inner.committing = true → ∀ node ∈ inner.seen.evaluated, node ∉ inner.seen.flushed →
    ∃ earlier ∈ plan.predecessors node, earlier ∉ inner.seen.flushCompleted

/-- What a flush state means. -/
def FlushAccount (seen : Observed) (owed : List NodeId) (node : NodeId) : FlushState → Prop
  | .unflushedDependencies count => node ∉ seen.flushed ∧ node ∉ seen.flushCompleted ∧
      count = pending plan.dependencies seen.flushCompleted owed node
  | .started => node ∈ seen.flushed ∧ node ∉ seen.flushCompleted ∧
      pending plan.dependencies seen.flushCompleted owed node = 0
  | .completed => node ∈ seen.flushed ∧ node ∈ seen.flushCompleted ∧
      pending plan.dependencies seen.flushCompleted owed node = 0

/-- The account of a node depends on what was observed of flushes only. -/
theorem FlushAccount.congr {plan : Plan} {seen other : Observed} {owed : List NodeId} {node : NodeId}
    {state : FlushState} (account : FlushAccount plan seen owed node state)
    (flushed : node ∈ other.flushed ↔ node ∈ seen.flushed)
    (flushCompleted : other.flushCompleted = seen.flushCompleted) :
    FlushAccount plan other owed node state := by
  cases state <;> simpa only [FlushAccount, flushed, flushCompleted] using account

/-- What a transaction phase means. -/
def PhaseAccount (seen : Observed) : TransactionPhase → Prop
  | .started => seen.committing = false ∧ seen.flushCompleted = []
  | .commitComplete => seen.committing = false
  | .committing unflushed => seen.committing = true ∧
      unflushed = plan.nodes.countP fun node => node ∉ seen.flushCompleted

/-- The flush counters agree with what was observed in this transaction, and only a
scheduler that commits is in the middle of a flush. -/
structure Flushing (owed : List NodeId) (inner : Inner) : Prop where
  account : ∀ node ∈ plan.nodes,
    FlushAccount plan inner.seen owed node (inner.tasks node).flushState
  phase : PhaseAccount plan inner.seen inner.transactionPhase
  begun : ∀ node ∈ plan.nodes, (inner.tasks node).flushState = .started → inner.committing = true

/-- The accounts depend on the flush states, the phase and what was observed of flushes. -/
theorem Flushing.congr {plan : Plan} {owed : List NodeId} {inner other : Inner}
    (flushing : Flushing plan owed inner)
    (states : ∀ node, (other.tasks node).flushState = (inner.tasks node).flushState)
    (phase : other.transactionPhase = inner.transactionPhase)
    (committing : other.seen.committing = inner.seen.committing)
    (flushed : other.seen.flushed = inner.seen.flushed)
    (flushCompleted : other.seen.flushCompleted = inner.seen.flushCompleted) :
    Flushing plan owed other := by
  refine ⟨fun node member => ?_, ?_, fun node member => ?_⟩
  · rw [states]
    exact (flushing.account node member).congr (by rw [flushed]) flushCompleted
  · have account := flushing.phase
    rw [phase]
    cases state : inner.transactionPhase <;> rw [state] at account <;>
      simpa only [PhaseAccount, committing, flushCompleted] using account
  · rw [states, Inner.committing, phase]
    exact flushing.begun node member

variable (operators : Operators) (heard : List NodeId)

/-- Whoever is known to be ready is ready, and whoever is ready is known to be, has
notified the scheduler, or is about to. The notifications in `heard` have been dequeued
but not processed. -/
structure Listening (inner : Inner) : Prop where
  synchronous : ∀ node ∈ plan.nodes, plan.isAsync node = false → (inner.tasks node).isReady = true
  known : ∀ node ∈ plan.nodes, plan.isAsync node = true → ¬ inner.Running node →
    (inner.tasks node).isReady = true → operators.ready node = true
  unconsumed : ∀ node, plan.isAsync node = true → (node, .spawned) ∈ inner.handles →
    operators.ready node = true
  running : ∀ node, inner.Running node → (inner.tasks node).isReady = true
  announced : ∀ node ∈ plan.nodes, plan.isAsync node = true → operators.ready node = true →
    operators.callbackDue node = true ∨ node ∈ heard ++ inner.notified ∨
      (¬ inner.Running node ∧ (inner.tasks node).isReady = true) ∨
      (node, .spawned) ∈ inner.handles
  heard_mem : ∀ node ∈ heard ++ inner.notified, node ∈ plan.nodes ∧ plan.isAsync node = true
  permitted : inner.notified ≠ [] → inner.permit = true

/-- The scheduler in the middle of a step. `flushOwed` says whether the completion that is
owed to the successors includes that of a flush. -/
structure Sound (flushOwed : Bool) (owed waiting : List NodeId) (inner : Inner) : Prop where
  bookkeeping : Bookkeeping plan owed waiting inner
  flushing : Flushing plan (if flushOwed then owed else []) inner
  listening : Listening plan operators heard inner
  disciplined : plan.Disciplined inner.history

/-! ## Spawning -/

variable (inner : Inner) (node : NodeId) (task : Task)

@[simp] theorem setTask_tasks :
    (inner.setTask node task).tasks = update inner.tasks node task := rfl

@[simp] theorem setTask_seen : (inner.setTask node task).seen = inner.seen := rfl

@[simp] theorem setTask_handles : (inner.setTask node task).handles = inner.handles := rfl

@[simp] theorem setTask_notified : (inner.setTask node task).notified = inner.notified := rfl

@[simp] theorem setTask_running (other : NodeId) :
    (inner.setTask node task).Running other ↔ inner.Running other := Iff.rfl

@[simp] theorem setTask_committing : (inner.setTask node task).committing = inner.committing := rfl

variable (ready : NodeId → Bool)

theorem seen_spawned (node : NodeId) : (inner.spawned ready node).seen =
      { inner.seen with
        evaluated := node :: inner.seen.evaluated
        flushed := if inner.flushesNow node then node :: inner.seen.flushed else inner.seen.flushed } := by
  unfold seen spawned
  cases inner.flushesNow node <;> rfl

theorem tasks_spawned (node : NodeId) :
    (inner.spawned ready node).tasks = update inner.tasks node
      { inner.tasks node with
        scheduled := true
        flushState := if inner.flushesNow node then .started else (inner.tasks node).flushState } := rfl

theorem running_spawned (node other : NodeId) :
    (inner.spawned ready node).Running other ↔ other = node ∨ inner.Running other := by
  simp only [Running, spawned, map_append, mem_append, map_cons, map_nil, mem_singleton]
  exact or_comm

/-- A flush state at zero means that all predecessors have completed their flush; any
other one in a node that was not flushed names one that has not. -/
theorem Flushing.flushesNow_iff {plan : Plan} {owed : List NodeId} {inner : Inner}
    (flushing : Flushing plan owed inner) {node : NodeId} (member : node ∈ plan.nodes)
    (settled : owed.count node = 0) :
    inner.flushesNow node = true ↔ inner.committing = true ∧ node ∉ inner.seen.flushed ∧
      ∀ earlier ∈ plan.predecessors node, earlier ∈ inner.seen.flushCompleted := by
  have account := flushing.account node member
  unfold flushesNow
  cases state : (inner.tasks node).flushState with
  | unflushedDependencies =>
    rw [state] at account
    obtain ⟨unflushed, -, rfl⟩ := account
    simp only [Bool.and_eq_true, beq_iff_eq, FlushState.unflushedDependencies.injEq, unflushed,
      not_false_eq_true, true_and, and_congr_right_iff]
    intro _
    refine ⟨mem_of_pending_eq_zero, fun all => ?_⟩
    have none := pending_eq_zero all
    simp only [pending, count_nil, settled] at none ⊢
    exact none
  | started | completed =>
    rw [state] at account
    simp [account.1]

theorem committing_spawned (node : NodeId) :
    (inner.spawned ready node).committing = inner.committing := rfl

section

variable {plan : Plan} {operators : Operators} {owed rest heard : List NodeId} {inner} {node}
  {flushOwed : Bool} {waiting : List NodeId}

/-- Nothing is owed to a node that has no unsatisfied dependencies, and its predecessors
have completed. -/
theorem Bookkeeping.settled (book : Bookkeeping plan owed waiting inner)
    (member : node ∈ plan.nodes) (none : (inner.tasks node).unsatisfiedDependencies = 0) :
    owed.count node = 0 ∧ ∀ earlier ∈ plan.predecessors node, earlier ∈ inner.seen.completed := by
  have counted := book.counted node member
  rw [none] at counted
  exact ⟨(Nat.add_eq_zero_iff.mp counted.symm).2, mem_of_pending_eq_zero counted.symm⟩

theorem count_flushOwed (settled : owed.count node = 0) :
    (if flushOwed then owed else []).count node = 0 := by
  cases flushOwed
  · rfl
  · exact settled

theorem Bookkeeping.spawned (book : Bookkeeping plan owed (node :: rest) inner)
    (flushing : Flushing plan (if flushOwed then owed else []) inner) :
    Bookkeeping plan owed rest (inner.spawned ready node) := by
  obtain ⟨member, none, isReady, fresh⟩ := book.waiting_spawnable node mem_cons_self
  obtain ⟨settled, -⟩ := book.settled member none
  have dependencies : ∀ other, ((inner.spawned ready node).tasks other).unsatisfiedDependencies =
      (inner.tasks other).unsatisfiedDependencies := Run.observe_update _ rfl
  have readiness : ∀ other, ((inner.spawned ready node).tasks other).isReady =
      (inner.tasks other).isReady := Run.observe_update _ rfl
  constructor
  case counted =>
    intro other known
    rw [dependencies, book.counted other known, seen_spawned]
  case scheduled =>
    intro other known
    rw [tasks_spawned, seen_spawned]
    by_cases same : other = node
    · subst same
      simp
    · simp [same, book.scheduled other known]
  case eager =>
    intro other known zero ready
    rw [dependencies] at zero
    rw [readiness] at ready
    rw [seen_spawned, mem_cons, or_assoc, or_left_comm, ← mem_cons]
    exact book.eager other known zero ready
  case waiting_nodup => exact (nodup_cons.mp book.waiting_nodup).2
  case waiting_spawnable =>
    intro other waits
    obtain ⟨known, zero, ready, unseen⟩ := book.waiting_spawnable other (mem_cons_of_mem _ waits)
    rw [dependencies, readiness, seen_spawned]
    refine ⟨known, zero, ready, not_mem_cons_of_ne_of_not_mem ?_ unseen⟩
    rintro rfl
    exact (nodup_cons.mp book.waiting_nodup).1 waits
  case evaluated_mem =>
    rw [seen_spawned]
    exact forall_mem_cons.mpr ⟨member, book.evaluated_mem⟩
  case satisfied =>
    simp only [dependencies, seen_spawned]
    exact forall_mem_cons.mpr ⟨none, book.satisfied⟩
  case completed_evaluated =>
    intro other done
    rw [seen_spawned] at done ⊢
    exact mem_cons_of_mem _ (book.completed_evaluated other done)
  case completed_nodup => simpa [seen_spawned] using book.completed_nodup
  case running =>
    intro other
    rw [running_spawned, book.running, seen_spawned, mem_cons, or_and_right]
    refine or_congr_left (iff_self_and.mpr ?_)
    rintro rfl completed
    exact fresh (book.completed_evaluated _ completed)
  case handles_nodup =>
    have idle : ¬ inner.Running node := fun running => fresh ((book.running node).mp running).1
    simp only [Inner.spawned, map_append, map_cons, map_nil]
    exact nodup_append.mpr ⟨book.handles_nodup, nodup_singleton _, by
      rintro _ old _ new rfl
      exact idle (mem_singleton.mp new ▸ old)⟩
  case prompt =>
    intro commits other done unflushed
    rw [seen_spawned] at done unflushed ⊢
    by_cases same : other = node
    · subst same
      by_contra all
      push Not at all
      have now : inner.flushesNow other = true := by
        rw [flushing.flushesNow_iff member (count_flushOwed settled)]
        refine ⟨commits, fun old => unflushed ?_, all⟩
        split
        · exact mem_cons_of_mem _ old
        · exact old
      simp [now] at unflushed
    · refine book.prompt commits other ((mem_cons.mp done).resolve_left same) fun old => unflushed ?_
      split
      · exact mem_cons_of_mem _ old
      · exact old

theorem Flushing.spawned {flushes : List NodeId}
    (flushing : Flushing plan flushes inner) (member : node ∈ plan.nodes)
    (settled : flushes.count node = 0) : Flushing plan flushes (inner.spawned ready node) := by
  have now := flushing.flushesNow_iff member settled
  constructor
  case account =>
    intro other known
    have account := flushing.account other known
    rw [seen_spawned, tasks_spawned]
    by_cases same : other = node
    · subst same
      by_cases flushed : inner.flushesNow other = true
      · obtain ⟨-, unflushed, all⟩ := now.mp flushed
        have incomplete : other ∉ inner.seen.flushCompleted := by
          cases state : (inner.tasks other).flushState with
          | unflushedDependencies | started => rw [state] at account; exact account.2.1
          | completed => rw [state] at account; exact absurd account.1 unflushed
        have none := pending_eq_zero all
        simp only [flushed, if_true, update_self, FlushAccount, mem_cons, true_or, true_and]
        exact ⟨incomplete, by simp only [pending, settled]; exact none⟩
      · simp only [flushed, update_self]
        exact account.congr Iff.rfl rfl
    · rw [update_of_ne same]
      refine account.congr ?_ rfl
      split <;> simp [same]
  case phase =>
    have phase := flushing.phase
    rw [seen_spawned]
    simp only [Inner.spawned, Inner.setTask]
    cases state : inner.transactionPhase <;> rw [state] at phase <;> exact phase
  case begun =>
    intro other known
    rw [tasks_spawned, committing_spawned]
    by_cases same : other = node
    · subst same
      by_cases flushed : inner.flushesNow other = true
      · exact fun _ => (now.mp flushed).1
      · simpa [flushed] using flushing.begun other known
    · rw [update_of_ne same]
      exact flushing.begun other known

theorem Listening.spawned (listening : Listening plan operators heard inner)
    (member : node ∈ plan.nodes) (isReady : (inner.tasks node).isReady = true)
    (idle : ¬ inner.Running node) :
    Listening plan operators heard (inner.spawned operators.ready node) := by
  have unchanged : ∀ other, ((inner.spawned operators.ready node).tasks other).isReady =
      (inner.tasks other).isReady := Run.observe_update Task.isReady rfl
  have handled : ∀ handle, handle ∈ (inner.spawned operators.ready node).handles ↔
      handle ∈ inner.handles ∨ handle = (node, .spawned) := by
    simp [Inner.spawned]
  constructor
  case synchronous =>
    intro other known sync
    rw [unchanged]
    exact listening.synchronous other known sync
  case known =>
    intro other known async out ready
    rw [unchanged] at ready
    exact listening.known other known async
      (fun running => out ((running_spawned _ _ _ _).mpr (.inr running))) ready
  case unconsumed =>
    intro other async handle
    rcases (handled _).mp handle with old | new
    · exact listening.unconsumed other async old
    · obtain ⟨rfl, -⟩ := Prod.mk.inj new
      exact listening.known other member async idle isReady
  case running =>
    intro other running
    rw [unchanged]
    rcases (running_spawned _ _ _ _).mp running with rfl | old
    · exact isReady
    · exact listening.running other old
  case announced =>
    intro other known async ready
    rw [unchanged, running_spawned, handled]
    refine (listening.announced other known async ready).imp_right (.imp_right ?_)
    rintro (⟨out, set⟩ | handle)
    · by_cases same : other = node
      · exact .inr (.inr (by rw [same]))
      · exact .inl ⟨not_or.mpr ⟨same, out⟩, set⟩
    · exact .inr (.inl handle)
  case heard_mem => exact listening.heard_mem
  case permitted => exact listening.permitted

/-- Spawning the first of the waiting nodes is possible and disciplined. -/
theorem Sound.spawnTask (sound : Sound plan operators heard flushOwed owed (node :: rest) inner) :
    inner.spawnTask plan operators.ready node = some (inner.spawned operators.ready node) ∧
      Sound plan operators heard flushOwed owed rest (inner.spawned operators.ready node) := by
  obtain ⟨member, none, isReady, fresh⟩ := sound.bookkeeping.waiting_spawnable node mem_cons_self
  obtain ⟨settled, completed⟩ := sound.bookkeeping.settled member none
  have idle : ¬ inner.Running node := fun running =>
    fresh ((sound.bookkeeping.running node).mp running).1
  have unscheduled : (inner.tasks node).scheduled = false :=
    Bool.eq_false_iff.mpr fun set => fresh ((sound.bookkeeping.scheduled node member).mp set)
  refine ⟨if_pos ⟨member, none, isReady, unscheduled⟩, ?_⟩
  refine ⟨sound.bookkeeping.spawned _ sound.flushing,
    sound.flushing.spawned _ member (count_flushOwed settled),
    sound.listening.spawned member isReady idle, ?_⟩
  have evaluates : ∀ seen : Observed, seen.evaluated = inner.seen.evaluated →
      seen.completed = inner.seen.completed →
      plan.Allows seen (.eval node (operators.ready node)) := by
    intro seen sameEvaluated sameCompleted
    refine ⟨member, sameEvaluated ▸ fresh, sameCompleted ▸ completed, fun async => ?_⟩
    exact sound.listening.known node member async idle isReady
  have now := sound.flushing.flushesNow_iff member (count_flushOwed settled)
  unfold Inner.spawned
  by_cases flushed : inner.flushesNow node = true
  · obtain ⟨commits, unflushed, all⟩ := now.mp flushed
    have phase := sound.flushing.phase
    have observed : inner.seen.committing = true := by
      unfold committing at commits
      split at commits
      · rename_i state
        rw [state] at phase
        exact phase.1
      · cases commits
    simp only [flushed, if_true]
    exact ⟨evaluates _ rfl rfl, ⟨observed, member, unflushed, all⟩, sound.disciplined⟩
  · simp only [flushed]
    exact ⟨evaluates _ rfl rfl, sound.disciplined⟩

/-- All waiting nodes can be spawned. -/
theorem Sound.spawnAll (sound : Sound plan operators heard flushOwed owed waiting inner) :
    ∃ after, waiting.foldlM (Inner.spawnTask plan operators.ready) inner = some after ∧
      Sound plan operators heard flushOwed owed [] after := by
  induction waiting generalizing inner with
  | nil => exact ⟨inner, rfl, sound⟩
  | cons _ _ ih =>
    obtain ⟨first, soundMiddle⟩ := sound.spawnTask
    obtain ⟨after, remaining, soundAfter⟩ := ih soundMiddle
    exact ⟨after, by rw [foldlM_cons, first]; exact remaining, soundAfter⟩

end

end Inner

end OpenDera
