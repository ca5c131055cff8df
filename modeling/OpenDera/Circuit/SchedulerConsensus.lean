import OpenDera.Circuit.SchedulerRun

/-!
# The workers agree on when a transaction is committed

A worker takes part in a round of the consensus at the end of every step that commits.
All workers execute the same commands, so the number of rounds before a command and the
phase of the transaction at that command depend only on the outcomes of earlier rounds
(`schedule`), which all workers see alike. Hence the reports of one round are those of
one command, and the transaction is committed everywhere by the same command.
-/

namespace OpenDera

open Option

/-- A transaction phase without its counter. -/
inductive PhaseKind where
  | started
  | committing
  | commitComplete
  deriving DecidableEq, Repr

/-- The kind of a phase. -/
def TransactionPhase.kind : TransactionPhase → PhaseKind
  | .started => .started
  | .committing _ => .committing
  | .commitComplete => .commitComplete

/-- The phase before a command and the number of rounds before it, given the outcomes of
the rounds. -/
def schedule (commands : Nat → Command) (decided : Nat → Bool) : Nat → PhaseKind × Nat
  | 0 => (.commitComplete, 0)
  | command + 1 =>
    let position := schedule commands decided command
    match commands command with
    | .startTransaction => (.started, position.2)
    | .startCommitTransaction => (.committing, position.2)
    | .step =>
      match position.1 with
      | .committing => (if decided position.2 then .commitComplete else .committing, position.2 + 1)
      | kind => (kind, position.2)

section

variable {commands : Nat → Command} {decided other : Nat → Bool} {command : Nat}

theorem schedule_succ_step (step : commands command = .step) :
    schedule commands decided (command + 1) =
      match (schedule commands decided command).1 with
      | .committing =>
        (if decided (schedule commands decided command).2 then .commitComplete else .committing,
          (schedule commands decided command).2 + 1)
      | kind => (kind, (schedule commands decided command).2) := by
  rw [schedule]
  simp only [step]

theorem schedule_le_succ (command : Nat) :
    (schedule commands decided command).2 ≤ (schedule commands decided (command + 1)).2 := by
  rw [schedule]
  split
  · exact Nat.le_refl _
  · exact Nat.le_refl _
  · split
    · exact Nat.le_succ _
    · exact Nat.le_refl _

theorem schedule_mono (commands : Nat → Command) (decided : Nat → Bool) {first second : Nat} (earlier : first ≤ second) :
    (schedule commands decided first).2 ≤ (schedule commands decided second).2 := by
  induction earlier with
  | refl => exact Nat.le_refl _
  | step _ ih => exact Nat.le_trans ih (schedule_le_succ _)

/-- The position depends on the outcomes of the rounds before it only. -/
theorem schedule_congr (command : Nat)
    (agree : ∀ round < (schedule commands decided command).2, decided round = other round) :
    schedule commands other command = schedule commands decided command := by
  induction command with
  | zero => rfl
  | succ command ih =>
    have before := ih fun round less =>
      agree round (Nat.lt_of_lt_of_le less (schedule_le_succ command))
    cases kind : commands command with
    | startTransaction | startCommitTransaction => simp only [schedule, kind, before]
    | step =>
      rw [schedule_succ_step kind] at agree
      rw [schedule_succ_step kind, schedule_succ_step kind, before]
      cases phase : (schedule commands decided command).1 with
      | started => rfl
      | commitComplete => rfl
      | committing =>
        rw [phase] at agree
        have same := agree (schedule commands decided command).2 (Nat.lt_succ_self _)
        simp only [same]

/-- The command is the step that takes part in the round. -/
def Round (commands : Nat → Command) (decided : Nat → Bool) (command round : Nat) : Prop :=
  commands command = .step ∧ schedule commands decided command = (.committing, round)

theorem Round.next {round : Nat} (takes : Round commands decided command round) :
    schedule commands decided (command + 1) =
      (if decided round then .commitComplete else .committing, round + 1) := by
  rw [schedule_succ_step takes.1, takes.2]

theorem Round.unique {first second round : Nat} (one : Round commands decided first round)
    (two : Round commands decided second round) : first = second := by
  have later : ∀ {a b : Nat}, Round commands decided a round → Round commands decided b round → ¬ a < b := by
    intro a b here there less
    have grows := schedule_mono commands decided less
    rw [here.next, there.2] at grows
    exact Nat.not_succ_le_self _ grows
  have notLess := later one two
  have notGreater := later two one
  omega

theorem Round.round_eq {first second : Nat} (one : Round commands decided command first)
    (two : Round commands decided command second) : first = second :=
  (Prod.mk.inj (one.2.symm.trans two.2)).2

/-- Outcomes that agree on the rounds before this one give it to the same command. -/
theorem Round.congr {round : Nat} (takes : Round commands decided command round)
    (agree : ∀ earlier < round, decided earlier = other earlier) :
    Round commands other command round := by
  refine ⟨takes.1, ?_⟩
  rw [schedule_congr command, takes.2]
  rw [takes.2]
  exact agree

/-- A round before the position of a command is over when the command starts. -/
theorem Round.lt {clock round : Nat} (takes : Round commands decided command round)
    (before : command < clock) : round < (schedule commands decided clock).2 := by
  have grows := schedule_mono commands decided before
  rw [takes.next] at grows
  exact grows

end

/-! ## What an action does to a worker's standing -/

/-- The worker has handed in its status and waits for the others. -/
def Stage.isCollecting : Stage → Bool
  | .collecting _ => true
  | _ => false

/-- The worker is in the middle of a step. -/
def Stage.inStep : Stage → Bool
  | .running _ | .collecting _ => true
  | _ => false

/-- The worker has stopped. -/
def Stage.isFailed : Stage → Bool
  | .failed _ => true
  | _ => false

namespace Worker

open OpenDera.Inner

/-- How one action changes what concerns other workers. -/
inductive Moves (commands : Nat → Command) (statuses : Nat → Option (List (Bool × Bool)))
    (before after : Worker) : Prop where
  | stays (clock : after.clock = before.clock) (reports : after.reports = before.reports)
      (marks : after.inner.marks = before.inner.marks)
      (kind : after.inner.transactionPhase.kind = before.inner.transactionPhase.kind)
      (collecting : after.stage.isCollecting = before.stage.isCollecting)
      (inStep : after.stage.inStep = true → before.stage.inStep = true ∨ commands before.clock = .step)
      (failed : before.stage.isFailed = true → after.stage.isFailed = true)
  | commands (idle : before.stage = .idle) (stage : after.stage = .idle)
      (clock : after.clock = before.clock + 1) (reports : after.reports = before.reports)
      (marks : after.inner.marks = before.inner.marks)
      (kind : commands before.clock = .startTransaction ∧
          after.inner.transactionPhase.kind = .started ∨
        commands before.clock = .startCommitTransaction ∧
          after.inner.transactionPhase.kind = .committing)
  | ends (step : before.stage.inStep = true ∨ commands before.clock = .step)
      (active : before.stage.isCollecting = false ∧ before.stage.isFailed = false)
      (stage : after.stage.inStep = false) (clock : after.clock = before.clock + 1)
      (reports : after.reports = before.reports) (marks : after.inner.marks = before.inner.marks)
      (kind : after.inner.transactionPhase.kind = before.inner.transactionPhase.kind ∧
        before.inner.transactionPhase.kind ≠ .committing)
  | reports (status : Bool × Bool)
      (step : before.stage.inStep = true ∨ commands before.clock = .step)
      (active : before.stage.isCollecting = false ∧ before.stage.isFailed = false)
      (stage : after.stage.isCollecting = true) (clock : after.clock = before.clock)
      (reports : after.reports = before.reports ++ [status])
      (marks : after.inner.marks =
        .report before.clock status.1 status.2 :: before.inner.marks)
      (kind : after.inner.transactionPhase.kind = .committing ∧
        before.inner.transactionPhase.kind = .committing)
  | concludes (known : List (Bool × Bool)) (arrived : statuses (before.reports.length - 1) = some known)
      (collecting : before.stage.isCollecting = true) (stage : after.stage.inStep = false)
      (clock : after.clock = before.clock + 1) (reports : after.reports = before.reports)
      (kind : after.inner.transactionPhase.kind =
        if known.all Prod.fst then .commitComplete else before.inner.transactionPhase.kind)
      (marks : after.inner.marks =
        if known.all Prod.fst then
          (if known.all Prod.snd then [.flushComplete before.clock] else []) ++
            .commitComplete before.clock :: before.inner.marks
        else
          before.inner.marks)

variable {plan : Plan} {commands : Nat → Command} {statuses : Nat → Option (List (Bool × Bool))}
  {worker after : Worker}

theorem inStep_afterStep (error : Option SchedulerError) : (Stage.afterStep error).inStep = false := by
  cases error <;> rfl

/-- Ending a step hands in a status exactly if the transaction commits. -/
theorem moves_endStep {inner : Inner} {error : Option SchedulerError}
    (step : worker.stage.inStep = true ∨ commands worker.clock = .step)
    (active : worker.stage.isCollecting = false ∧ worker.stage.isFailed = false)
    (marks : inner.marks = worker.inner.marks)
    (kind : inner.transactionPhase.kind = worker.inner.transactionPhase.kind) :
    Moves commands statuses worker (worker.endStep inner error) := by
  have marked : ∀ history : List Effect,
      (if error.isNone then Effect.endStep :: history else history).filter Effect.isMark =
        history.filter Effect.isMark := by
    intro history
    split <;> rfl
  cases phase : inner.transactionPhase with
  | committing unflushed =>
    rw [endStep_committing worker phase]
    rw [phase] at kind
    refine .reports (unflushed == 0, inner.flushState) step active rfl rfl rfl ?_ ⟨?_, kind.symm⟩
    · simp only [Inner.marks, List.filter_cons, Effect.isMark, if_true, marked]
      exact congrArg _ marks
    · simp only [phase]
      rfl
  | started | commitComplete =>
    rw [endStep_not_committing worker (by simp [committing, phase])]
    refine .ends step active (inStep_afterStep error) rfl rfl ?_ ⟨kind, ?_⟩
    · simpa only [Inner.marks, marked] using marks
    · rw [← kind, phase]
      simp [TransactionPhase.kind]

/-- Taking a task out and accounting for its flush leaves the standing alone. -/
theorem accountFlush_standing {inner accounted : Inner} {node : NodeId} {isFlushComplete flushComplete : Bool}
    (accounts : (inner.remove plan node).accountFlush node isFlushComplete =
      some (accounted, flushComplete)) :
    accounted.marks = inner.marks ∧ accounted.transactionPhase.kind = inner.transactionPhase.kind := by
  unfold accountFlush at accounts
  dsimp only at accounts
  split at accounts
  · split at accounts
    · rename_i phase
      cases accounts
      refine ⟨rfl, ?_⟩
      have same : inner.transactionPhase = _ := phase
      rw [same]
      rfl
    · cases accounts
  · cases accounts
    exact ⟨rfl, rfl⟩

theorem joinNext_standing {inner joined : Inner} {completedTasks : Nat} {node : NodeId}
    {ready : NodeId → Bool} {result : Except SchedulerError Bool} {progress : StepProgress}
    (joins : inner.joinNext plan ready completedTasks node result = some (joined, progress)) :
    joined.marks = inner.marks ∧ joined.transactionPhase.kind = inner.transactionPhase.kind := by
  cases result with
  | error =>
    cases joins
    exact ⟨rfl, rfl⟩
  | ok =>
    obtain ⟨⟨accounted, flushComplete⟩, accounts, later⟩ := bind_eq_some_iff.mp joins
    obtain ⟨marks, kind⟩ := accountFlush_standing accounts
    dsimp only at later
    split at later
    · cases later
      exact ⟨marks, kind⟩
    · obtain ⟨scheduled, schedules, same⟩ := bind_eq_some_iff.mp later
      cases same
      have frame := scheduleSuccessors_frame schedules
      exact ⟨frame.marks.trans marks, by rw [frame.phase]; exact kind⟩

theorem moves_execute (idle : worker.stage = .idle)
    (executes : worker.execute plan (commands worker.clock) = some after) :
    Moves commands statuses worker after := by
  have active : worker.stage.isCollecting = false ∧ worker.stage.isFailed = false := by
    rw [idle]
    exact ⟨rfl, rfl⟩
  have rejected : ∀ error, Moves commands statuses worker { worker with stage := .failed error } := by
    intro error
    refine .stays rfl rfl rfl rfl ?_ ?_ fun _ => rfl
    · exact active.1.symm
    · intro impossible
      cases impossible
  cases command : commands worker.clock with
  | startTransaction =>
    rw [command] at executes
    cases executes
    exact .commands idle idle rfl rfl rfl (.inl ⟨command, rfl⟩)
  | startCommitTransaction =>
    rw [command] at executes
    unfold Worker.execute Inner.startCommitTransaction at executes
    cases phase : worker.inner.transactionPhase with
    | started =>
      simp only [phase] at executes
      cases executes
      exact .commands idle idle rfl rfl rfl (.inr ⟨command, rfl⟩)
    | committing | commitComplete =>
      simp only [phase] at executes
      cases executes
      exact rejected _
  | step =>
    rw [command] at executes
    unfold Worker.execute at executes
    dsimp only at executes
    split at executes
    · split at executes
      · cases executes
        exact moves_endStep (.inr command) active rfl rfl
      · obtain ⟨inner, starts, same⟩ := map_eq_some_iff.mp executes
        cases same
        have frame := startStep_frame starts
        refine .stays rfl rfl frame.marks ?_ ?_ (fun _ => .inr command) ?_
        · exact congrArg TransactionPhase.kind frame.phase
        · exact active.1.symm
        · intro failed
          rw [active.2] at failed
          cases failed
    · cases executes
      exact rejected _

/-- What an action does to the standing of a worker. -/
theorem moves_act {action : Action} (acts : worker.act plan commands statuses action = some after) :
    Moves commands statuses worker after := by
  have unchanged : some worker = some after → Moves commands statuses worker after := by
    rintro ⟨⟩
    exact .stays rfl rfl rfl rfl rfl .inl id
  cases action
  all_goals dsimp only [Worker.act] at acts
  case command =>
    split at acts
    case h_1 idle => exact moves_execute idle acts
    case h_2 => exact unchanged acts
  case flush | consume | becomeReady | notify =>
    split at acts
    · cases acts
      exact .stays rfl rfl rfl rfl rfl .inl id
    · exact unchanged acts
  case finish =>
    cases acts
    exact .stays rfl rfl rfl rfl rfl .inl id
  case join =>
    split at acts
    case h_1 stage =>
      split at acts
      · split at acts <;> cases acts
        case h_1 joins =>
          obtain ⟨marks, kind⟩ := joinNext_standing joins
          exact .stays rfl rfl marks kind (by rw [stage]; rfl) (fun _ => .inl (by rw [stage]; rfl))
            (fun failed => by rw [stage] at failed; cases failed)
        case h_2 joins =>
          obtain ⟨marks, kind⟩ := joinNext_standing joins
          exact moves_endStep (.inl (by rw [stage]; rfl)) (by rw [stage]; exact ⟨rfl, rfl⟩) marks kind
      · exact unchanged acts
    case h_2 => exact unchanged acts
  case processNotifications =>
    split at acts
    case h_1 =>
      split at acts
      · obtain ⟨inner, processes, same⟩ := map_eq_some_iff.mp acts
        cases same
        have frame := processNotifications_frame processes
        exact .stays rfl rfl frame.marks (congrArg TransactionPhase.kind frame.phase) rfl .inl id
      · exact unchanged acts
    case h_2 => exact unchanged acts
  case collect =>
    split at acts
    case h_1 error stage =>
      split at acts
      case h_1 known arrived =>
        cases acts
        refine .concludes known arrived (by rw [stage]; rfl) (inStep_afterStep error) rfl rfl ?_ ?_
        · unfold Worker.conclude
          cases known.all Prod.fst <;> rfl
        · unfold Worker.conclude Inner.marks
          cases known.all Prod.fst
          · rfl
          · cases known.all Prod.snd <;> rfl
      case h_2 => exact unchanged acts
    case h_2 => exact unchanged acts

end Worker

end OpenDera
