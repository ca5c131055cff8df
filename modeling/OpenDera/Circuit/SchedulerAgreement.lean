import OpenDera.Circuit.SchedulerConsensus

/-!
# Agreement along whole runs

Every worker stands where the outcomes of the rounds say it must, and nobody is past a
round that some worker has not reported in. A new report can decide a round only while
all workers still stand at it or before it, so it changes nothing for commands that have
been executed.
-/

namespace OpenDera

open List Run Worker Prod Function

variable {commands : Nat → Command} {Condition : Nat → Prop}

/-- A command that takes part in no round adds nothing to what has been committed. -/
theorem Round.lt_succ_of_outside {decided : Nat → Bool} {clock command : Nat}
    (outside : ∀ round, ¬ Round commands decided clock round) :
    (command < clock + 1 ∧ ∃ round, Round commands decided command round ∧ Condition round) ↔
      command < clock ∧ ∃ round, Round commands decided command round ∧ Condition round := by
  rw [Nat.lt_succ_iff_lt_or_eq, or_and_right, or_iff_left]
  rintro ⟨rfl, round, takes, -⟩
  exact outside round takes

/-- A command that takes part in a round adds the outcome of that round. -/
theorem Round.lt_succ_iff {decided : Nat → Bool}
    {clock current : Nat} (takes : Round commands decided clock current) (command : Nat) :
    (command < clock + 1 ∧ ∃ round, Round commands decided command round ∧ Condition round) ↔
      (command = clock ∧ Condition current) ∨
        command < clock ∧ ∃ round, Round commands decided command round ∧ Condition round := by
  rw [Nat.lt_succ_iff_lt_or_eq, or_and_right, or_comm]
  refine or_congr_left (and_congr_right fun same => ?_)
  subst same
  constructor
  · rintro ⟨round, here, holds⟩
    exact here.round_eq takes ▸ holds
  · exact fun holds => ⟨current, takes, holds⟩

/-- The standing of a worker among the commands and rounds. -/
structure Worker.Standing (commands : Nat → Command) (decided wanted : Nat → Bool)
    (worker : Worker) : Prop where
  rounds : (schedule commands decided worker.clock).2 +
    (if worker.stage.isCollecting then 1 else 0) = worker.reports.length
  kind : worker.stage.isFailed = false →
    (schedule commands decided worker.clock).1 = worker.inner.transactionPhase.kind
  step : worker.stage.inStep = true → commands worker.clock = .step
  collecting : worker.stage.isCollecting = true → worker.inner.transactionPhase.kind = .committing
  reported : ∀ command complete flush, .report command complete flush ∈ worker.inner.marks ↔
    ∃ round, Round commands decided command round ∧ worker.reports[round]? = some (complete, flush)
  committed : ∀ command, .commitComplete command ∈ worker.inner.marks ↔
    command < worker.clock ∧ ∃ round, Round commands decided command round ∧ decided round = true
  flushed : ∀ command, .flushComplete command ∈ worker.inner.marks ↔
    command < worker.clock ∧ ∃ round, Round commands decided command round ∧ decided round = true ∧
      wanted round = true

namespace Worker

variable {decided wanted : Nat → Bool} {worker after : Worker}
  {statuses : Nat → Option (List (Bool × Bool))}

/-- A collecting worker takes part in the last round it has reported in. -/
theorem Standing.current (standing : worker.Standing commands decided wanted)
    (collecting : worker.stage.isCollecting = true) :
    Round commands decided worker.clock (worker.reports.length - 1) := by
  have rounds := standing.rounds
  rw [if_pos collecting] at rounds
  have alive : worker.stage.isFailed = false ∧ worker.stage.inStep = true := by
    cases stage : worker.stage <;> rw [stage] at collecting <;> first | exact ⟨rfl, rfl⟩ | cases collecting
  refine ⟨standing.step alive.2, Prod.ext ?_ ?_⟩
  · exact (standing.kind alive.1).trans (standing.collecting collecting)
  · dsimp only
    omega

theorem isCollecting_of_not_inStep {stage : Stage} (outside : stage.inStep = false) :
    stage.isCollecting = false := by
  cases stage <;> first | rfl | cases outside

variable (standing : worker.Standing commands decided wanted)

include standing

/-- A command that takes part in no round keeps the standing. -/
theorem Standing.advance (idle : worker.stage.isCollecting = false)
    (stage : after.stage.inStep = false) (clock : after.clock = worker.clock + 1)
    (reports : after.reports = worker.reports) (marks : after.inner.marks = worker.inner.marks)
    (next : schedule commands decided (worker.clock + 1) =
      (after.inner.transactionPhase.kind, (schedule commands decided worker.clock).2))
    (outside : ∀ round, ¬ Round commands decided worker.clock round) :
    after.Standing commands decided wanted := by
  have notCollecting := isCollecting_of_not_inStep stage
  have rounds := standing.rounds
  rw [idle] at rounds
  constructor
  case rounds =>
    rw [clock, next, notCollecting, reports]
    exact rounds
  case kind => exact fun _ => by rw [clock, next]
  case step => simp [stage]
  case collecting => simp [notCollecting]
  case reported => simpa only [marks, reports] using standing.reported
  case committed => simpa only [marks, clock, Round.lt_succ_of_outside outside] using standing.committed
  case flushed => simpa only [marks, clock, Round.lt_succ_of_outside outside] using standing.flushed

/-- Actions that hand in no status keep the standing. -/
theorem Standing.moves (moves : Moves commands statuses worker after)
    (outcome : ∀ round known, statuses round = some known →
      decided round = known.all fst ∧ wanted round = known.all snd)
    (silent : after.reports = worker.reports) : after.Standing commands decided wanted := by
  cases moves with
  | stays clock reports marks kind collecting inStep failed =>
    constructor
    case rounds => rw [clock, collecting, reports, standing.rounds]
    case kind =>
      intro alive
      rw [clock, kind]
      refine standing.kind (Bool.eq_false_iff.mpr fun dead => ?_)
      rw [failed dead] at alive
      cases alive
    case step =>
      intro running
      rw [clock]
      exact (inStep running).elim standing.step id
    case collecting =>
      rw [kind, collecting]
      exact standing.collecting
    case reported => simpa only [marks, reports] using standing.reported
    case committed => simpa only [marks, clock] using standing.committed
    case flushed => simpa only [marks, clock] using standing.flushed
  | commands idle stage clock reports marks kind =>
    refine standing.advance (by rw [idle]; rfl) (by rw [stage]; rfl) clock reports marks ?_ ?_
    · rcases kind with ⟨command, kind⟩ | ⟨command, kind⟩ <;> rw [schedule, command, kind]
    · rintro round ⟨step, -⟩
      rcases kind with ⟨command, -⟩ | ⟨command, -⟩ <;> rw [command] at step <;> cases step
  | ends step active stage clock reports marks kind =>
    have command : commands worker.clock = .step := step.elim standing.step id
    have position := standing.kind active.2
    refine standing.advance active.1 stage clock reports marks ?_ ?_
    · rw [schedule_succ_step command, position, kind.1]
      cases same : worker.inner.transactionPhase.kind with
      | committing => exact absurd same kind.2
      | started | commitComplete => rfl
    · rintro round ⟨-, takes⟩
      rw [takes] at position
      exact kind.2 position.symm
  | reports _ _ _ _ _ reports =>
    rw [silent] at reports
    simp at reports
  | concludes known arrived collecting stage clock reports kind marks =>
    have takes := standing.current collecting
    obtain ⟨sameDecided, sameWanted⟩ := outcome _ known arrived
    have rounds := standing.rounds
    rw [if_pos collecting] at rounds
    have position := takes.next
    rw [sameDecided] at position
    have notCollecting := isCollecting_of_not_inStep stage
    constructor
    case rounds =>
      rw [clock, position, notCollecting, reports]
      simp only [Bool.false_eq_true, if_false]
      omega
    case kind =>
      intro _
      rw [clock, position, kind, standing.collecting collecting]
    case step => simp [stage]
    case collecting => simp [notCollecting]
    case reported =>
      intro command complete flush
      rw [reports, ← standing.reported command complete flush, marks]
      cases known.all fst
      · rfl
      · cases known.all snd <;> simp
    case committed =>
      intro command
      rw [clock, takes.lt_succ_iff, ← standing.committed command, sameDecided, marks]
      cases known.all fst
      · simp
      · cases known.all snd <;> simp
    case flushed =>
      intro command
      rw [clock, takes.lt_succ_iff, ← standing.flushed command, sameDecided, sameWanted, marks]
      cases known.all fst
      · simp
      · cases known.all snd <;> simp

/-- Outcomes that agree on all rounds before the one that is open leave every standing at
that round or before it as it is. -/
theorem Standing.congr {other otherWanted : Nat → Bool} {bound : Nat}
    (agree : ∀ round < bound, decided round = other round ∧ wanted round = otherWanted round)
    (position : (schedule commands decided worker.clock).2 ≤ bound)
    (few : worker.reports.length ≤ bound + 1) : worker.Standing commands other otherWanted := by
  have same : schedule commands other worker.clock = schedule commands decided worker.clock :=
    schedule_congr _ fun round less => (agree round (by omega)).1
  have rounds : ∀ command round, round ≤ bound →
      (Round commands decided command round ↔ Round commands other command round) := by
    intro command round small
    exact ⟨fun takes => takes.congr fun earlier less => (agree earlier (by omega)).1,
      fun takes => takes.congr fun earlier less => (agree earlier (by omega)).1.symm⟩
  -- A round that a past command took part in is over, so its outcome is agreed upon.
  have past : ∀ {first second : Nat → Prop}, (∀ round < bound, (first round ↔ second round)) →
      ∀ command < worker.clock, ((∃ round, Round commands decided command round ∧ first round) ↔
        ∃ round, Round commands other command round ∧ second round) := by
    intro first second alike command before
    refine exists_congr fun round => ⟨fun ⟨takes, holds⟩ => ?_, fun ⟨takes, holds⟩ => ?_⟩
    · have less := Nat.lt_of_lt_of_le (takes.lt before) position
      exact ⟨(rounds command round less.le).mp takes, (alike round less).mp holds⟩
    · have less := Nat.lt_of_lt_of_le (takes.lt before) (same ▸ position)
      exact ⟨(rounds command round less.le).mpr takes, (alike round less).mpr holds⟩
  constructor
  case rounds => rw [same, standing.rounds]
  case kind => rw [same]; exact standing.kind
  case step => exact standing.step
  case collecting => exact standing.collecting
  case reported =>
    intro command complete flush
    rw [standing.reported]
    refine exists_congr fun round => and_congr_left fun found => rounds command round ?_
    have inside := (List.getElem?_eq_some_iff.mp found).1
    omega
  case committed =>
    intro command
    rw [standing.committed]
    refine and_congr_right (past (fun round less => ?_) command)
    rw [(agree round less).1]
  case flushed =>
    intro command
    rw [standing.flushed]
    refine and_congr_right (past (fun round less => ?_) command)
    rw [(agree round less).1, (agree round less).2]

/-- Handing in a status keeps the standing. -/
theorem Standing.report {status : Bool × Bool}
    (step : worker.stage.inStep = true ∨ commands worker.clock = .step)
    (active : worker.stage.isCollecting = false ∧ worker.stage.isFailed = false)
    (stage : after.stage.isCollecting = true) (clock : after.clock = worker.clock)
    (reports : after.reports = worker.reports ++ [status])
    (marks : after.inner.marks = .report worker.clock status.1 status.2 :: worker.inner.marks)
    (kind : after.inner.transactionPhase.kind = .committing ∧
      worker.inner.transactionPhase.kind = .committing) :
    after.Standing commands decided wanted := by
  have command : commands worker.clock = .step := step.elim standing.step id
  have position := standing.rounds
  rw [active.1] at position
  have takes : Round commands decided worker.clock worker.reports.length := by
    refine ⟨command, Prod.ext ((standing.kind active.2).trans kind.2) ?_⟩
    simpa using position
  constructor
  case rounds =>
    rw [clock, if_pos stage, reports, length_append, takes.2]
    rfl
  case kind => exact fun _ => by rw [clock, takes.2, kind.1]
  case step => exact fun _ => by rw [clock, command]
  case collecting => exact fun _ => kind.1
  case reported =>
    intro other complete flush
    rw [marks, mem_cons, standing.reported, reports]
    constructor
    · rintro (new | ⟨round, here, found⟩)
      · obtain ⟨rfl, rfl, rfl⟩ := Effect.report.inj new
        exact ⟨_, takes, by simp⟩
      · exact ⟨round, here, by
          rw [List.getElem?_append_left (List.getElem?_eq_some_iff.mp found).1, found]⟩
    · rintro ⟨round, here, found⟩
      by_cases old : round < worker.reports.length
      · rw [List.getElem?_append_left old] at found
        exact .inr ⟨round, here, found⟩
      · have last := (List.getElem?_eq_some_iff.mp found).1
        rw [length_append, length_singleton] at last
        obtain rfl : round = worker.reports.length := by omega
        obtain rfl : status = (complete, flush) := by simpa using found
        obtain rfl := here.unique takes
        exact .inl rfl
  case committed =>
    intro other
    rw [marks, clock, ← standing.committed]
    simp
  case flushed =>
    intro other
    rw [marks, clock, ← standing.flushed]
    simp

end Worker

namespace Workers

variable {count : Nat} {plan : Plan} {workers after : Workers count}

variable (workers)

/-- The round has decided that the transaction is committed. -/
def decided (round : Nat) : Bool :=
  match workers.statuses round with
  | some known => known.all fst
  | none => false

/-- In the round all workers were asked for a flush. -/
def wanted (round : Nat) : Bool :=
  match workers.statuses round with
  | some known => known.all snd
  | none => false

variable {workers}

theorem statuses_eq_some {round : Nat} {known : List (Bool × Bool)}
    (arrived : workers.statuses round = some known) (index : Fin count) :
    ∃ status, (workers.worker index).reports[round]? = some status ∧ status ∈ known := by
  unfold statuses at arrived
  split at arrived
  · rename_i all
    obtain rfl := Option.some.inj arrived
    refine ⟨_, getElem?_eq_getElem (all index), ?_⟩
    rw [mem_ofFn]
    exact ⟨index, by rw [getD_eq_getElem?_getD, getElem?_eq_getElem (all index)]; rfl⟩
  · cases arrived

variable (workers)

/-- A property of all statuses of a round is one of all the reports made in it. -/
theorem statuses_all (round : Nat) (property : Bool × Bool → Bool) :
    (∃ known, workers.statuses round = some known ∧ known.all property = true) ↔
      ∀ index, ∃ status, (workers.worker index).reports[round]? = some status ∧ property status = true := by
  constructor
  · rintro ⟨known, arrived, all⟩ index
    obtain ⟨status, found, member⟩ := statuses_eq_some arrived index
    exact ⟨status, found, all_eq_true.mp all status member⟩
  · intro all
    have reported : ∀ index, round < (workers.worker index).reports.length := by
      intro index
      obtain ⟨status, found, -⟩ := all index
      exact (List.getElem?_eq_some_iff.mp found).1
    refine ⟨_, if_pos reported, all_eq_true.mpr ?_⟩
    intro status member
    obtain ⟨index, rfl⟩ := mem_ofFn.mp member
    obtain ⟨status, found, holds⟩ := all index
    rw [getD_eq_getElem?_getD, found]
    exact holds

theorem decided_iff (round : Nat) : workers.decided round = true ↔
      ∀ index, ∃ flush, (workers.worker index).reports[round]? = some (true, flush) := by
  have all := statuses_all workers round fst
  rw [decided]
  cases known : workers.statuses round <;> simpa [known] using all

theorem wanted_iff (round : Nat) : workers.wanted round = true ↔
      ∀ index, ∃ complete, (workers.worker index).reports[round]? = some (complete, true) := by
  have all := statuses_all workers round snd
  rw [wanted]
  cases known : workers.statuses round <;> simpa [known] using all

variable {workers}

/-- Every worker stands where the rounds say, and nobody is past a round that someone has
not reported in. -/
structure Aligned (commands : Nat → Command) (workers : Workers count) : Prop where
  standing : ∀ index, (workers.worker index).Standing commands workers.decided workers.wanted
  paced : ∀ first second, (schedule commands workers.decided (workers.worker first).clock).2 ≤
    (workers.worker second).reports.length

attribute [local simp] Workers.new Worker.new Inner.new Inner.marks in
theorem aligned_new (plan : Plan) (commands : Nat → Command) (ready : Fin count → NodeId → Bool) :
    (Workers.new plan ready).Aligned commands := by
  refine ⟨fun index => ?_, fun first second => Nat.le_refl _⟩
  constructor
  case rounds => rfl
  case kind => exact fun _ => rfl
  case step =>
    intro impossible
    cases impossible
  case collecting =>
    intro impossible
    cases impossible
  case reported => simp
  case committed => simp
  case flushed => simp

/-- The statuses of a round depend on the reports made in it. -/
theorem statuses_congr {round : Nat}
    (same : ∀ index, (after.worker index).reports[round]? = (workers.worker index).reports[round]?) :
    after.decided round = workers.decided round ∧ after.wanted round = workers.wanted round := by
  have lengths : ∀ index, (round < (after.worker index).reports.length ↔
      round < (workers.worker index).reports.length) := by
    intro index
    rw [← Nat.not_le, ← Nat.not_le, ← getElem?_eq_none_iff, ← getElem?_eq_none_iff, same index]
  have statuses : after.statuses round = workers.statuses round := by
    simp only [Workers.statuses, lengths, getD_eq_getElem?_getD, same]
  simp only [decided, wanted, statuses, and_self]

variable {worker : Worker}

/-- After an action that hands in no status, the worker has passed at most the round whose
statuses have all arrived. -/
theorem paced_of_moves {next : Worker} {decided wanted : Nat → Bool}
    {statuses : Nat → Option (List (Bool × Bool))} (standing : worker.Standing commands decided wanted)
    (standingNext : next.Standing commands decided wanted)
    (moves : Worker.Moves commands statuses worker next) (silent : next.reports = worker.reports) :
    (schedule commands decided next.clock).2 = (schedule commands decided worker.clock).2 ∨
      ∃ known, statuses (worker.reports.length - 1) = some known ∧
        (schedule commands decided next.clock).2 ≤ worker.reports.length ∧
        0 < worker.reports.length := by
  have rounds := standing.rounds
  have roundsNext := standingNext.rounds
  cases moves with
  | stays clock => exact .inl (by rw [clock])
  | commands idle stage _ reports =>
    rw [idle] at rounds
    rw [stage, reports, ← rounds] at roundsNext
    exact .inl roundsNext
  | ends _ active stage _ reports =>
    rw [active.1] at rounds
    rw [isCollecting_of_not_inStep stage, reports, ← rounds] at roundsNext
    exact .inl roundsNext
  | reports _ _ _ _ _ reports =>
    rw [silent] at reports
    simp at reports
  | concludes known arrived collecting _ _ reports =>
    rw [if_pos collecting] at rounds
    rw [reports] at roundsNext
    exact .inr ⟨known, arrived, by omega, by omega⟩

variable (aligned : workers.Aligned commands)

include aligned

variable {moved : Fin count}

/-- An action that hands in no status keeps the workers aligned. -/
theorem Aligned.set_silent
    (moves : Worker.Moves commands workers.statuses (workers.worker moved) worker)
    (silent : worker.reports = (workers.worker moved).reports) :
    (workers.set moved worker).Aligned commands := by
  have standing := aligned.standing moved
  have sameReports : ∀ index, ((workers.set moved worker).worker index).reports =
      (workers.worker index).reports := observe_update reports silent
  have sameDecided : (workers.set moved worker).decided = workers.decided :=
    funext fun round => (statuses_congr fun index => by rw [sameReports index]).1
  have sameWanted : (workers.set moved worker).wanted = workers.wanted :=
    funext fun round => (statuses_congr fun index => by rw [sameReports index]).2
  have standingNext := standing.moves moves (fun round known arrived => by
    simp [decided, wanted, arrived]) silent
  refine ⟨?_, fun first second => ?_⟩
  · rw [sameDecided, sameWanted]
    exact (forall_update_iff _ fun _ (worker : Worker) => worker.Standing commands _ _).mpr
      ⟨standingNext, fun index _ => aligned.standing index⟩
  · rw [sameDecided, sameReports second]
    revert first
    refine (forall_update_iff _ fun _ (worker : Worker) => (schedule commands _ worker.clock).2 ≤ _).mpr
      ⟨?_, fun first _ => aligned.paced first second⟩
    rcases paced_of_moves standing standingNext moves silent with equal | ⟨known, arrived, small, some⟩
    · rw [equal]
      exact aligned.paced moved second
    · obtain ⟨status, found, -⟩ := statuses_eq_some arrived second
      have inside := (List.getElem?_eq_some_iff.mp found).1
      omega

/-- Handing in a status keeps the workers aligned: the round it may decide is not behind
anyone. -/
theorem Aligned.set_report {status : Bool × Bool}
    (clock : worker.clock = (workers.worker moved).clock)
    (reports : worker.reports = (workers.worker moved).reports ++ [status])
    (standing : ∀ decided wanted, (workers.worker moved).Standing commands decided wanted →
      worker.Standing commands decided wanted) : (workers.set moved worker).Aligned commands := by
  have agree : ∀ round < (workers.worker moved).reports.length,
      workers.decided round = (workers.set moved worker).decided round ∧
        workers.wanted round = (workers.set moved worker).wanted round := by
    intro round less
    have earlier : ∀ index, ((workers.set moved worker).worker index).reports[round]? =
        (workers.worker index).reports[round]? :=
      observe_update (fun worker : Worker => worker.reports[round]?)
        (by rw [reports, List.getElem?_append_left less])
    exact ⟨(statuses_congr earlier).1.symm, (statuses_congr earlier).2.symm⟩
  have kept : ∀ index, (workers.worker index).Standing commands
      (workers.set moved worker).decided (workers.set moved worker).wanted := by
    intro index
    have position := aligned.paced index moved
    have rounds := (aligned.standing index).rounds
    refine (aligned.standing index).congr agree position ?_
    split at rounds <;> omega
  refine ⟨?_, fun first second => ?_⟩
  · exact (forall_update_iff _ fun _ (worker : Worker) => worker.Standing commands _ _).mpr
      ⟨standing _ _ (kept moved), fun index _ => kept index⟩
  · have position := aligned.paced first moved
    have samePosition : schedule commands (workers.set moved worker).decided (workers.worker first).clock =
        schedule commands workers.decided (workers.worker first).clock :=
      schedule_congr _ fun round less => (agree round (by omega)).1
    have sameClock : ((workers.set moved worker).worker first).clock = (workers.worker first).clock :=
      observe_update Worker.clock clock first
    have more : (workers.worker second).reports.length ≤
        ((workers.set moved worker).worker second).reports.length := by
      revert second
      refine (forall_update_iff _ fun second (worker : Worker) =>
        (workers.worker second).reports.length ≤ worker.reports.length).mpr ⟨?_, fun _ _ => le_rfl⟩
      rw [reports, length_append]
      exact Nat.le_add_right _ _
    rw [sameClock, samePosition]
    exact Nat.le_trans (aligned.paced first second) more

/-- Every action keeps the workers aligned. -/
theorem Aligned.next {event : Fin count × Action}
    (stepped : workers.next plan commands event = some after) : after.Aligned commands := by
  obtain ⟨worker, acts, rfl⟩ := Option.map_eq_some_iff.mp stepped
  have moves := moves_act acts
  by_cases silent : worker.reports = (workers.worker event.1).reports
  · exact aligned.set_silent moves silent
  · cases moves with
    | stays _ reports | commands _ _ _ reports | ends _ _ _ _ reports | concludes _ _ _ _ _ reports =>
      exact absurd reports silent
    | reports _ step active stage clock reports marks kind =>
      exact aligned.set_report clock reports fun decided wanted standing =>
        standing.report step active stage clock reports marks kind

/-- A transaction is committed by a command exactly if all workers report that they have
flushed everything, and a flush is complete if, besides, all of them were asked for it. -/
theorem Aligned.agree (index : Fin count) {command : Nat}
    (executed : command < (workers.worker index).clock) :
    (.commitComplete command ∈ (workers.worker index).inner.history ↔
      ∀ other, ∃ flush, .report command true flush ∈ (workers.worker other).inner.history) ∧
    (.flushComplete command ∈ (workers.worker index).inner.history ↔
      ∀ other, .report command true true ∈ (workers.worker other).inner.history) := by
  have marked : ∀ other (effect : Effect), effect.isMark = true →
      (effect ∈ (workers.worker other).inner.history ↔ effect ∈ (workers.worker other).inner.marks) := by
    intro other effect mark
    simp [Inner.marks, mem_filter, mark]
  have standing := aligned.standing
  rw [marked index _ rfl, marked index _ rfl, (standing index).committed, (standing index).flushed]
  simp only [marked _ (.report _ _ _) rfl, (standing _).reported, decided_iff, wanted_iff]
  constructor
  · constructor
    · rintro ⟨-, round, takes, all⟩ other
      obtain ⟨flush, found⟩ := all other
      exact ⟨flush, round, takes, found⟩
    · intro all
      obtain ⟨-, round, takes, -⟩ := all index
      refine ⟨executed, round, takes, fun other => ?_⟩
      obtain ⟨flush, here, takesToo, found⟩ := all other
      exact ⟨flush, takesToo.round_eq takes ▸ found⟩
  · constructor
    · rintro ⟨-, round, takes, all, asked⟩ other
      obtain ⟨flush, found⟩ := all other
      obtain ⟨complete, foundToo⟩ := asked other
      rw [found] at foundToo
      obtain ⟨rfl, rfl⟩ := Prod.mk.inj (Option.some.inj foundToo)
      exact ⟨round, takes, found⟩
    · intro all
      obtain ⟨round, takes, -⟩ := all index
      have found : ∀ other, (workers.worker other).reports[round]? = some (true, true) := by
        intro other
        obtain ⟨here, takesToo, found⟩ := all other
        exact takesToo.round_eq takes ▸ found
      exact ⟨executed, round, takes, fun other => ⟨true, found other⟩, fun other => ⟨true, found other⟩⟩

end Workers

/-! ## Transactions are correct -/

namespace Workers

variable {count : Nat}

/-- No notification that an event processes comes from an operator that has become ready
again while the task which consumed its last input waits to be joined. -/
def Harmless (workers : Workers count) (event : Fin count × Action) : Prop :=
  (workers.worker event.1).Harmless event.2

/-- Harmless events keep the workers healthy and aligned. -/
theorem healthy_next {plan : Plan} (workers : Workers count)
    (event : Fin count × Action) (harmless : workers.Harmless event)
    (holds : (∀ index, (workers.worker index).Healthy plan) ∧ workers.Aligned commands) :
    ∃ after, workers.next plan commands event = some after ∧
      (∀ index, (after.worker index).Healthy plan) ∧ after.Aligned commands := by
  have own : ∀ reports, workers.statuses ((workers.worker event.1).reports.length - 1) = some reports →
      ∀ status, (workers.worker event.1).reports.getLast? = some status → status ∈ reports := by
    intro reports arrived status last
    obtain ⟨known, found, member⟩ := statuses_eq_some arrived event.1
    rw [getLast?_eq_getElem?, found] at last
    exact Option.some.inj last ▸ member
  obtain ⟨worker, acts, healthy⟩ := (holds.1 event.1).act commands harmless own
  have stepped : workers.next plan commands event = some (workers.set event.1 worker) := by
    simp only [next, acts, Option.map_some]
  refine ⟨_, stepped, ?_, holds.2.next stepped⟩
  exact (forall_update_iff _ fun _ (worker : Worker) => worker.Healthy plan).mpr
    ⟨healthy, fun index _ => holds.1 index⟩

/-- The dynamic scheduler evaluates and flushes every active operator in dependency order,
a step waits only for asynchronous operators that are not ready or about to call back, and
a transaction is committed on all workers by the same command, namely the first by which
all have completed their flushes. -/
theorem scheduler_disciplined {circuit : Circuit} {activeNodes : Option (List NodeId)} {plan : Plan}
    (prepared : circuit.prepare activeNodes = .ok plan) (commands : Nat → Command)
    (ready : Fin count → NodeId → Bool) (events : List (Fin count × Action))
    (harmless : Run.Meets (next plan commands) (new plan ready) Harmless events) :
    ((∀ node, node ∈ plan.nodes ↔ node ∈ activeNodes.getD circuit.nodeIds) ∧
      plan.isAsync = circuit.isAsyncNode ∧
      ∃ constraints, circuit.ownershipConstraints = .ok constraints ∧
        ∀ earlier later, earlier ∈ plan.predecessors later ↔
          (earlier, later) ∈ circuit.graphEdges ++ constraints ∧
            earlier ∈ plan.nodes ∧ later ∈ plan.nodes) ∧
    ∃ workers, Run.run (next plan commands) (new plan ready) events = some workers ∧
      (∀ index, plan.Disciplined (workers.worker index).inner.history) ∧
      (∀ index, (workers.worker index).Waits →
        (∃ node, (workers.worker index).Due plan node) ∧
        ∀ node, (workers.worker index).Due plan node → plan.isAsync node = true ∧
          ((workers.worker index).operators.ready node = false ∨
            (workers.worker index).operators.callbackDue node = true)) ∧
      ∀ index command, command < (workers.worker index).clock →
        (.commitComplete command ∈ (workers.worker index).inner.history ↔
          ∀ other, ∃ flush, .report command true flush ∈ (workers.worker other).inner.history) ∧
        (.flushComplete command ∈ (workers.worker index).inner.history ↔
          ∀ other, .report command true true ∈ (workers.worker other).inner.history) := by
  refine ⟨Circuit.prepare_spec prepared, ?_⟩
  obtain ⟨workers, reached, healthy, aligned⟩ := invariant_of_meets
    (fun workers : Workers count => (∀ index, (workers.worker index).Healthy plan) ∧ workers.Aligned commands)
    ⟨fun index => healthy_new plan (ready index), aligned_new plan commands ready⟩
    healthy_next harmless
  exact ⟨workers, reached, fun index => (healthy index).disciplined,
    fun index waits => (healthy index).waits waits, fun index command executed =>
      aligned.agree index executed⟩

/-- A circuit of one asynchronous operator. -/
def loneNode : Circuit :=
  { globalNodeId := [], nodeIds := [0], edges := [], isAsyncNode := fun _ => true }

/-- What the scheduler of that circuit works with. -/
def lonePlan : Plan where
  nodes := [0]
  dependencies := []
  isAsync := fun _ => true
  nodup := nodup_singleton 0
  closed := fun _ member => absurd member not_mem_nil
  acyclic := Dependencies.acyclic_of_peel 1 [0] rfl

/-- One transaction and its steps. -/
def oneTransaction : Nat → Command
  | 0 => .startTransaction
  | _ => .step

/-- The operator becomes ready, calls back, and is evaluated. -/
def firstStep : List (Fin 1 × Action) :=
  [(0, .becomeReady 0), (0, .notify 0), (0, .command), (0, .command), (0, .processNotifications),
    (0, .consume 0)]

/-- The first step of the circuit keeps the discipline and evaluates the operator while it
is ready. -/
theorem scheduler_disciplined_loneNode : loneNode.prepare none = .ok lonePlan ∧
    Run.Meets (next lonePlan oneTransaction) (new lonePlan fun _ _ => false) Harmless firstStep ∧
    ∃ workers : Workers 1,
      Run.run (next lonePlan oneTransaction) (new lonePlan fun _ _ => false) firstStep = some workers ∧
      lonePlan.Disciplined (workers.worker 0).inner.history ∧
      .eval 0 true ∈ (workers.worker 0).inner.history := by
  have harmless : Run.Meets (next lonePlan oneTransaction) (new lonePlan fun _ _ => false) Harmless
      firstStep := by
    refine meets_cons trivial fun _ first => ?_
    cases first
    refine meets_cons trivial fun _ second => ?_
    cases second
    refine meets_cons trivial fun _ third => ?_
    cases third
    refine meets_cons trivial fun _ fourth => ?_
    cases fourth
    refine meets_cons ?_ fun _ fifth => ?_
    · intro node _ status handle
      cases handle
    · cases fifth
      exact meets_cons trivial fun _ _ => meets_nil
  have prepared : loneNode.prepare none = .ok lonePlan := rfl
  obtain ⟨-, workers, reached, disciplined, -⟩ :=
    scheduler_disciplined prepared oneTransaction (fun _ _ => false) firstStep harmless
  refine ⟨prepared, harmless, workers, reached, disciplined 0, ?_⟩
  cases reached
  decide

/-- The operator becomes ready again and its notification is processed before its task is
joined: the next step waits for it, although it is ready and has called back. -/
theorem step_waits_for_ready_node : loneNode.prepare none = .ok lonePlan ∧
    ∃ workers : Workers 1,
      Run.run (next lonePlan oneTransaction) (new lonePlan fun _ _ => false)
          (firstStep ++ [(0, .becomeReady 0), (0, .notify 0), (0, .processNotifications),
            (0, .finish 0), (0, .join 0 (.ok false)), (0, .command)]) = some workers ∧
        (workers.worker 0).Waits ∧ (workers.worker 0).Due lonePlan 0 ∧
        (workers.worker 0).operators.ready 0 = true ∧
        (workers.worker 0).operators.callbackDue 0 = false := by
  refine ⟨rfl, _, rfl, ⟨⟨0, rfl⟩, rfl, rfl⟩, ⟨?_, ?_, ?_⟩, rfl, rfl⟩
  · decide
  · decide
  · intro earlier before
    cases before

end Workers

end OpenDera
