import OpenDera.Communication.ExchangeRun

/-!
# Workers that run the same program

All workers run the same phases. The number of rounds of an exchange that a worker has
completed follows from its phase and from what it has done in this phase; nobody completes
a round that somebody else has not begun. Hence no worker is more than one phase ahead of
another, and while one is ahead, the other has nothing left to do in its phase but the
ending. The only messages for which a server may have to wait are those that start a new
round of the exchange that ended the phase of a worker behind.
-/

namespace OpenDera.Communication

open Network Function Outcome Setup

variable {npeers : Nat} {H T : Type}

/-- Whether an exchange has a round in a phase. -/
def Setup.runs (setup : Setup npeers H T) (id : ExchangeId) (phase : Nat) : Bool :=
  (setup.phase phase).any fun phase => id ∈ phase.exchanges || id = phase.ending

/-- The number of rounds of an exchange before a phase. -/
def Setup.turns (setup : Setup npeers H T) (id : ExchangeId) : Nat → Nat
  | 0 => 0
  | phase + 1 => setup.turns id phase + (setup.runs id phase).toNat

variable (setup : Setup npeers H T)

theorem Setup.turns_mono (id : ExchangeId) {first second : Nat}
    (before : first ≤ second) : setup.turns id first ≤ setup.turns id second := by
  induction before with
  | refl => exact le_rfl
  | step _ ih => exact ih.trans (Nat.le_add_right _ _)

/-- An exchange of a phase has one more round after it. -/
theorem Setup.turns_succ {id : ExchangeId} {index : Nat} {phase : Phase}
    (here : setup.phase index = some phase) (runs : id ∈ phase.exchanges ∨ id = phase.ending) :
    setup.turns id (index + 1) = setup.turns id index + 1 := by
  have : setup.runs id index = true := by
    rcases runs with member | rfl
    · simp [runs, here, member]
    · simp [runs, here]
  rw [turns, this]
  rfl

/-- What holds of some phase with this number holds of the phase with this number. -/
theorem Setup.phase_spec {setup : Setup npeers H T} {index : Nat} {phase : Phase} {P : Phase → Prop}
    (here : setup.phase index = some phase) (found : ∃ phase, setup.phase index = some phase ∧ P phase) :
    P phase := by
  obtain ⟨other, there, holds⟩ := found
  exact Option.some.inj (here.symm.trans there) ▸ holds

/-- The rounds of every worker are those that the program prescribes. -/
structure Scheduled (setup : Setup npeers H T) (network : Network npeers H T) : Prop where
  phases : ∀ worker index, index < network.phase worker → ∃ phase, setup.phase index = some phase
  completed : ∀ worker id, (network.returned id worker).length =
    setup.turns id (network.phase worker) + if id ∈ network.done worker then 1 else 0
  done : ∀ worker id, id ∈ network.done worker →
    ∃ phase, setup.phase (network.phase worker) = some phase ∧ id ∈ phase.exchanges
  active : ∀ worker id, network.call id worker ≠ .idle →
    ∃ phase, setup.phase (network.phase worker) = some phase ∧
      (id ∈ phase.exchanges ∧ id ∉ network.done worker ∨
        id = phase.ending ∧ ∀ other ∈ phase.exchanges, other ∈ network.done worker)

section

variable {State Result : Type} {result : Option Result} {next : Result → State} {state : State}

theorem Outcome.eq_none_of_ofWait (blocked : ofWait result next = .blocked) : result = none := by
  cases result
  · rfl
  · cases blocked

theorem Outcome.ofWait_eq_moved :
    ofWait result next = .moved state ↔ ∃ value, result = some value ∧ next value = state := by
  cases result <;> simp [ofWait]

theorem Outcome.ofAssert_eq_moved : ofAssert result next = .moved state ↔
      ∃ value, result = some value ∧ next value = state := by
  cases result <;> simp [ofAssert]

end

namespace Scheduled

variable {setup} {network next : Network npeers H T} {worker : Fin npeers}
  {id : ExchangeId} (scheduled : Scheduled setup network)

include scheduled

/-- The ending of a phase is not among the exchanges that are done in it. -/
theorem ending_notMem_done {phase : Phase}
    (here : setup.phase (network.phase worker) = some phase) :
    phase.ending ∉ network.done worker := by
  intro member
  exact phase.ending_notMem (phase_spec here (scheduled.done worker _ member))

theorem runs_of_active (active : network.call id worker ≠ .idle) :
    setup.runs id (network.phase worker) = true := by
  obtain ⟨phase, here, ⟨member, -⟩ | ⟨rfl, -⟩⟩ := scheduled.active worker id active
  · simp [runs, here, member]
  · simp [runs, here]

theorem completed_of_active (active : network.call id worker ≠ .idle) :
    (network.returned id worker).length = setup.turns id (network.phase worker) := by
  obtain ⟨phase, here, ⟨-, notDone⟩ | ⟨rfl, -⟩⟩ := scheduled.active worker id active
  · rw [scheduled.completed, if_neg notDone, Nat.add_zero]
  · rw [scheduled.completed, if_neg (scheduled.ending_notMem_done here), Nat.add_zero]

theorem turns_le_completed (worker : Fin npeers) (id : ExchangeId) :
    setup.turns id (network.phase worker) ≤ (network.returned id worker).length := by
  rw [scheduled.completed]
  exact Nat.le_add_right _ _

/-! ## Preservation -/

/-- Outside of `finish` an event can only start rounds that the program lets it start. -/
theorem of_calls (phase : next.phase = network.phase) (done : next.done = network.done)
    (returned : next.returned = network.returned)
    (started : ∀ worker id, next.call id worker ≠ .idle → network.call id worker = .idle →
      network.mayCall setup worker id = true) : Scheduled setup next where
  phases := by
    rw [phase]
    exact scheduled.phases
  completed := by
    rw [phase, done, returned]
    exact scheduled.completed
  done := by
    rw [phase, done]
    exact scheduled.done
  active worker id active := by
    rw [phase, done]
    by_cases idle : network.call id worker = .idle
    · have may := started worker id active idle
      simp only [mayCall] at may
      split at may
      case h_1 => simp at may
      case h_2 phase here =>
        refine ⟨phase, here, ?_⟩
        split at may
        case isTrue ending => exact .inr ⟨ending, by simpa using may⟩
        case isFalse =>
          simp only [Bool.and_eq_true, decide_eq_true_eq] at may
          exact .inl may.1
    · exact scheduled.active worker id idle

omit scheduled

section

variable {phase : Phase} {data : List T} (here : setup.phase (network.phase worker) = some phase)

include here

/-- The end of a round within a phase. -/
theorem finish_exchange (scheduled : Scheduled setup network) (member : id ∈ phase.exchanges)
    (notDone : id ∉ network.done worker) :
    Scheduled setup (network.finish setup worker id data) := by
  have notEnding : id ≠ phase.ending := fun same => phase.ending_notMem (same ▸ member)
  simp only [finish, here, notEnding, if_false, setCall]
  constructor
  case phases => exact scheduled.phases
  case completed =>
    intro someone other
    have before := scheduled.completed someone other
    by_cases own : someone = worker
    · subst own
      by_cases same : other = id
      · subst same
        simpa [notDone] using before
      · simpa [same] using before
    · simpa [own] using before
  case done =>
    intro someone other done
    by_cases own : someone = worker
    · subst own
      rcases List.mem_cons.mp (by simpa using done) with rfl | earlier
      · exact ⟨phase, here, member⟩
      · exact scheduled.done someone other earlier
    · exact scheduled.done someone other (by simpa [own] using done)
  case active =>
    intro someone other busy
    by_cases own : someone = worker
    · subst own
      by_cases same : other = id
      · subst same
        simp at busy
      · rcases phase_spec here (scheduled.active someone other (by simpa [same] using busy)) with
          ⟨inPhase, open_⟩ | ⟨-, all⟩
        · exact ⟨phase, here, .inl ⟨inPhase, by simp [same, open_]⟩⟩
        · exact absurd (all id member) notDone
    · simpa [own] using scheduled.active someone other (by simpa [own] using busy)

/-- The end of a phase. -/
theorem finish_ending (scheduled : Scheduled setup network)
    (all : ∀ other ∈ phase.exchanges, other ∈ network.done worker) :
    Scheduled setup (network.finish setup worker phase.ending data) := by
  have endingOpen := scheduled.ending_notMem_done here
  simp only [finish, here, if_true, setCall]
  constructor
  case phases =>
    intro someone index before
    by_cases own : someone = worker
    · subst own
      rcases Nat.lt_succ_iff_lt_or_eq.mp (by simpa using before) with earlier | rfl
      · exact scheduled.phases someone index earlier
      · exact ⟨phase, here⟩
    · exact scheduled.phases someone index (by simpa [own] using before)
  case completed =>
    intro someone other
    have before := scheduled.completed someone other
    by_cases own : someone = worker
    · subst own
      by_cases same : other = phase.ending
      · subst same
        rw [if_neg endingOpen] at before
        simp [before, setup.turns_succ here (.inr rfl)]
      · by_cases member : other ∈ phase.exchanges
        · simp [same, before, all other member, setup.turns_succ here (.inl member)]
        · have notDone : other ∉ network.done someone := fun done =>
            member (phase_spec here (scheduled.done someone other done))
          simp [same, before, notDone, turns, runs, here, member]
    · simpa [own] using before
  case done =>
    intro someone other done
    by_cases own : someone = worker
    · subst own
      simp at done
    · simpa [own] using scheduled.done someone other (by simpa [own] using done)
  case active =>
    intro someone other busy
    by_cases own : someone = worker
    · subst own
      by_cases same : other = phase.ending
      · subst same
        simp at busy
      · rcases phase_spec here (scheduled.active someone other (by simpa [same] using busy)) with
          ⟨inPhase, open_⟩ | ⟨ending, -⟩
        · exact absurd (all other inPhase) open_
        · exact absurd ending same
    · simpa [own] using scheduled.active someone other (by simpa [own] using busy)

end

end Scheduled

variable [DecidableEq H]

/-! ## What events do -/

/-- The steps left for a worker in its round. -/
def Setup.stage (setup : Setup npeers H T) (worker : Fin npeers) : Call npeers H T → Nat
  | .idle => (setup.targets worker).length + 2 * npeers + 3
  | .waiting => (setup.targets worker).length + 2 * npeers + 2
  | .sending targets => targets.length + 2 * npeers + 1
  | .taking _ senders => 2 * senders.length
  | .releasing _ _ senders => 2 * senders.length + 1

/-- The steps left for a server with the message it has received. -/
def Serving.left : Serving npeers → Nat
  | .idle => 0
  | .received message => message.data.length + 2
  | .delivering _ _ remaining => remaining.length + 1

variable (network : Network npeers H T)

/-- What an event can do. -/
inductive Network.Moves : Network npeers H T → Prop
  | call {worker id exchange queue} (call) (active : call ≠ .idle)
      (may : network.call id worker = .idle → network.mayCall setup worker id = true)
      (less : setup.stage worker call < setup.stage worker (network.call id worker)) :
      Moves { network with call := (network.setCall id worker call).call, exchange, queue }
  | finish {worker id data} (taking : network.call id worker = .taking data []) :
      Moves (network.finish setup worker id data)
  | accept {source target message queue} (idle : network.serving source target = .idle)
      (waiting : network.queue source target = message :: queue) :
      Moves ((network.setQueue source target queue).setServing source target (.received message))
  | serve {source target exchange} (serving)
      (less : serving.left < (network.serving source target).left) :
      Moves { network with serving := (network.setServing source target serving).serving, exchange }

variable {setup network} {next : Network npeers H T} {event : Event npeers H}

theorem Network.moves_of_moved (moved : network.attempt setup event = .moved next) :
    Moves setup network next := by
  -- What is left are the events that are not blocked, in their order.
  cases event <;> simp only [attempt] at moved <;> split at moved <;> try cases moved
  case h_1 idle =>
    split at moved
    case isFalse => cases moved
    case isTrue may =>
      obtain rfl := Outcome.moved.inj moved
      exact .call _ (by simp) (fun _ => may) (by simp [idle, stage])
  case h_1 waiting =>
    obtain ⟨exchange, -, rfl⟩ := ofWait_eq_moved.mp moved
    exact .call _ (by simp) (by simp [waiting]) (by simp [waiting, stage])
  case h_1 target _ sending =>
    cases target with
    | worker | host =>
      obtain ⟨sent, -, rfl⟩ := ofAssert_eq_moved.mp moved
      exact .call _ (by simp) (by simp [sending]) (by simp [sending, stage])
  case h_1 sent =>
    obtain ⟨exchange, -, rfl⟩ := ofWait_eq_moved.mp moved
    exact .call _ (by simp) (by simp [sent]) (by simp [sent, stage])
  case h_1 taking =>
    obtain ⟨taken, -, rfl⟩ := ofAssert_eq_moved.mp moved
    exact .call _ (by simp) (by simp [taking]) (by simp [taking, stage, Nat.mul_add])
  case refl releasing => exact .call _ (by simp) (by simp [releasing]) (by simp [releasing, stage])
  case refl taking => exact .finish taking
  case refl idle waiting => exact .accept idle waiting
  case h_1 received =>
    obtain ⟨exchange, -, rfl⟩ := ofWait_eq_moved.mp moved
    exact .serve _ (by simp [received, Serving.left])
  case h_1 delivering =>
    obtain ⟨exchange, -, rfl⟩ := ofAssert_eq_moved.mp moved
    exact .serve _ (by simp [delivering, Serving.left])
  case refl delivering => exact .serve _ (by simp [delivering, Serving.left])

/-- Every event keeps to the program. -/
theorem Scheduled.moved (scheduled : Scheduled setup network)
    (moved : network.attempt setup event = .moved next) : Scheduled setup next := by
  cases moves_of_moved moved with
  | @call worker id _ _ call active may =>
    refine scheduled.of_calls rfl rfl rfl fun someone other busy idle => ?_
    by_cases same : other = id ∧ someone = worker
    · obtain ⟨rfl, rfl⟩ := same
      exact may idle
    · exact absurd idle (by simpa [setCall, same] using busy)
  | finish taking =>
    obtain ⟨phase, here, ⟨member, notDone⟩ | ⟨rfl, all⟩⟩ :=
      scheduled.active _ _ (taking.trans_ne (by simp))
    · exact scheduled.finish_exchange here member notDone
    · exact scheduled.finish_ending here all
  | accept | serve =>
    exact scheduled.of_calls rfl rfl rfl fun _ _ busy idle => absurd idle busy

end OpenDera.Communication
