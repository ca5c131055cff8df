import Mathlib.Data.DFinsupp.WellFounded
import Mathlib.Data.Finite.Prod
import Mathlib.Data.Fintype.EquivFin
import Mathlib.Data.Fintype.Lattice
import Mathlib.Data.Prod.Lex
import OpenDera.Communication.ExchangeProgram

/-!
# Exchanges deliver complete rounds and never block forever

A state in which no event is possible is one in which all workers have run their programs
to the end. Otherwise consider a worker whose phase is least. It cannot be waiting to send,
because whoever still has to empty a mailbox of an earlier round would be behind it. If it
is waiting to receive, the round it waits for is complete up to messages on the way, and a
message on the way is held up only by one that belongs to the next round of the ending of
the phase; but the rounds of one exchange leave a host in order.
-/

namespace OpenDera.Communication

open List Network Call Outcome Setup Prod.Lex

variable {npeers : Nat} {H T : Type} [DecidableEq H] {setup : Setup npeers H T}
  {network : Network npeers H T} {ledger : ExchangeId → Ledger npeers H}
  {parcels : H → H → List (Parcel npeers)}

/-! ## Workers keep together -/

omit [DecidableEq H] in
theorem Call.began_le_one (call : Call npeers H T) : call.began ≤ 1 := by
  cases call <;> simp [began]

namespace Sound

/-- Nobody has completed a round that somebody else has not begun. -/
theorem completed_le_waits (sound : Sound setup network ledger parcels) (id : ExchangeId)
    (worker other : Fin npeers) :
    (network.returned id worker).length ≤ (ledger id).waits (setup.hostOf other) other := by
  have completed := (sound.stands id worker).completed_le_claims
  have ring := (sound.tracks id).ring other worker
  by_cases same : setup.hostOf worker = setup.hostOf other
  · rw [same] at ring
    omega
  · have posts := (sound.carries (setup.hostOf other) (setup.hostOf worker)).posts id other rfl
      (Ne.symm same)
    have began := (sound.stands id other).posts_le same
    omega

/-- A worker has emptied the mailboxes of the rounds it has completed. -/
theorem completed_le_releases (sound : Sound setup network ledger parcels) (id : ExchangeId)
    (worker sender : Fin npeers) :
    (network.returned id worker).length ≤ (ledger id).releases sender worker := by
  have stands := sound.stands id worker
  have claims := stands.claims
  have releases := stands.releases sender
  have ring := (sound.tracks id).ring sender worker
  cases call : network.call id worker <;>
    simp only [call, claimed, unreleased, count_nil] at claims releases <;> omega

variable (sound : Sound setup network ledger parcels) (scheduled : Scheduled setup network)

include sound scheduled

/-- A worker has begun no round beyond its phase. -/
theorem waits_le_turns (worker : Fin npeers) (id : ExchangeId) :
    (ledger id).waits (setup.hostOf worker) worker ≤ setup.turns id (network.phase worker + 1) := by
  rw [(sound.stands id worker).waits]
  by_cases active : network.call id worker = .idle
  · rw [active, began, scheduled.completed]
    split
    case isTrue done =>
      obtain ⟨phase, here, member⟩ := scheduled.done worker id done
      exact (setup.turns_succ here (.inl member)).ge
    case isFalse => exact setup.turns_mono id (Nat.le_succ _)
  · rw [scheduled.completed_of_active active, turns, scheduled.runs_of_active active]
    exact Nat.add_le_add_left (began_le_one _) _

theorem begun_of_sent {worker : Fin npeers} {id : ExchangeId}
    (sent : network.call id worker = .sending []) :
    setup.turns id (network.phase worker) < (ledger id).waits (setup.hostOf worker) worker := by
  have waits := (sound.stands id worker).waits
  have := scheduled.turns_le_completed worker id
  rw [sent, began] at waits
  omega

/-- A worker that is behind another one is one phase behind, and only the ending of its phase
is left to do. -/
theorem ahead {worker other : Fin npeers} (behind : network.phase other < network.phase worker) :
    network.phase worker = network.phase other + 1 ∧
      ∃ phase, setup.phase (network.phase other) = some phase ∧
        ∀ id ∈ phase.exchanges, id ∈ network.done other := by
  obtain ⟨index, next⟩ : ∃ index, network.phase worker = index + 1 :=
    ⟨network.phase worker - 1, by omega⟩
  obtain ⟨phase, here⟩ := scheduled.phases worker index (by omega)
  have turns := setup.turns_succ here (.inr rfl : phase.ending ∈ phase.exchanges ∨ _)
  have begun : setup.turns phase.ending index + 1 ≤
      (ledger phase.ending).waits (setup.hostOf other) other := by
    rw [← turns, ← next]
    exact (scheduled.turns_le_completed worker phase.ending).trans
      (sound.completed_le_waits phase.ending worker other)
  have same : index = network.phase other := by
    by_contra different
    have := setup.turns_mono phase.ending (show network.phase other + 1 ≤ index by omega)
    have := sound.waits_le_turns scheduled other phase.ending
    omega
  subst same
  refine ⟨next, phase, here, ?_⟩
  -- the other worker has begun the ending, which it may only when everything else is done
  have active : network.call phase.ending other ≠ .idle := by
    intro idle
    have waits := (sound.stands phase.ending other).waits
    have completed := scheduled.completed other phase.ending
    rw [if_neg (scheduled.ending_notMem_done here)] at completed
    rw [idle, began] at waits
    omega
  rcases Setup.phase_spec here (scheduled.active other phase.ending active) with ⟨member, -⟩ | ⟨-, all⟩
  · exact absurd member phase.ending_notMem
  · exact all

/-- A server has to wait only for a worker whose phase ends with the exchange of the message,
and only if the sender of the message is already in the next phase. -/
theorem held_up {source target : H} {parcel : Parcel npeers} {rest : List (Parcel npeers)}
    (first : parcels source target = parcel :: rest)
    (round : parcel.round = (ledger parcel.id).waits target parcel.sender)
    (blocked : (network.exchange parcel.id).readyToSend setup target parcel.sender = none) :
    ∃ receiver phase, setup.phase (network.phase receiver) = some phase ∧
      parcel.id = phase.ending ∧ network.phase parcel.sender = network.phase receiver + 1 ∧
      parcel.round = setup.turns phase.ending (network.phase receiver) + 1 := by
  have carries := sound.carries source target
  rw [first] at carries
  obtain ⟨here, apart, someone, there⟩ := carries.hosts parcel mem_cons_self
  subst here there
  obtain ⟨receiver, place, unreleased⟩ := (sound.tracks parcel.id).exists_unreleased blocked
  have posted := (carries.mem_rounds mem_cons_self).2
  have sent := (sound.stands parcel.id parcel.sender).posts_le (Ne.symm apart)
  have sender := (sound.stands parcel.id parcel.sender).waits
  have receiverWaits := (sound.stands parcel.id receiver).waits
  have senderBegan := (network.call parcel.id parcel.sender).began_le_one
  have receiverBegan := (network.call parcel.id receiver).began_le_one
  have released := sound.completed_le_releases parcel.id receiver parcel.sender
  have together := sound.completed_le_waits parcel.id parcel.sender receiver
  -- both are in a round of the exchange, the sender in the one after the receiver's
  have senderActive : network.call parcel.id parcel.sender ≠ .idle := by
    intro idle
    rw [idle, began] at sender
    omega
  have receiverActive : network.call parcel.id receiver ≠ .idle := by
    intro idle
    rw [idle, began] at receiverWaits
    omega
  have senderTurns := scheduled.completed_of_active senderActive
  have receiverTurns := scheduled.completed_of_active receiverActive
  have behind : network.phase receiver < network.phase parcel.sender := by
    by_contra notBehind
    have := setup.turns_mono parcel.id (Nat.le_of_not_lt notBehind)
    omega
  obtain ⟨next, phase, current, all⟩ := sound.ahead scheduled behind
  rcases Setup.phase_spec current (scheduled.active receiver parcel.id receiverActive) with
    ⟨member, notDone⟩ | ⟨ending, -⟩
  · exact absurd (all _ member) notDone
  · refine ⟨receiver, phase, current, ending, next, ?_⟩
    rw [← ending]
    omega

end Sound

/-! ## States without possible events -/

/-- No event is possible. -/
def Network.Stuck (setup : Setup npeers H T) (network : Network npeers H T) : Prop :=
  ∀ event, ¬ network.Enabled setup event

namespace Network.Stuck

variable (stuck : network.Stuck setup)

include stuck

theorem blocked (event : Event npeers H) : network.attempt setup event = .blocked :=
  not_not.mp (stuck event)

/-- A call can only be waiting. -/
theorem call (worker : Fin npeers) (id : ExchangeId) :
    (network.call id worker = .idle ∧ network.mayCall setup worker id = false) ∨
    (network.call id worker = .waiting ∧
      (network.exchange id).readyToSend setup (setup.hostOf worker) worker = none) ∨
    (network.call id worker = .sending [] ∧ (network.exchange id).mayReceive worker = none) := by
  cases standing : network.call id worker with
  | idle =>
    have blocked := stuck.blocked (.call worker id)
    simp only [attempt, standing] at blocked
    refine .inl ⟨rfl, ?_⟩
    by_contra may
    simp [may] at blocked
  | waiting =>
    have blocked := stuck.blocked (.readyToSend worker id)
    simp only [attempt, standing] at blocked
    exact .inr (.inl ⟨rfl, eq_none_of_ofWait blocked⟩)
  | sending targets =>
    cases targets with
    | nil =>
      have blocked := stuck.blocked (.mayReceive worker id)
      simp only [attempt, standing] at blocked
      exact .inr (.inr ⟨rfl, eq_none_of_ofWait blocked⟩)
    | cons target =>
      have blocked := stuck.blocked (.send worker id)
      simp only [attempt, standing] at blocked
      cases target <;> simp only [send, ofAssert] at blocked <;>
        split at blocked <;> simp at blocked
  | taking _ senders =>
    cases senders with
    | nil =>
      have blocked := stuck.blocked (.finish worker id)
      simp [attempt, standing] at blocked
    | cons =>
      have blocked := stuck.blocked (.take worker id)
      simp only [attempt, standing, take, ofAssert] at blocked
      split at blocked <;> simp at blocked
  | releasing =>
    have blocked := stuck.blocked (.release worker id)
    simp [attempt, standing] at blocked

variable (source target : H)

/-- A server can only be waiting, for a message or for mailboxes. -/
theorem server : (network.serving source target = .idle ∧ network.queue source target = []) ∨
    ∃ message, network.serving source target = .received message ∧
      (network.exchange message.exchangeId).readyToSend setup target message.sender = none := by
  cases serving : network.serving source target with
  | idle =>
    have blocked := stuck.blocked (.accept source target)
    cases queue : network.queue source target with
    | nil => exact .inl ⟨rfl, rfl⟩
    | cons _ queue => simp [attempt, serving, queue] at blocked
  | received message =>
    have blocked := stuck.blocked (.serverReady source target)
    simp only [attempt, serving] at blocked
    exact .inr ⟨message, rfl, eq_none_of_ofWait blocked⟩
  | delivering _ _ remaining =>
    have blocked := stuck.blocked (.serverDeliver source target)
    cases remaining with
    | nil => simp [attempt, serving] at blocked
    | cons =>
      simp only [attempt, serving, ofAssert] at blocked
      split at blocked <;> simp at blocked

/-- Nobody is in the middle of sending. -/
theorem targets (worker : Fin npeers) (id : ExchangeId) : (network.call id worker).targets = [] := by
  rcases stuck.call worker id with ⟨idle, -⟩ | ⟨waiting, -⟩ | ⟨sent, -⟩
  · simp [idle, Call.targets]
  · simp [waiting, Call.targets]
  · simp [sent, Call.targets]

/-- No server is in the middle of a delivery. -/
theorem outstanding (id : ExchangeId) (sender : Fin npeers) :
    (network.serving source target).outstanding id sender = [] := by
  rcases stuck.server source target with ⟨idle, -⟩ | ⟨message, received, -⟩
  · simp [idle, Serving.outstanding]
  · simp [received, Serving.outstanding]

variable (sound : Sound setup network ledger parcels) (scheduled : Scheduled setup network)
  {worker : Fin npeers} {id : ExchangeId} (least : ∀ other, network.phase worker ≤ network.phase other)

include sound scheduled least

/-- A worker in the least phase does not wait to send: nobody is behind it. -/
theorem not_waiting : network.call id worker ≠ .waiting := by
  intro waiting
  rcases stuck.call worker id with ⟨idle, -⟩ | ⟨-, blocked⟩ | ⟨sent, -⟩
  · simp [waiting] at idle
  · obtain ⟨receiver, -, unreleased⟩ := (sound.tracks id).exists_unreleased blocked
    have waits := (sound.stands id worker).waits
    have completed := scheduled.completed_of_active (by simp [waiting] : network.call id worker ≠ .idle)
    have turns := setup.turns_mono id (least receiver)
    have := scheduled.turns_le_completed receiver id
    have := sound.completed_le_releases id receiver worker
    rw [waiting, began] at waits
    omega
  · simp [waiting] at sent

/-- A worker in the least phase that waits to receive waits for a worker that has not begun
the round: no message of the round is held up. -/
theorem exists_not_begun (sent : network.call id worker = .sending []) :
    ∃ sender, (ledger id).waits (setup.hostOf sender) sender ≤ (network.returned id worker).length := by
  have active : network.call id worker ≠ .idle := by simp [sent]
  have claims := (sound.stands id worker).claims
  simp only [sent, claimed, Nat.add_zero] at claims
  rcases stuck.call worker id with ⟨idle, -⟩ | ⟨waiting, -⟩ | ⟨-, blocked⟩
  · exact absurd idle active
  · simp [sent] at waiting
  · obtain ⟨sender, undelivered⟩ := (sound.tracks id).exists_undelivered blocked
    refine ⟨sender, ?_⟩
    by_contra begun
    have stands := sound.stands id sender
    have waits := stands.waits
    by_cases same : setup.hostOf worker = setup.hostOf sender
    · have delivered := stands.deliveries worker same
      rw [stuck.targets sender id, count_nil] at delivered
      omega
    · have posts := stands.posts worker same
      have carries := sound.carries (setup.hostOf sender) (setup.hostOf worker)
      have delivered := carries.deliveries id sender worker rfl rfl (Ne.symm same)
      rw [stuck.targets sender id, count_nil] at posts
      rw [stuck.outstanding, count_nil] at delivered
      have onTheWay := carries.exists_parcel rfl (Ne.symm same)
        (show (ledger id).waits (setup.hostOf worker) sender <
          (ledger id).posts (setup.hostOf worker) sender by omega)
      rcases stuck.server (setup.hostOf sender) (setup.hostOf worker) with
        ⟨idle, empty⟩ | ⟨message, received, held⟩
      · have flight := carries.inFlight
        rw [idle, empty] at flight
        rw [map_eq_nil_iff.mp flight.symm] at onTheWay
        simp at onTheWay
      · rw [received] at carries
        obtain ⟨parcel, rest, split, rfl, round⟩ := carries.received
        obtain ⟨receiver, phase, current, ending, next, later⟩ :=
          sound.held_up scheduled split round held
        have leastReceiver := least receiver
        obtain ⟨adjacent, found⟩ := sound.ahead scheduled
          (show network.phase worker < network.phase parcel.sender by omega)
        have samePhase : network.phase receiver = network.phase worker := by omega
        rw [samePhase] at current later
        have all := Setup.phase_spec current found
        have ended : id = phase.ending := by
          rcases Setup.phase_spec current (scheduled.active worker id active) with
            ⟨member, notDone⟩ | ⟨ended, -⟩
          · exact absurd (all id member) notDone
          · exact ended
        have completed := scheduled.completed_of_active active
        have ordered := carries.ordered
        rw [split] at ordered onTheWay
        rw [← ended] at later
        rcases mem_cons.mp onTheWay with first | behind
        · have := congrArg Parcel.round first
          dsimp only at this
          omega
        · have := (pairwise_cons.mp ordered).1 _ behind (ending.trans ended.symm)
          dsimp only at this
          omega

/-- A worker in the least phase has begun every round that the program lets it start. -/
theorem sent_of_mayCall
    (may : network.call id worker = .idle → network.mayCall setup worker id = true) :
    network.call id worker = .sending [] := by
  rcases stuck.call worker id with ⟨idle, may_not⟩ | ⟨waiting, -⟩ | ⟨sent, -⟩
  · simp [may idle] at may_not
  · exact absurd waiting (stuck.not_waiting sound scheduled least)
  · exact sent

/-- A round of a worker in the least phase that all workers have begun is not stuck. -/
theorem not_sent (begun : ∀ sender, (network.returned id worker).length <
    (ledger id).waits (setup.hostOf sender) sender) : network.call id worker ≠ .sending [] := by
  intro sent
  obtain ⟨sender, late⟩ := stuck.exists_not_begun sound scheduled least sent
  exact absurd (begun sender) (Nat.not_lt.mpr late)

variable {phase : Phase} (here : setup.phase (network.phase worker) = some phase)

include here

/-- All exchanges of the least phase are done: the first one that is not could go on. -/
theorem all_done : ∀ before after, phase.exchanges = before ++ after →
    ∀ id ∈ before, ∀ other, network.phase other = network.phase worker → id ∈ network.done other := by
  intro before
  induction before using List.reverseRecOn with
  | nil => simp
  | append_singleton before current ih =>
    intro after split
    have earlier := ih (current :: after) (by simpa using split)
    intro id member
    rcases mem_append.mp member with old | new
    · exact earlier id old
    obtain rfl := mem_singleton.mp new
    have inPhase : id ∈ phase.exchanges := by simp [split]
    have notEnding : id ≠ phase.ending := fun same => phase.ending_notMem (same ▸ inPhase)
    have earlierOnes : phase.exchanges.takeWhile (· ≠ id) = before := by
      have nodup := phase.nodup
      have notBefore : ∀ other ∈ before, other ≠ id := by
        intro other old
        simp only [split, append_assoc, singleton_append, nodup_append] at nodup
        exact nodup.2.2 other old id mem_cons_self
      rw [split, append_assoc, takeWhile_append_of_pos (by simpa using notBefore)]
      simp
    -- whoever has not done the exchange has sent and waits to receive
    have sent : ∀ other, network.phase other = network.phase worker → id ∉ network.done other →
        network.call id other = .sending [] := by
      intro other same notDone
      refine stuck.sent_of_mayCall sound scheduled (same ▸ least) fun _ => ?_
      simp only [mayCall, same, here, if_neg notEnding, earlierOnes, Bool.and_eq_true,
        decide_eq_true_eq, all_eq_true]
      exact ⟨⟨inPhase, notDone⟩, fun old member => by simp [earlier old member other same]⟩
    intro other same
    by_contra notDone
    -- so nobody is ahead, and everybody has begun the round
    have together : ∀ someone, network.phase someone = network.phase worker := by
      intro someone
      by_contra different
      have behind : network.phase other < network.phase someone := by
        have := least someone
        omega
      exact notDone (Setup.phase_spec (same ▸ here) (sound.ahead scheduled behind).2 id inPhase)
    refine stuck.not_sent sound scheduled (same ▸ least) (fun sender => ?_) (sent other same notDone)
    rw [scheduled.completed, if_neg notDone, same, Nat.add_zero, ← together sender]
    by_cases done : id ∈ network.done sender
    · have completed := scheduled.completed sender id
      have := sound.completed_le_waits id sender sender
      rw [if_pos done] at completed
      omega
    · exact sound.begun_of_sent scheduled (sent sender (together sender) done)

/-- There is no least phase in which something is left to do. -/
theorem no_phase : False := by
  have done : ∀ id ∈ phase.exchanges, ∀ other, network.phase other = network.phase worker →
      id ∈ network.done other :=
    stuck.all_done sound scheduled least here phase.exchanges [] (append_nil _).symm
  have sent : ∀ other, network.phase other = network.phase worker →
      network.call phase.ending other = .sending [] := by
    intro other same
    refine stuck.sent_of_mayCall sound scheduled (same ▸ least) fun _ => ?_
    simp only [mayCall, same, here, if_true, all_eq_true, decide_eq_true_eq]
    exact fun id member => done id member other same
  refine stuck.not_sent sound scheduled least (fun sender => ?_) (sent worker rfl)
  rw [scheduled.completed_of_active (by simp [sent worker rfl])]
  rcases (least sender).eq_or_lt with same | ahead
  · rw [same]
    exact sound.begun_of_sent scheduled (sent sender same.symm)
  · have turns := setup.turns_mono phase.ending (Nat.succ_le_of_lt ahead)
    rw [Nat.succ_eq_add_one, setup.turns_succ here (.inr rfl)] at turns
    have := scheduled.turns_le_completed sender phase.ending
    have := sound.completed_le_waits phase.ending sender sender
    omega

end Network.Stuck

/-- All workers have run their programs to the end and nothing is on the way. -/
structure Network.Finished (setup : Setup npeers H T) (network : Network npeers H T) : Prop where
  phases : ∀ worker, setup.phase (network.phase worker) = none
  calls : ∀ id worker, network.call id worker = .idle
  servers : ∀ source target,
    network.serving source target = .idle ∧ network.queue source target = []

/-- Where nothing is possible, everything is done. -/
theorem Network.Stuck.finished (stuck : network.Stuck setup)
    (sound : Sound setup network ledger parcels) (scheduled : Scheduled setup network) :
    network.Finished setup := by
  have phases : ∀ worker, setup.phase (network.phase worker) = none := by
    intro worker
    have : Nonempty (Fin npeers) := ⟨worker⟩
    obtain ⟨first, least⟩ := Finite.exists_min network.phase
    have ended : setup.phase (network.phase first) = none := by
      cases here : setup.phase (network.phase first) with
      | none => rfl
      | some => exact (stuck.no_phase sound scheduled least here).elim
    rcases (least worker).eq_or_lt with same | ahead
    · rwa [← same]
    · obtain ⟨-, phase, here, -⟩ := sound.ahead scheduled ahead
      simp [ended] at here
  refine ⟨phases, fun id worker => ?_, fun source target => ?_⟩
  · by_contra active
    obtain ⟨phase, here, -⟩ := scheduled.active worker id active
    simp [phases worker] at here
  · rcases stuck.server source target with quiet | ⟨message, received, held⟩
    · exact quiet
    · have carries := sound.carries source target
      rw [received] at carries
      obtain ⟨parcel, rest, split, rfl, round⟩ := carries.received
      obtain ⟨receiver, phase, here, -⟩ := sound.held_up scheduled split round held
      simp [phases receiver] at here

omit [DecidableEq H] in
/-- At the end of the program everyone has completed the rounds of all phases. -/
theorem Scheduled.completed_of_finished (scheduled : Scheduled setup network)
    (ended : ∀ worker, setup.phase (network.phase worker) = none) (id : ExchangeId)
    (worker : Fin npeers) :
    (network.returned id worker).length = setup.turns id (network.phase worker) := by
  have notDone : id ∉ network.done worker := by
    intro done
    obtain ⟨phase, here, -⟩ := scheduled.done worker id done
    simp [ended worker] at here
  rw [scheduled.completed, if_neg notDone, Nat.add_zero]

/-! ## Runs come to an end -/

section

variable (setup) (limit bound : Nat)

/-- The program has finitely many rounds. -/
def Setup.EndsBy : Prop :=
  ∀ id index, setup.runs id index = true → index < limit ∧ id < bound

variable (network)

/-- The steps left for a worker in an exchange. -/
def Network.stepsLeft (id : ExchangeId) (worker : Fin npeers) : Nat :=
  (setup.turns id limit - (network.returned id worker).length) * (setup.stage worker .idle + 1) +
    setup.stage worker (network.call id worker)

/-- The steps left for the workers and, as long as these take none, for the servers. -/
def Network.left : (Fin bound × Fin npeers → Nat) ×ₗ (H × H → Nat) :=
  toLex (fun (id, worker) => network.stepsLeft setup limit id worker,
    fun (source, target) => (network.serving source target).left +
      ((network.queue source target).map (·.data.length + 3)).sum)

end

/-- Less in one entry and the same in all others is less. -/
theorem lt_of_entry {ι : Type*} {first second : ι → Nat} (entry : ι)
    (here : first entry < second entry)
    (elsewhere : ∀ other, other ≠ entry → first other = second other) : first < second := by
  refine Pi.lt_def.mpr ⟨fun other => ?_, entry, here⟩
  by_cases same : other = entry
  · exact same ▸ here.le
  · exact (elsewhere other same).le

section

variable {next : Network npeers H T} {limit bound : Nat} {worker : Fin npeers} {id : ExchangeId}
  (scheduled : Scheduled setup network) (ends : setup.EndsBy limit bound)

/-- A worker has fewer steps left. -/
theorem Network.left_lt_of_worker (worker : Fin npeers) (small : id < bound)
    (less : next.stepsLeft setup limit id worker < network.stepsLeft setup limit id worker)
    (elsewhere : ∀ other someone, ¬ (other = id ∧ someone = worker) →
      next.stepsLeft setup limit other someone = network.stepsLeft setup limit other someone) :
    next.left setup limit bound < network.left setup limit bound :=
  toLex_lt_toLex.mpr (.inl (lt_of_entry (⟨id, small⟩, worker) less fun (other, someone) apart =>
    elsewhere other someone (by simpa [Fin.ext_iff] using apart)))

include scheduled ends

omit [DecidableEq H] in
/-- A round in progress is one of the program. -/
theorem Scheduled.lt_turns (active : network.call id worker ≠ .idle) :
    id < bound ∧ (network.returned id worker).length < setup.turns id limit := by
  have runs := scheduled.runs_of_active active
  have turns := setup.turns_mono id (Nat.succ_le_of_lt (ends _ _ runs).1)
  rw [Setup.turns, runs, ← scheduled.completed_of_active active] at turns
  exact ⟨(ends _ _ runs).2, turns⟩

/-- Every event that happens leaves less to do. -/
theorem Network.left_lt_of_moved {event : Event npeers H}
    (moved : network.attempt setup event = .moved next) :
    next.left setup limit bound < network.left setup limit bound := by
  have after := scheduled.moved moved
  cases moves_of_moved moved with
  | @call worker id _ _ call active may less =>
    have busy : (network.setCall id worker call).call id worker ≠ .idle := by
      simpa [setCall] using active
    refine left_lt_of_worker worker (after.lt_turns ends busy).1 ?_ fun _ _ apart => ?_
    · simpa [stepsLeft, setCall] using less
    · simp [stepsLeft, setCall, apart]
  | @finish worker _ _ taking =>
    obtain ⟨small, some⟩ := scheduled.lt_turns ends (taking.trans_ne (by simp))
    obtain ⟨rounds, rest⟩ := Nat.exists_eq_add_one.mpr (Nat.sub_pos_of_lt some)
    rw [finish]
    split <;> try split
    all_goals
      refine left_lt_of_worker worker small ?_ fun _ _ apart => ?_
      · simp [stepsLeft, setCall, ← Nat.sub_sub, rest, Nat.succ_mul]
        omega
      · simp [stepsLeft, setCall, apart]
  | @accept source target _ _ idle waiting =>
    refine toLex_lt_toLex.mpr (.inr ⟨rfl, lt_of_entry (source, target) ?_ ?_⟩)
    · simp [idle, waiting, Serving.left, setServing, setQueue]
    · rintro ⟨_, _⟩ apart
      simp [setServing, setQueue, Prod.ext_iff.not.mp apart]
  | @serve source target _ serving less =>
    refine toLex_lt_toLex.mpr (.inr ⟨rfl, lt_of_entry (source, target) ?_ ?_⟩)
    · simpa [setServing] using less
    · rintro ⟨_, _⟩ apart
      simp [setServing, Prod.ext_iff.not.mp apart]

/-- Whatever follows on a state comes to an end. -/
theorem Scheduled.acc [Finite H] :
    Acc (fun next network => ∃ event, network.attempt setup event = .moved next) network := by
  induction network using
    (InvImage.wf (Network.left setup · limit bound) wellFounded_lt).induction with
  | h network ih =>
    exact ⟨_, fun next ⟨_, moved⟩ =>
      ih next (left_lt_of_moved scheduled ends moved) (scheduled.moved moved)⟩

end

/-! ## Every run -/

variable (setup)

/-- A state that runs reach. -/
def Network.Reached (network : Network npeers H T) : Prop :=
  network.Consistent setup ∧ Scheduled setup network

theorem Network.reached_new : (new setup).Reached setup :=
  ⟨Sound.new.consistent,
    { phases := fun _ _ before => absurd before (Nat.not_lt_zero _)
      completed := fun _ _ => rfl
      done := fun _ _ member => by simp [new] at member
      active := fun _ _ active => absurd rfl active }⟩

variable {setup}

/-- No event fails, and every event leads to a state of the same kind. -/
theorem Network.Reached.next (reached : network.Reached setup) (event : Event npeers H) :
    ∃ next, network.next setup event = some next ∧ next.Reached setup := by
  obtain ⟨⟨ledger, parcels, sound⟩, scheduled⟩ := reached
  have keeps := sound.keeps event
  unfold Network.next
  cases outcome : network.attempt setup event with
  | blocked => exact ⟨network, rfl, sound.consistent, scheduled⟩
  | failed =>
    rw [outcome] at keeps
    exact keeps.elim
  | moved next =>
    rw [outcome] at keeps
    exact ⟨next, rfl, keeps, scheduled.moved outcome⟩

/-- In every interleaving no assertion fails, every `receive_all` returns the values that all
senders have sent to the receiver in that round, and unless all workers have run their
programs to the end, some worker or server can go on; at the end everyone has completed all
rounds of the program, and where the program has an end, every run gets there. -/
theorem exchange_delivers_rounds (setup : Setup npeers H T) (events : List (Event npeers H)) :
    ∃ final, Run.run (Network.next setup) (.new setup) events = some final ∧
      (∀ id receiver round data, (final.returned id receiver)[round]? = some data →
        data = (List.finRange npeers).map fun sender => setup.values sender id round receiver) ∧
      ((∃ event, final.Enabled setup event) ∨ final.Finished setup ∧
        ∀ id worker, (final.returned id worker).length =
          setup.turns id (final.phase worker)) ∧
      (Finite H → (∃ limit bound, setup.EndsBy limit bound) →
        Acc (fun next network => ∃ event, network.attempt setup event = .moved next) final) := by
  obtain ⟨final, run, ⟨ledger, parcels, sound⟩, scheduled⟩ :=
    Run.invariant (fun _ => True) (fun _ => Network.Reached setup) (fun _ _ _ => trivial)
      (Network.reached_new setup)
      (fun _ event network _ reached => reached.next event) events trivial
  refine ⟨final, run, ?_, ?_, fun _ ⟨_, _, ends⟩ => scheduled.acc ends⟩
  · intro id receiver round data returned
    rw [(sound.collects id receiver).earlier, List.getElem?_map] at returned
    obtain ⟨index, found, rfl⟩ := Option.map_eq_some_iff.mp returned
    obtain rfl : round = index := by
      simpa using (List.getElem?_eq_some_iff.mp found).2
    rfl
  · by_cases stuck : final.Stuck setup
    · have finished := stuck.finished sound scheduled
      exact .inr ⟨finished, scheduled.completed_of_finished finished.phases⟩
    · exact .inl (by simpa [Network.Stuck] using stuck)

/-- Two hosts with one worker each that make one broadcast. -/
def twoHosts : Setup 2 Bool ℕ where
  hostOf worker := worker = 1
  codec := .unary ℕ
  phase index := if index = 0 then
      some { exchanges := [], needs := fun _ _ => false, ending := 0, nodup := by simp
             ending_notMem := by simp }
    else none
  values sender _ _ receiver := 10 * sender + receiver

/-- A worker makes the broadcast up to the point where it waits for the other one, whose host
receives the message; then it collects the values. -/
def broadcast : List (Event 2 Bool) :=
  ([0, 1].flatMap fun worker : Fin 2 => [.call worker 0, .readyToSend worker 0, .send worker 0,
    .send worker 0]) ++
  ([false, true].flatMap fun host => [.accept host !host, .serverReady host !host,
    .serverDeliver host !host, .serverDeliver host !host]) ++
  ([0, 1].flatMap fun worker : Fin 2 => [.mayReceive worker 0, .take worker 0, .release worker 0,
    .take worker 0, .release worker 0, .finish worker 0])

/-- The broadcast returns the values of both workers. -/
theorem exchange_delivers_rounds_twoHosts :
    ∃ final, Run.run (Network.next twoHosts) (.new twoHosts) broadcast = some final ∧
      final.returned 0 1 = [[1, 11]] ∧
      ((∃ event, final.Enabled twoHosts event) ∨ final.Finished twoHosts) ∧
      Acc (fun next network => ∃ event, network.attempt twoHosts event = .moved next) final := by
  obtain ⟨final, reached, -, progress, acc⟩ := exchange_delivers_rounds twoHosts broadcast
  have returned : (Run.run (Network.next twoHosts) (.new twoHosts) broadcast).map
      (·.returned 0 1) = some [[1, 11]] := by decide
  rw [reached] at returned
  refine ⟨final, reached, Option.some.inj returned, progress.imp_right And.left,
    acc inferInstance ⟨1, 1, fun id index runs => ?_⟩⟩
  by_cases first : index = 0 <;> simp_all [Setup.runs, twoHosts]

end OpenDera.Communication
