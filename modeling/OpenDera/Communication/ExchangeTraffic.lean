import OpenDera.Communication.ExchangeLedger

/-!
# Messages between hosts

A connection carries the messages of all workers of one host to another host, in the
order in which they were sent. For every exchange and sender it holds the rounds between
what the other host has accepted and what the sender has posted; the rounds of one
exchange, whoever sent them, are in order.
-/

namespace OpenDera.Communication

open RoundCounter Function List Run Ledger Serving

variable {npeers : Nat} {H T : Type} [DecidableEq H]

/-- A message by the round it belongs to. -/
structure Parcel (npeers : Nat) where
  id : ExchangeId
  sender : Fin npeers
  round : Nat

variable (setup : Setup npeers H T)

/-- The message of a round to a host. -/
def Setup.message (host : H) (parcel : Parcel npeers) : Message npeers :=
  { exchangeId := parcel.id
    sender := parcel.sender
    data := (setup.localWorkers host).map fun receiver =>
      setup.codec.serialize (setup.values parcel.sender parcel.id parcel.round receiver) }

variable {sender : Fin npeers}

/-- The items for another host are serialized, so a sender can always put them on the way. -/
theorem Setup.mapM_intoTx (setup : Setup npeers H T) {host : H}
    (elsewhere : host ≠ setup.hostOf sender) (id : ExchangeId) (round : Nat) :
    ((setup.localWorkers host).mapM fun receiver => (setup.item id round sender receiver).intoTx) =
      some (setup.message host ⟨id, sender, round⟩).data := by
  have each : ∀ workers : List (Fin npeers), (∀ worker ∈ workers, setup.hostOf worker = host) →
      (workers.mapM fun receiver => (setup.item id round sender receiver).intoTx) =
        some (workers.map fun receiver =>
          setup.codec.serialize (setup.values sender id round receiver)) := by
    intro workers locals
    induction workers with
    | nil => rfl
    | cons worker _ ih =>
      have apart : setup.hostOf worker ≠ setup.hostOf sender := by
        rwa [locals worker mem_cons_self]
      rw [mapM_cons, ih fun other member =>
        locals other (mem_cons_of_mem _ member), item, if_neg apart]
      rfl
  exact each _ fun worker here => setup.mem_localWorkers.mp here

/-- The rounds of an exchange that a sender has on the way. -/
def roundsOf (parcels : List (Parcel npeers)) (id : ExchangeId) (sender : Fin npeers) : List Nat :=
  (parcels.filter fun parcel => parcel.id = id ∧ parcel.sender = sender).map Parcel.round

/-- The messages that have left their sender and whose mailboxes are not claimed yet. -/
def inFlight (queue : List (Message npeers)) : Serving npeers → List (Message npeers)
  | .idle => queue
  | .received message => message :: queue
  | .delivering _ _ _ => queue

theorem inFlight_append (queue later : List (Message npeers)) (serving : Serving npeers) :
    inFlight (queue ++ later) serving = inFlight queue serving ++ later := by
  cases serving <;> rfl

/-- The receivers whose claimed mailboxes the server has not filled. -/
def Serving.outstanding (id : ExchangeId) (sender : Fin npeers) : Serving npeers → List (Fin npeers)
  | .delivering other origin remaining =>
    if other = id ∧ origin = sender then remaining.map Prod.fst else []
  | _ => []

/-- What a connection holds agrees with the ledgers of all exchanges. -/
structure Carries (source target : H) (queue : List (Message npeers))
    (serving : Serving npeers) (parcels : List (Parcel npeers))
    (ledger : ExchangeId → Ledger npeers H) : Prop where
  inFlight : inFlight queue serving = parcels.map (setup.message target)
  hosts : ∀ parcel ∈ parcels, setup.hostOf parcel.sender = source ∧ source ≠ target ∧
    ∃ receiver, setup.hostOf receiver = target
  ordered : parcels.Pairwise fun earlier later => earlier.id = later.id → earlier.round ≤ later.round
  rounds : ∀ id sender, setup.hostOf sender = source → source ≠ target → roundsOf parcels id sender =
    range' ((ledger id).waits target sender) (roundsOf parcels id sender).length
  posts : ∀ id sender, setup.hostOf sender = source → source ≠ target →
    (ledger id).posts target sender =
      (ledger id).waits target sender + (roundsOf parcels id sender).length
  items : ∀ id sender remaining, serving = .delivering id sender remaining →
    setup.hostOf sender = source ∧ source ≠ target ∧
    ∃ round, ∃ receivers : List (Fin npeers), (ledger id).waits target sender = round + 1 ∧
      (∀ receiver ∈ receivers, setup.hostOf receiver = target) ∧
      remaining = receivers.map fun receiver =>
        (receiver, setup.codec.serialize (setup.values sender id round receiver))
  deliveries : ∀ id sender receiver, setup.hostOf sender = source → setup.hostOf receiver = target →
    source ≠ target →
    (ledger id).deliveries receiver sender + (serving.outstanding id sender).count receiver =
      (ledger id).waits target sender

namespace Carries

variable {setup : Setup npeers H T} {source target : H} {queue : List (Message npeers)}
  {serving : Serving npeers} {parcels : List (Parcel npeers)}
  {ledger : ExchangeId → Ledger npeers H}

theorem new : Carries setup source target [] .idle [] (fun _ => .new) where
  inFlight := rfl
  hosts _ member := by simp at member
  ordered := List.Pairwise.nil
  rounds _ _ _ _ := rfl
  posts _ _ _ _ := rfl
  items _ _ _ delivering := by simp at delivering
  deliveries _ _ _ _ _ _ := rfl

variable (carries : Carries setup source target queue serving parcels ledger)

include carries

variable {id : ExchangeId}

/-- A connection depends on the numbers of its own two hosts only. -/
theorem update {changed : Ledger npeers H}
    (waits : ∀ sender, setup.hostOf sender = source → source ≠ target →
      changed.waits target sender = (ledger id).waits target sender)
    (posts : ∀ sender, setup.hostOf sender = source → source ≠ target →
      changed.posts target sender = (ledger id).posts target sender)
    (deliveries : ∀ sender receiver, setup.hostOf sender = source →
      setup.hostOf receiver = target → source ≠ target →
      changed.deliveries receiver sender = (ledger id).deliveries receiver sender) :
    Carries setup source target queue serving parcels (Function.update ledger id changed) := by
  have waits other sender (here : setup.hostOf sender = source) apart :=
    observe_update (fun ledger : Ledger npeers H => ledger.waits target sender)
      (waits sender here apart) other
  have posts other sender (here : setup.hostOf sender = source) apart :=
    observe_update (fun ledger : Ledger npeers H => ledger.posts target sender)
      (posts sender here apart) other
  constructor
  case inFlight => exact carries.inFlight
  case hosts => exact carries.hosts
  case ordered => exact carries.ordered
  case rounds =>
    intro other sender here apart
    rw [waits other sender here apart]
    exact carries.rounds other sender here apart
  case posts =>
    intro other sender here apart
    rw [waits other sender here apart, posts other sender here apart]
    exact carries.posts other sender here apart
  case items =>
    intro other sender remaining delivering
    obtain ⟨here, apart, rest⟩ := carries.items other sender remaining delivering
    rw [waits other sender here apart]
    exact ⟨here, apart, rest⟩
  case deliveries =>
    intro other sender receiver here there apart
    rw [waits other sender here apart, observe_update (fun ledger : Ledger npeers H =>
      ledger.deliveries receiver sender) (deliveries sender receiver here there apart) other]
    exact carries.deliveries other sender receiver here there apart

/-! ## Rounds on the way -/

variable {parcel : Parcel npeers}

theorem mem_rounds (member : parcel ∈ parcels) :
    (ledger parcel.id).waits target parcel.sender ≤ parcel.round ∧
      parcel.round < (ledger parcel.id).posts target parcel.sender := by
  obtain ⟨here, apart, -⟩ := carries.hosts parcel member
  have inRounds : parcel.round ∈ roundsOf parcels parcel.id parcel.sender :=
    mem_map_of_mem (mem_filter.mpr ⟨member, by simp⟩)
  rw [carries.rounds parcel.id parcel.sender here apart, mem_range'_1,
    ← carries.posts parcel.id parcel.sender here apart] at inRounds
  exact inRounds

/-- A sender that has posted more than was accepted has the next round on the way. -/
theorem exists_parcel (here : setup.hostOf sender = source) (apart : source ≠ target)
    (behind : (ledger id).waits target sender < (ledger id).posts target sender) :
    ⟨id, sender, (ledger id).waits target sender⟩ ∈ parcels := by
  have inRounds : (ledger id).waits target sender ∈ roundsOf parcels id sender := by
    rw [carries.rounds id sender here apart, mem_range'_1, ← carries.posts id sender here apart]
    exact ⟨le_rfl, behind⟩
  obtain ⟨parcel, member, round⟩ := mem_map.mp inRounds
  obtain ⟨member, same⟩ := mem_filter.mp member
  obtain ⟨rfl, rfl⟩ : parcel.id = id ∧ parcel.sender = sender := by simpa using same
  rwa [← round]

/-! ## Sending -/

/-- A sender puts its next round on the way. -/
theorem post (here : setup.hostOf sender = source)
    (apart : source ≠ target) (known : ∃ receiver, setup.hostOf receiver = target)
    (latest : ∀ parcel ∈ parcels, parcel.id = id → parcel.round ≤ (ledger id).posts target sender) :
    let parcel : Parcel npeers := ⟨id, sender, (ledger id).posts target sender⟩
    Carries setup source target (queue ++ [setup.message target parcel]) serving (parcels ++ [parcel])
      (Function.update ledger id ((ledger id).post target sender)) := by
  intro parcel
  have rounds : ∀ other origin, roundsOf (parcels ++ [parcel]) other origin =
      roundsOf parcels other origin ++
        if id = other ∧ sender = origin then [(ledger id).posts target sender] else [] := by
    intro other origin
    simp only [roundsOf, filter_append, map_append]
    split <;> simp_all [parcel]
  have waits : ∀ other, (Function.update ledger id ((ledger id).post target sender) other).waits =
      (ledger other).waits := observe_update waits rfl
  have deliveries : ∀ other,
      (Function.update ledger id ((ledger id).post target sender) other).deliveries =
        (ledger other).deliveries := observe_update Ledger.deliveries rfl
  constructor
  case inFlight =>
    rw [inFlight_append, carries.inFlight, map_append, map_singleton]
  case hosts =>
    intro other member
    rcases mem_append.mp member with old | new
    · exact carries.hosts other old
    · obtain rfl := mem_singleton.mp new
      exact ⟨here, apart, known⟩
  case ordered =>
    refine pairwise_append.mpr ⟨carries.ordered, pairwise_singleton _ _, ?_⟩
    intro earlier old later new
    obtain rfl := mem_singleton.mp new
    exact latest earlier old
  case rounds =>
    intro other origin there _
    rw [waits, rounds]
    split
    case isTrue same =>
      obtain ⟨rfl, rfl⟩ := same
      rw [length_append, length_singleton, range'_1_concat,
        ← carries.rounds id sender there apart, ← carries.posts id sender there apart]
    case isFalse =>
      rw [append_nil]
      exact carries.rounds other origin there apart
  case posts =>
    intro other origin there _
    have before := carries.posts other origin there apart
    rw [waits, rounds]
    by_cases same : other = id
    · subst same
      simp only [update_self, post, reportIn_apply, before, true_and, eq_comm (a := sender)]
      split <;> simp [Nat.add_assoc]
    · simpa [same, Ne.symm same] using before
  case items =>
    intro other origin remaining delivering
    rw [waits]
    exact carries.items other origin remaining delivering
  case deliveries =>
    intro other origin receiver from_ to_ _
    rw [waits, deliveries]
    exact carries.deliveries other origin receiver from_ to_ apart

omit carries

/-! ## Serving -/

variable {message : Message npeers}

/-- The server takes the next message off the connection. -/
theorem accept (carries : Carries setup source target (message :: queue) .idle parcels ledger) :
    Carries setup source target queue (.received message) parcels ledger :=
  { carries with
    items := by
      intro _ _ _ delivering
      simp at delivering }

/-- A message the server has received is the first parcel. -/
theorem received (carries : Carries setup source target queue (.received message) parcels ledger) :
    ∃ parcel rest, parcels = parcel :: rest ∧ message = setup.message target parcel ∧
      parcel.round = (ledger parcel.id).waits target parcel.sender := by
  have flight := carries.inFlight
  cases parcels with
  | nil => simp [Communication.inFlight] at flight
  | cons parcel rest =>
    obtain ⟨rfl, -⟩ := cons.inj flight
    obtain ⟨here, apart, -⟩ := carries.hosts parcel mem_cons_self
    have rounds := carries.rounds parcel.id parcel.sender here apart
    have first : roundsOf (parcel :: rest) parcel.id parcel.sender =
        parcel.round :: roundsOf rest parcel.id parcel.sender := by simp [roundsOf]
    rw [first, length_cons, range'_succ] at rounds
    exact ⟨parcel, rest, rfl, rfl, (cons.inj rounds).1⟩

/-- The server claims the mailboxes of a message. -/
theorem ready {rest : List (Parcel npeers)}
    (carries : Carries setup source target queue (.received (setup.message target parcel))
      (parcel :: rest) ledger) :
    Carries setup source target queue (.delivering parcel.id parcel.sender
        ((setup.localWorkers target).zip (setup.message target parcel).data)) rest
      (Function.update ledger parcel.id ((ledger parcel.id).wait target parcel.sender)) := by
  obtain ⟨parcelHere, apart, -⟩ := carries.hosts parcel mem_cons_self
  obtain ⟨_, _, same, -, first⟩ := carries.received
  obtain ⟨rfl, rfl⟩ := cons.inj same
  have rounds : ∀ other origin, roundsOf (parcel :: rest) other origin =
      (if parcel.id = other ∧ parcel.sender = origin then [parcel.round] else []) ++
        roundsOf rest other origin := by
    intro other origin
    simp only [roundsOf, filter_cons]
    split <;> simp_all
  have changed : ∀ other origin,
      (Function.update ledger parcel.id ((ledger parcel.id).wait target parcel.sender) other).waits
        target origin = (ledger other).waits target origin +
          if parcel.id = other ∧ parcel.sender = origin then 1 else 0 := by
    intro other origin
    by_cases sameId : other = parcel.id
    · subst sameId
      simp [wait, reportIn_apply, eq_comm]
    · simp [sameId, Ne.symm sameId]
  have posts : ∀ other,
      (Function.update ledger parcel.id ((ledger parcel.id).wait target parcel.sender) other).posts =
        (ledger other).posts := observe_update Ledger.posts rfl
  have deliveries : ∀ other,
      (Function.update ledger parcel.id ((ledger parcel.id).wait target parcel.sender)
        other).deliveries = (ledger other).deliveries := observe_update Ledger.deliveries rfl
  have zipped : (setup.localWorkers target).zip (setup.message target parcel).data =
      (setup.localWorkers target).map fun receiver =>
        (receiver, setup.codec.serialize (setup.values parcel.sender parcel.id parcel.round receiver)) :=
    map_prod_left_eq_zip.symm
  constructor
  case inFlight => exact (cons.inj carries.inFlight).2
  case hosts => exact fun other member => carries.hosts other (mem_cons_of_mem _ member)
  case ordered => exact (pairwise_cons.mp carries.ordered).2
  case rounds =>
    intro other origin here _
    have before := carries.rounds other origin here apart
    rw [rounds] at before
    rw [changed]
    split
    case isTrue own =>
      rw [if_pos own, singleton_append, length_cons, range'_succ] at before
      exact (cons.inj before).2
    case isFalse other =>
      rwa [if_neg other, nil_append] at before
  case posts =>
    intro other origin here _
    have before := carries.posts other origin here apart
    rw [rounds] at before
    rw [changed, posts, before]
    split <;> simp
    omega
  case items =>
    intro id sender remaining delivering
    obtain ⟨rfl, rfl, rfl⟩ := Serving.delivering.inj delivering
    refine ⟨parcelHere, apart, parcel.round, setup.localWorkers target, ?_, ?_, zipped⟩
    · rw [changed, first]
      simp
    · exact fun receiver here => setup.mem_localWorkers.mp here
  case deliveries =>
    intro other origin receiver here there _
    have before := carries.deliveries other origin receiver here there apart
    rw [changed, deliveries]
    simp only [outstanding, count_nil, Nat.add_zero] at before ⊢
    rw [before]
    split
    case isTrue =>
      rw [zipped, map_map]
      have once := count_eq_one_of_mem (setup.nodup_localWorkers target)
        (setup.mem_localWorkers.mpr there)
      simpa [comp_def] using once
    case isFalse => simp

variable {receiver : Fin npeers} {bytes : List UInt8} {remaining : List (Fin npeers × List UInt8)}

/-- The next mailbox the server fills is claimed, and the item is that of the round. -/
theorem delivering
    (carries : Carries setup source target queue (.delivering id sender ((receiver, bytes) :: remaining))
      parcels ledger) :
    setup.hostOf receiver = target ∧ setup.hostOf sender = source ∧ source ≠ target ∧
      (ledger id).deliveries receiver sender < (ledger id).waits target sender ∧
      ∃ round, (ledger id).waits target sender = round + 1 ∧
        bytes = setup.codec.serialize (setup.values sender id round receiver) := by
  obtain ⟨here, apart, round, receivers, waits, locals, content⟩ := carries.items _ _ _ rfl
  cases receivers with
  | nil => simp at content
  | cons =>
    obtain ⟨item, -⟩ := cons.inj content
    obtain ⟨rfl, rfl⟩ := Prod.mk.inj item
    have there := locals receiver mem_cons_self
    have deliveries := carries.deliveries id sender receiver here there apart
    simp only [outstanding, and_self, if_true, map_cons, count_cons_self]
      at deliveries
    exact ⟨there, here, apart, by omega, round, waits, rfl⟩

/-- The server fills the next mailbox. -/
theorem deliver
    (carries : Carries setup source target queue (.delivering id sender ((receiver, bytes) :: remaining))
      parcels ledger) :
    Carries setup source target queue (.delivering id sender remaining) parcels
      (Function.update ledger id ((ledger id).deliver sender receiver)) := by
  obtain ⟨receiverThere, senderHere, apart, -⟩ := carries.delivering
  have waits : ∀ other,
      (Function.update ledger id ((ledger id).deliver sender receiver) other).waits =
        (ledger other).waits := observe_update waits rfl
  have posts : ∀ other,
      (Function.update ledger id ((ledger id).deliver sender receiver) other).posts =
        (ledger other).posts := observe_update Ledger.posts rfl
  constructor
  case inFlight => exact carries.inFlight
  case hosts => exact carries.hosts
  case ordered => exact carries.ordered
  case rounds =>
    intro other origin here apart
    rw [waits]
    exact carries.rounds other origin here apart
  case posts =>
    intro other origin here apart
    rw [waits, posts]
    exact carries.posts other origin here apart
  case items =>
    intro other origin rest delivering
    obtain ⟨rfl, rfl, rfl⟩ := Serving.delivering.inj delivering
    obtain ⟨-, -, round, receivers, waited, locals, content⟩ := carries.items _ _ _ rfl
    refine ⟨senderHere, apart, round, receivers.tail, ?_, ?_, ?_⟩
    · rw [waits, waited]
    · exact fun worker member => locals worker (mem_of_mem_tail member)
    · rw [map_tail, ← content, tail_cons]
  case deliveries =>
    intro other origin worker here there _
    have before := carries.deliveries other origin worker here there apart
    rw [waits, ← before]
    by_cases same : other = id
    · subst same
      by_cases own : origin = sender
      · subst own
        simp only [update_self, deliver, reportIn_apply, outstanding, and_self, if_true,
          map_cons, count_cons, and_true, beq_iff_eq, eq_comm (a := receiver)]
        omega
      · simp [deliver, reportIn_apply, outstanding, own, Ne.symm own]
    · simp [outstanding, same, Ne.symm same]

/-- The server is done with a message. -/
theorem served (carries : Carries setup source target queue (.delivering id sender []) parcels ledger) :
    Carries setup source target queue .idle parcels ledger :=
  { carries with
    items := by
      intro _ _ _ delivering
      simp at delivering
    deliveries := by
      intro other origin receiver here there apart
      have before := carries.deliveries other origin receiver here there apart
      simpa [outstanding] using before }

end Carries

end OpenDera.Communication
