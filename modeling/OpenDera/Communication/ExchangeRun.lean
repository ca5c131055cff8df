import OpenDera.Communication.ExchangeTraffic

/-!
# Runs of the exchanges

In every state that workers and servers reach, each exchange has a ledger and each
connection carries the rounds that the ledgers say are on the way. No assertion fails,
and what a worker has received in a round are the values sent to it in that round.
-/

namespace OpenDera.Communication

open RoundCounter Function List Run Network Outcome Call

variable {npeers : Nat} {H T : Type} [DecidableEq H] (setup : Setup npeers H T)
  (network : Network npeers H T)

/-- Exchanges, calls and connections agree with the ledgers. -/
structure Sound (ledger : ExchangeId → Ledger npeers H) (parcels : H → H → List (Parcel npeers)) :
    Prop where
  tracks : ∀ id, Tracks setup id (network.exchange id) (ledger id)
  stands : ∀ id worker, Stands setup (ledger id) worker (network.returned id worker).length
    (network.call id worker)
  collects : ∀ id worker, Collects setup id worker (network.returned id worker)
    (network.call id worker)
  carries : ∀ source target, Carries setup source target (network.queue source target)
    (network.serving source target) (parcels source target) ledger

/-- There are ledgers that explain the state. -/
def Network.Consistent : Prop :=
  ∃ ledger parcels, Sound setup network ledger parcels

/-- An outcome that is not a failure and leads to good states only. -/
def Outcome.Keeps {State : Type} (Good : State → Prop) : Outcome State → Prop
  | .blocked => True
  | .failed => False
  | .moved state => Good state

section

variable {State Result : Type} {Good : State → Prop} {result : Option Result}
  {next : Result → State}

theorem Outcome.keeps_ofWait (each : ∀ value, result = some value → Good (next value)) :
    (ofWait result next).Keeps Good := by
  cases result with
  | none => trivial
  | some value => exact each value rfl

theorem Outcome.keeps_ofAssert (succeeds : ∃ value, result = some value ∧ Good (next value)) :
    (ofAssert result next).Keeps Good := by
  obtain ⟨value, rfl, good⟩ := succeeds
  exact good

end

namespace Sound

variable {setup : Setup npeers H T} {network : Network npeers H T}
  {ledger : ExchangeId → Ledger npeers H} {parcels : H → H → List (Parcel npeers)}

theorem consistent (sound : Sound setup network ledger parcels) : network.Consistent setup :=
  ⟨ledger, parcels, sound⟩

/-- The ledgers are empty at the start. -/
theorem new : Sound setup (.new setup) (fun _ => .new) (fun _ _ => []) where
  tracks _ := Tracks.new
  stands _ _ := Stands.new
  collects _ _ := { earlier := rfl, collected := by simp [Network.new, claimed] }
  carries _ _ := Carries.new

/-! ## Frames -/

section

variable {id : ExchangeId} {exchange : Exchange npeers H T} {changed : Ledger npeers H}

omit [DecidableEq H] in
theorem setExchange_self (network : Network npeers H T) (id : ExchangeId) :
    network.setExchange id (network.exchange id) = network := by
  simp [setExchange]

variable {call : Call npeers H T}

/-- A worker acts on one exchange, and possibly puts something on the way. -/
theorem acts (sound : Sound setup network ledger parcels) {worker : Fin npeers}
    {queue : H → H → List (Message npeers)}
    {posted : H → H → List (Parcel npeers)} (tracks : Tracks setup id exchange changed)
    (stands : Stands setup changed worker (network.returned id worker).length call)
    (others : ∀ other, other ≠ worker →
      Stands setup changed other (network.returned id other).length (network.call id other))
    (collects : Collects setup id worker (network.returned id worker) call)
    (carries : ∀ source target, Carries setup source target (queue source target)
      (network.serving source target) (posted source target) (update ledger id changed)) :
    Sound setup (({ network with queue := queue }.setExchange id exchange).setCall id worker call)
      (update ledger id changed) posted := by
  constructor
  case tracks => exact forall_update₂ tracks fun other _ => sound.tracks other
  case stands =>
    refine forall_update₂ (P := fun other (calls : Fin npeers → Call npeers H T) current =>
      ∀ someone, Stands setup current someone (network.returned other someone).length (calls someone))
      ?_ fun other _ => sound.stands other
    exact (forall_update_iff _ fun someone => Stands setup changed someone
      (network.returned id someone).length).mpr ⟨stands, others⟩
  case collects =>
    refine (forall_update_iff _ fun other (calls : Fin npeers → Call npeers H T) => ∀ someone,
      Collects setup other someone (network.returned other someone) (calls someone)).mpr
      ⟨?_, fun other _ => sound.collects other⟩
    exact (forall_update_iff _ fun someone => Collects setup id someone
      (network.returned id someone)).mpr ⟨collects, fun someone _ => sound.collects id someone⟩
  case carries => exact carries

variable {kept : List (Parcel npeers)} {serving : Serving npeers}

/-- A change at one connection. -/
theorem connection {source target : H} {queue : List (Message npeers)}
    {current : ExchangeId → Ledger npeers H}
    (here : Carries setup source target queue serving kept current)
    (elsewhere : ∀ origin place, ¬ (origin = source ∧ place = target) →
      Carries setup origin place (network.queue origin place) (network.serving origin place)
        (parcels origin place) current) (origin place : H) :
    Carries setup origin place
      (update network.queue source (update (network.queue source) target queue) origin place)
      (update network.serving source (update (network.serving source) target serving) origin place)
      (update parcels source (update (parcels source) target kept) origin place)
      current := by
  by_cases same : origin = source ∧ place = target
  · obtain ⟨rfl, rfl⟩ := same
    simpa using here
  · simpa [same] using elsewhere origin place same

/-- A server acts on one exchange. -/
theorem server (sound : Sound setup network ledger parcels) {source target : H}
    (tracks : Tracks setup id exchange changed)
    (stands : ∀ worker,
      Stands setup changed worker (network.returned id worker).length (network.call id worker))
    (here : Carries setup source target (network.queue source target) serving kept
      (update ledger id changed))
    (elsewhere : ∀ origin place, ¬ (origin = source ∧ place = target) →
      Carries setup origin place (network.queue origin place) (network.serving origin place)
        (parcels origin place) (update ledger id changed)) :
    ((network.setExchange id exchange).setServing source target serving).Consistent setup := by
  refine ⟨update ledger id changed, update parcels source (update (parcels source) target kept), ?_⟩
  constructor
  case tracks => exact forall_update₂ tracks fun other _ => sound.tracks other
  case stands =>
    exact (forall_update_iff _ fun other current => ∀ worker, Stands setup current worker
      (network.returned other worker).length (network.call other worker)).mpr
      ⟨stands, fun other _ => sound.stands other⟩
  case collects => exact sound.collects
  case carries =>
    intro origin place
    simpa [setExchange, setServing] using connection here elsewhere origin place

end

/-! ## Events of workers -/

variable (sound : Sound setup network ledger parcels) (worker : Fin npeers) (id : ExchangeId)

include sound

theorem keeps_call : (network.attempt setup (.call worker id)).Keeps (Network.Consistent setup) := by
  simp only [attempt]
  split
  case h_2 => trivial
  case h_1 idle =>
    split
    case isFalse => trivial
    case isTrue =>
      have stands := sound.stands id worker
      rw [idle] at stands
      have acted := sound.acts (sound.tracks id) stands.start
        (fun other _ => sound.stands id other) ((sound.collects id worker).of_unclaimed rfl)
        (by simpa using sound.carries)
      rw [setExchange_self] at acted
      exact acted.consistent

theorem keeps_readyToSend :
    (network.attempt setup (.readyToSend worker id)).Keeps (Network.Consistent setup) := by
  simp only [attempt]
  split
  case h_2 => trivial
  case h_1 waiting =>
    refine keeps_ofWait fun exchange ready => ?_
    have stands := sound.stands id worker
    rw [waiting] at stands
    refine (sound.acts ((sound.tracks id).wait ready) stands.wait
      (fun other different => (sound.stands id other).wait_other fun _ => different)
      ((sound.collects id worker).of_unclaimed rfl) fun source target =>
        (sound.carries source target).update (fun sender here apart => ?_) (fun _ _ _ => rfl)
          fun _ _ _ _ _ => rfl).consistent
    have notOwn : ¬ (target = setup.hostOf worker ∧ sender = worker) := by
      rintro ⟨rfl, rfl⟩
      exact apart here.symm
    simp [Ledger.wait, reportIn_apply, notOwn]

variable {targets : List (Target npeers H)}

/-- A worker fills a mailbox of its own host. -/
theorem keeps_deliver {receiver : Fin npeers}
    (sending : network.call id worker = .sending (.worker receiver :: targets)) :
    (network.send setup worker id targets (.worker receiver)).Keeps (Network.Consistent setup) := by
  have stands := sound.stands id worker
  rw [sending] at stands
  have here : setup.hostOf receiver = setup.hostOf worker :=
    setup.worker_mem_targets.mp (stands.targets.subset mem_cons_self)
  have claimed : (ledger id).deliveries receiver worker <
      (ledger id).waits (setup.hostOf receiver) worker := by
    have delivered := stands.deliveries receiver here
    rw [here, stands.waits, ← delivered, Call.targets, count_cons_self]
    omega
  have round : (ledger id).deliveries receiver worker = (network.returned id worker).length := by
    have waits := (sound.tracks id).waits_eq claimed
    rw [here, stands.waits, began] at waits
    omega
  obtain ⟨exchange, delivered, tracks⟩ := (sound.tracks id).deliver claimed
  rw [round] at delivered
  have item : setup.item id (network.returned id worker).length worker receiver =
      setup.arrived id (network.returned id worker).length worker receiver := by
    rw [Setup.item, if_pos here, Setup.arrived, if_pos here]
  refine keeps_ofAssert ⟨exchange, by rw [item, delivered], ?_⟩
  refine (sound.acts tracks stands.deliver
    (fun other different => (sound.stands id other).deliver_other fun _ => different)
    ((sound.collects id worker).of_unclaimed rfl) fun source target =>
      (sound.carries source target).update (fun _ _ _ => rfl) (fun _ _ _ => rfl)
        fun sender place from_ to_ apart => ?_).consistent
  have notOwn : ¬ (place = receiver ∧ sender = worker) := by
    rintro ⟨rfl, rfl⟩
    exact apart (from_.symm.trans (here.symm.trans to_))
  simp [Ledger.deliver, reportIn_apply, notOwn]

/-- The rounds of an exchange that are on the way from a host are not ahead of any worker of
the host that is still sending: their senders have waited for it. -/
theorem round_le {source target : H} {parcel : Parcel npeers}
    (member : parcel ∈ parcels source target) (here : setup.hostOf worker = source)
    (sending : network.call parcel.id worker = .sending targets) :
    parcel.round ≤ (network.returned parcel.id worker).length := by
  have carries := sound.carries source target
  obtain ⟨sentHere, apart, receiver, there⟩ := carries.hosts parcel member
  have stands := sound.stands parcel.id worker
  rw [sending] at stands
  have posted := (carries.mem_rounds member).2
  have waited : (ledger parcel.id).posts target parcel.sender ≤
      (ledger parcel.id).waits source parcel.sender := by
    subst sentHere there
    exact (sound.stands parcel.id parcel.sender).posts_le apart.symm
  have ring := (sound.tracks parcel.id).waits_le_releases parcel.sender worker
  have released := stands.releases parcel.sender
  simp only [unreleased, claimed, count_nil, here] at released ring
  omega

/-- A worker puts its items for another host on the way. -/
theorem keeps_post {host : H}
    (sending : network.call id worker = .sending (.host host :: targets)) :
    (network.send setup worker id targets (.host host)).Keeps (Network.Consistent setup) := by
  have stands := sound.stands id worker
  rw [sending] at stands
  obtain ⟨apart, receiver, rfl⟩ :=
    setup.host_mem_targets.mp (stands.targets.subset mem_cons_self)
  have round := stands.posts_eq
  refine keeps_ofAssert ⟨_, setup.mapM_intoTx apart id _, ?_⟩
  rw [← round]
  have latest : ∀ parcel ∈ parcels (setup.hostOf worker) (setup.hostOf receiver), parcel.id = id →
      parcel.round ≤ (ledger id).posts (setup.hostOf receiver) worker := by
    rintro parcel member rfl
    rw [round]
    exact sound.round_le worker member rfl sending
  have posted := (sound.carries (setup.hostOf worker) (setup.hostOf receiver)).post rfl apart.symm
    ⟨receiver, rfl⟩ latest
  have elsewhere : ∀ source target, ¬ (source = setup.hostOf worker ∧ target = setup.hostOf receiver) →
      Carries setup source target (network.queue source target) (network.serving source target)
        (parcels source target)
        (update ledger id ((ledger id).post (setup.hostOf receiver) worker)) := by
    intro source target other
    refine (sound.carries source target).update (fun _ _ _ => rfl) (fun sender here _ => ?_)
      fun _ _ _ _ _ => rfl
    have notOwn : ¬ (target = setup.hostOf receiver ∧ sender = worker) := by
      rintro ⟨rfl, rfl⟩
      exact other ⟨here.symm, rfl⟩
    simp [Ledger.post, reportIn_apply, notOwn]
  have acted := sound.acts ((sound.tracks id).post (setup.hostOf receiver) worker) stands.post
    (fun other different => (sound.stands id other).post_other different (setup.hostOf receiver))
    ((sound.collects id worker).of_unclaimed rfl) fun source target => by
      simpa using connection posted elsewhere source target
  rw [setExchange_self] at acted
  exact acted.consistent

theorem keeps_send : (network.attempt setup (.send worker id)).Keeps (Network.Consistent setup) := by
  simp only [attempt]
  split
  case h_2 => trivial
  case h_1 target _ sending =>
    cases target with
    | worker => exact sound.keeps_deliver worker id sending
    | host => exact sound.keeps_post worker id sending

theorem keeps_mayReceive :
    (network.attempt setup (.mayReceive worker id)).Keeps (Network.Consistent setup) := by
  simp only [attempt]
  split
  case h_2 => trivial
  case h_1 sent =>
    refine keeps_ofWait fun exchange ready => ?_
    have stands := sound.stands id worker
    rw [sent] at stands
    exact (sound.acts ((sound.tracks id).claim ready) stands.claim
      (fun other different => (sound.stands id other).claim_other different)
      (sound.collects id worker).claim fun source target =>
        (sound.carries source target).update (fun _ _ _ => rfl) (fun _ _ _ => rfl)
          fun _ _ _ _ _ => rfl).consistent

theorem keeps_take : (network.attempt setup (.take worker id)).Keeps (Network.Consistent setup) := by
  simp only [attempt]
  split
  case h_2 => trivial
  case h_1 _ sender _ taking =>
    have stands := sound.stands id worker
    have collects := sound.collects id worker
    rw [taking] at stands collects
    have takes := stands.takes sender
    have claims := stands.claims
    simp only [untaken, claimed, count_cons_self] at takes claims
    have claimed : (ledger id).takes worker sender < (ledger id).claims worker := by omega
    have round : (ledger id).takes worker sender = (network.returned id worker).length := by
      have := (sound.tracks id).ring sender worker
      omega
    obtain ⟨exchange, taken, tracks⟩ := (sound.tracks id).take claimed
    rw [round] at taken
    refine keeps_ofAssert 
      ⟨(setup.values sender id (network.returned id worker).length worker, exchange), by simp [taken], ?_⟩
    exact (sound.acts tracks (stands.take _)
      (fun other different => (sound.stands id other).take_other different sender)
      collects.take fun source target =>
        (sound.carries source target).update (fun _ _ _ => rfl) (fun _ _ _ => rfl)
          fun _ _ _ _ _ => rfl).consistent

theorem keeps_release :
    (network.attempt setup (.release worker id)).Keeps (Network.Consistent setup) := by
  simp only [attempt]
  split
  case h_2 => trivial
  case h_1 _ sender _ releasing =>
    have stands := sound.stands id worker
    have collects := sound.collects id worker
    rw [releasing] at stands collects
    have taken : (ledger id).releases sender worker < (ledger id).takes worker sender := by
      have takes := stands.takes sender
      have releases := stands.releases sender
      simp only [untaken, unreleased, claimed, count_cons_self] at takes releases
      omega
    exact (sound.acts ((sound.tracks id).release taken) stands.release
      (fun other different => (sound.stands id other).release_other different sender)
      collects.release fun source target =>
        (sound.carries source target).update (fun _ _ _ => rfl) (fun _ _ _ => rfl)
          fun _ _ _ _ _ => rfl).consistent

/-- The end of a round is a matter of the worker alone. -/
theorem keeps_finish : (network.attempt setup (.finish worker id)).Keeps (Network.Consistent setup) := by
  simp only [attempt]
  split
  case h_2 => trivial
  case h_1 data taking =>
    have stands := sound.stands id worker
    have collects := sound.collects id worker
    rw [taking] at stands collects
    have returned : Sound setup ({ network with
        returned := update network.returned id (update (network.returned id) worker
          (network.returned id worker ++ [data])) }.setCall id worker .idle) ledger parcels := by
      constructor
      case tracks => exact sound.tracks
      case carries => exact sound.carries
      case stands =>
        refine forall_update₂ (P := fun other (returned calls : Fin npeers → _) => ∀ someone,
          Stands setup (ledger other) someone (length (returned someone)) (calls someone))
          ?_ fun other _ => sound.stands other
        refine forall_update₂ (P := fun someone returned => Stands setup (ledger id) someone
          (length returned)) ?_ fun someone _ => sound.stands id someone
        simpa using stands.finish
      case collects =>
        exact forall_update₂ (P := fun other (returned calls : Fin npeers → _) => ∀ someone,
          Collects setup other someone (returned someone) (calls someone))
          (forall_update₂ collects.finish fun someone _ => sound.collects id someone)
          fun other _ => sound.collects other
    simp only [finish]
    split
    case h_1 => exact returned.consistent
    case h_2 =>
      split
      · exact consistent { returned with }
      · exact consistent { returned with }

/-! ## Events of servers -/

variable (source target : H)

omit worker id

theorem keeps_accept :
    (network.attempt setup (.accept source target)).Keeps (Network.Consistent setup) := by
  simp only [attempt]
  split
  case h_2 => trivial
  case h_1 _ _ idle waiting =>
    have carries := sound.carries source target
    rw [idle, waiting] at carries
    refine ⟨ledger, parcels, { sound with carries := fun origin place => ?_ }⟩
    have accepted := connection carries.accept (fun origin place _ => sound.carries origin place)
      origin place
    simpa [setQueue, setServing] using accepted

theorem keeps_serverReady :
    (network.attempt setup (.serverReady source target)).Keeps (Network.Consistent setup) := by
  simp only [attempt]
  split
  case h_2 => trivial
  case h_1 _ received =>
    have carries := sound.carries source target
    rw [received] at carries
    obtain ⟨parcel, rest, split, rfl, -⟩ := carries.received
    rw [split] at carries
    obtain ⟨here, apart, -⟩ := carries.hosts parcel mem_cons_self
    refine keeps_ofWait fun exchange ready => ?_
    refine sound.server ((sound.tracks parcel.id).wait ready) (fun worker => ?_) carries.ready
      fun origin place other => ?_
    · refine (sound.stands parcel.id worker).wait_other ?_
      rintro there rfl
      exact apart (here.symm.trans there)
    · refine (sound.carries origin place).update (fun sender from_ _ => ?_) (fun _ _ _ => rfl)
        fun _ _ _ _ _ => rfl
      have notSame : ¬ (place = target ∧ sender = parcel.sender) := by
        rintro ⟨rfl, rfl⟩
        exact other ⟨from_.symm.trans here, rfl⟩
      simp [Ledger.wait, Setup.message, reportIn_apply, notSame]

theorem keeps_serverDeliver :
    (network.attempt setup (.serverDeliver source target)).Keeps (Network.Consistent setup) := by
  simp only [attempt]
  have carries := sound.carries source target
  split
  case h_3 => trivial
  case h_2 _ _ delivering =>
    rw [delivering] at carries
    refine ⟨ledger, parcels, { sound with carries := fun origin place => ?_ }⟩
    have served := connection carries.served (fun origin place _ => sound.carries origin place)
      origin place
    simpa [setServing] using served
  case h_1 id sender receiver _ _ delivering =>
    rw [delivering] at carries
    obtain ⟨there, here, apart, claimed, round, waits, rfl⟩ := carries.delivering
    have claimedThere : (ledger id).deliveries receiver sender <
        (ledger id).waits (setup.hostOf receiver) sender := by rwa [there]
    have current : (ledger id).deliveries receiver sender = round := by
      have := (sound.tracks id).waits_eq claimedThere
      rw [there, waits] at this
      omega
    obtain ⟨exchange, delivered, tracks⟩ := (sound.tracks id).deliver claimedThere
    have item : setup.arrived id round sender receiver =
        .rx (setup.codec.serialize (setup.values sender id round receiver)) := by
      rw [Setup.arrived, if_neg]
      rw [there, here]
      exact apart.symm
    rw [current, item] at delivered
    refine keeps_ofAssert ⟨exchange, delivered, ?_⟩
    refine sound.server tracks (fun worker => ?_) carries.deliver fun origin place other => ?_
    · refine (sound.stands id worker).deliver_other ?_
      rintro sameHost rfl
      exact apart (here.symm.trans (sameHost.symm.trans there))
    · refine (sound.carries origin place).update (fun _ _ _ => rfl) (fun _ _ _ => rfl)
        fun origin' receiver' from_ to_ _ => ?_
      have notSame : ¬ (receiver' = receiver ∧ origin' = sender) := by
        rintro ⟨rfl, rfl⟩
        exact other ⟨from_.symm.trans here, to_.symm.trans there⟩
      simp [Ledger.deliver, reportIn_apply, notSame]

/-- Every event keeps the exchanges and the ledgers in agreement, and none fails. -/
theorem keeps (event : Event npeers H) :
    (network.attempt setup event).Keeps (Network.Consistent setup) := by
  cases event with
  | call worker id => exact sound.keeps_call worker id
  | readyToSend worker id => exact sound.keeps_readyToSend worker id
  | send worker id => exact sound.keeps_send worker id
  | mayReceive worker id => exact sound.keeps_mayReceive worker id
  | take worker id => exact sound.keeps_take worker id
  | release worker id => exact sound.keeps_release worker id
  | finish worker id => exact sound.keeps_finish worker id
  | accept source target => exact sound.keeps_accept source target
  | serverReady source target => exact sound.keeps_serverReady source target
  | serverDeliver source target => exact sound.keeps_serverDeliver source target

end Sound

end OpenDera.Communication
