import OpenDera.Communication.Exchange
import OpenDera.Std.RoundCounter
import OpenDera.Std.Run

/-!
# The ledger of an exchange

What has happened in an exchange, as numbers: how often the mailboxes of a sender were
claimed on a host, how often a mailbox was filled, how often a receiver claimed its
mailboxes, and how often a mailbox was emptied and counted as empty. For one sender and one
receiver the five numbers form a ring: each is bounded by the one before it, and the first
is at most one ahead of the last. The mailboxes and the counters are functions of the ledger,
and every operation advances one of its numbers.
-/

namespace OpenDera.Communication

open RoundCounter List Call Exchange

section

variable {npeers : Nat} {H T : Type} [DecidableEq H]

/-- How often each operation has succeeded; `posts` counts the messages that a sender has
put on the way to a host. -/
structure Ledger (npeers : Nat) (H : Type) where
  /-- By host and sender. -/
  waits : H → Fin npeers → Nat
  /-- By host and sender. -/
  posts : H → Fin npeers → Nat
  /-- By receiver and sender. -/
  deliveries : Fin npeers → Fin npeers → Nat
  claims : Fin npeers → Nat
  /-- By receiver and sender. -/
  takes : Fin npeers → Fin npeers → Nat
  /-- By sender and receiver. -/
  releases : Fin npeers → Fin npeers → Nat

namespace Ledger

variable (ledger : Ledger npeers H)

/-- Nothing has happened. -/
def new : Ledger npeers H :=
  { waits := fun _ _ => 0
    posts := fun _ _ => 0
    deliveries := fun _ _ => 0
    claims := fun _ => 0
    takes := fun _ _ => 0
    releases := fun _ _ => 0 }

def wait (host : H) (sender : Fin npeers) : Ledger npeers H :=
  { ledger with waits := reportIn ledger.waits host sender }

def post (host : H) (sender : Fin npeers) : Ledger npeers H :=
  { ledger with posts := reportIn ledger.posts host sender }

variable (sender receiver : Fin npeers)

def deliver : Ledger npeers H :=
  { ledger with deliveries := reportIn ledger.deliveries receiver sender }

def claim (receiver : Fin npeers) : Ledger npeers H :=
  { ledger with claims := report ledger.claims receiver }

def take : Ledger npeers H :=
  { ledger with takes := reportIn ledger.takes receiver sender }

def release : Ledger npeers H :=
  { ledger with releases := reportIn ledger.releases sender receiver }

end Ledger

variable (setup : Setup npeers H T)

/-- What a mailbox holds after the delivery of a round. -/
def Setup.arrived (id : ExchangeId) (round : Nat) (sender receiver : Fin npeers) : Mailbox T :=
  if setup.hostOf receiver = setup.hostOf sender then
    .plain (setup.values sender id round receiver)
  else
    .rx (setup.codec.serialize (setup.values sender id round receiver))

/-- A receiver finds in a mailbox the value that was sent. -/
@[simp] theorem Setup.deserialize_arrived (id : ExchangeId)
    (round : Nat) (sender receiver : Fin npeers) :
    (setup.arrived id round sender receiver).deserialize setup.codec =
      some (setup.values sender id round receiver) := by
  unfold arrived
  split
  · rfl
  · exact setup.codec.deserialize_serialize _

theorem Setup.mem_localWorkers {host : H} {worker : Fin npeers} :
    worker ∈ setup.localWorkers host ↔ setup.hostOf worker = host := by
  simp [localWorkers]

theorem Setup.nodup_localWorkers (host : H) : (setup.localWorkers host).Nodup :=
  (nodup_finRange npeers).filter _

/-- The mailboxes and counters of an exchange are those of the ledger, and for every
sender and receiver the numbers of the ledger form a ring. -/
structure Tracks (setup : Setup npeers H T) (id : ExchangeId) (exchange : Exchange npeers H T)
    (ledger : Ledger npeers H) : Prop where
  releases_le_takes : ∀ sender receiver,
    ledger.releases sender receiver ≤ ledger.takes receiver sender
  takes_le_claims : ∀ sender receiver, ledger.takes receiver sender ≤ ledger.claims receiver
  claims_le_deliveries : ∀ sender receiver,
    ledger.claims receiver ≤ ledger.deliveries receiver sender
  deliveries_le_waits : ∀ sender receiver,
    ledger.deliveries receiver sender ≤ ledger.waits (setup.hostOf receiver) sender
  waits_le_releases : ∀ sender receiver,
    ledger.waits (setup.hostOf receiver) sender ≤ ledger.releases sender receiver + 1
  mailbox : ∀ sender receiver, exchange.mailbox sender receiver =
    if ledger.deliveries receiver sender = ledger.takes receiver sender then none
    else some (setup.arrived id (ledger.takes receiver sender) sender receiver)
  receiverCounter : ∀ receiver, Counts (finRange npeers) (ledger.deliveries receiver)
    (ledger.claims receiver) (exchange.receiverCounter receiver)
  senderCounter : ∀ host sender, Counts (setup.localWorkers host)
    (fun receiver => ledger.releases sender receiver + 1) (ledger.waits host sender)
    (exchange.senderCounter host sender)

namespace Tracks

variable {setup} {id : ExchangeId} {exchange next : Exchange npeers H T}
  {ledger : Ledger npeers H} {host : H} {sender receiver : Fin npeers}

/-- A new exchange has an empty ledger. -/
theorem new : Tracks setup id (.new setup) .new where
  releases_le_takes _ _ := le_rfl
  takes_le_claims _ _ := le_rfl
  claims_le_deliveries _ _ := le_rfl
  deliveries_le_waits _ _ := le_rfl
  waits_le_releases _ _ := Nat.zero_le _
  mailbox _ _ := rfl
  receiverCounter _ := by simp [Counts, Exchange.new, Ledger.new]
  senderCounter _ _ := by simp [Counts, Exchange.new, Ledger.new]

variable (tracks : Tracks setup id exchange ledger)

include tracks

/-- Posts play no part in mailboxes and counters. -/
theorem post (host : H) (sender : Fin npeers) :
    Tracks setup id exchange (ledger.post host sender) :=
  { tracks with }

section

variable (sender receiver : Fin npeers)

theorem ring : ledger.releases sender receiver ≤ ledger.takes receiver sender ∧
      ledger.takes receiver sender ≤ ledger.claims receiver ∧
      ledger.claims receiver ≤ ledger.deliveries receiver sender ∧
      ledger.deliveries receiver sender ≤ ledger.waits (setup.hostOf receiver) sender ∧
      ledger.waits (setup.hostOf receiver) sender ≤ ledger.releases sender receiver + 1 :=
  ⟨tracks.releases_le_takes .., tracks.takes_le_claims .., tracks.claims_le_deliveries ..,
    tracks.deliveries_le_waits .., tracks.waits_le_releases ..⟩

theorem releases_le_waits :
    ledger.releases sender receiver ≤ ledger.waits (setup.hostOf receiver) sender := by
  have := tracks.ring sender receiver
  omega

theorem deliveries_le_claims : ledger.deliveries receiver sender ≤ ledger.claims receiver + 1 := by
  have := tracks.ring sender receiver
  omega

end

/-! ## Waiting to send -/

/-- The counter of a sender on a host is complete exactly if all workers of the host have
emptied the mailboxes claimed before. -/
theorem ready_iff : exchange.senderCounter host sender = (setup.localWorkers host).length ↔
      ∀ receiver, setup.hostOf receiver = host →
        ledger.releases sender receiver = ledger.waits host sender := by
  rw [(tracks.senderCounter host sender).full_iff]
  · simp [Setup.mem_localWorkers]
  · intro receiver here
    obtain rfl := setup.mem_localWorkers.mp here
    exact Nat.succ_le_succ (tracks.releases_le_waits sender receiver)

/-- Who has to wait for a sender's mailboxes waits for a worker that has not emptied its own. -/
theorem exists_unreleased (blocked : exchange.readyToSend setup host sender = none) :
    ∃ receiver, setup.hostOf receiver = host ∧
      ledger.releases sender receiver < ledger.waits host sender := by
  by_contra none
  push Not at none
  have full : exchange.senderCounter host sender = (setup.localWorkers host).length := by
    refine tracks.ready_iff.mpr fun receiver here => le_antisymm ?_ (none receiver here)
    subst here
    exact tracks.releases_le_waits sender receiver
  simp [readyToSend, full] at blocked

attribute [local simp] Ledger.wait reportIn_self report in
/-- Claiming the mailboxes of a sender. -/
theorem wait (ready : exchange.readyToSend setup host sender = some next) :
    Tracks setup id next (ledger.wait host sender) := by
  rw [readyToSend] at ready
  split at ready
  case isFalse => simp at ready
  case isTrue full =>
    obtain rfl := Option.some.inj ready
    have released := tracks.ready_iff.mp full
    refine { tracks with deliveries_le_waits := ?_, waits_le_releases := ?_, senderCounter := ?_ }
    · exact fun sender receiver =>
        (tracks.deliveries_le_waits sender receiver).trans (le_reportIn ..)
    · intro other receiver
      refine reportIn_le _ _ (tracks.waits_le_releases other receiver) fun here same => ?_
      obtain ⟨rfl, rfl⟩ := And.intro here same
      exact Nat.lt_succ_of_le (released receiver rfl).ge
    · intro place other
      by_cases same : place = host ∧ other = sender
      · obtain ⟨rfl, rfl⟩ := same
        simpa using (tracks.senderCounter place other).collect full
      · simpa [reportIn_apply, same] using tracks.senderCounter place other

/-! ## Delivery -/

variable (claimed : ledger.deliveries receiver sender < ledger.waits (setup.hostOf receiver) sender)

include claimed

/-- The round that is delivered into a claimed mailbox is the one that was taken out last,
so the mailbox is empty. -/
theorem deliveries_eq_takes : ledger.deliveries receiver sender = ledger.takes receiver sender := by
  have := tracks.ring sender receiver
  omega

/-- The round that is delivered into a claimed mailbox is the one it was claimed for. -/
theorem waits_eq :
    ledger.waits (setup.hostOf receiver) sender = ledger.deliveries receiver sender + 1 := by
  have := tracks.ring sender receiver
  omega

/-- Delivery into a claimed mailbox succeeds. -/
theorem deliver : ∃ next, exchange.deliver sender receiver
        (setup.arrived id (ledger.deliveries receiver sender) sender receiver) = some next ∧
      Tracks setup id next (ledger.deliver sender receiver) := by
  have round := tracks.deliveries_eq_takes claimed
  have empty : exchange.mailbox sender receiver = none := by
    rw [tracks.mailbox, if_pos round]
  refine ⟨_, by rw [Exchange.deliver, empty], ?_⟩
  refine { tracks with
    claims_le_deliveries := ?_, deliveries_le_waits := ?_, mailbox := ?_, receiverCounter := ?_ }
  · exact fun other target => (tracks.claims_le_deliveries other target).trans (le_reportIn ..)
  · intro other target
    refine reportIn_le _ _ (tracks.deliveries_le_waits other target) ?_
    rintro rfl rfl
    exact claimed
  · intro other target
    by_cases same : other = sender ∧ target = receiver
    · obtain ⟨rfl, rfl⟩ := same
      simp [Ledger.deliver, reportIn_apply, round]
    · simpa [Ledger.deliver, reportIn_apply, same, and_comm] using tracks.mailbox other target
  · intro target
    by_cases same : target = receiver
    · subst same
      simpa [Ledger.deliver, reportIn_self] using
        (tracks.receiverCounter target).report (nodup_finRange npeers) (mem_finRange sender)
    · simpa [Ledger.deliver, reportIn_of_ne, same] using tracks.receiverCounter target

omit claimed

/-! ## Receiving -/

/-- The counter of a receiver is complete exactly if every sender has filled its mailbox. -/
theorem received_iff : exchange.receiverCounter receiver = npeers ↔
      ∀ sender, ledger.deliveries receiver sender = ledger.claims receiver + 1 := by
  have full := (tracks.receiverCounter receiver).full_iff fun sender _ =>
    tracks.deliveries_le_claims sender receiver
  simpa using full

/-- A receiver that has to wait waits for a sender whose mailbox was not filled. -/
theorem exists_undelivered (blocked : exchange.mayReceive receiver = none) :
    ∃ sender, ledger.deliveries receiver sender = ledger.claims receiver := by
  by_contra none
  push Not at none
  have full : exchange.receiverCounter receiver = npeers := by
    refine tracks.received_iff.mpr fun sender => ?_
    have := none sender
    have := tracks.ring sender receiver
    omega
  simp [mayReceive, full] at blocked

/-- Claiming the mailboxes of a receiver. -/
theorem claim (ready : exchange.mayReceive receiver = some next) :
    Tracks setup id next (ledger.claim receiver) := by
  rw [mayReceive] at ready
  split at ready
  case isFalse => simp at ready
  case isTrue full =>
    obtain rfl := Option.some.inj ready
    have delivered := tracks.received_iff.mp full
    refine { tracks with takes_le_claims := ?_, claims_le_deliveries := ?_, receiverCounter := ?_ }
    · intro sender target
      refine (tracks.takes_le_claims sender target).trans ?_
      simp [Ledger.claim, report_apply]
    · intro sender target
      simp only [Ledger.claim, report_apply]
      split
      case isTrue same => rw [same, delivered]
      case isFalse => exact tracks.claims_le_deliveries sender target
    · intro target
      by_cases same : target = receiver
      · subst same
        simpa [Ledger.claim, report] using
          (tracks.receiverCounter target).collect (by simpa using full)
      · simpa [Ledger.claim, report, same] using tracks.receiverCounter target

/-- A claimed mailbox is full and holds the next round. -/
theorem take (claimed : ledger.takes receiver sender < ledger.claims receiver) :
    ∃ next, exchange.take sender receiver =
        some (setup.arrived id (ledger.takes receiver sender) sender receiver, next) ∧
      Tracks setup id next (ledger.take sender receiver) := by
  have full := tracks.mailbox sender receiver
  have ring := tracks.ring sender receiver
  rw [if_neg (by omega)] at full
  refine ⟨_, by rw [Exchange.take, full], ?_⟩
  refine { tracks with releases_le_takes := ?_, takes_le_claims := ?_, mailbox := ?_ }
  · exact fun other target => (tracks.releases_le_takes other target).trans (le_reportIn ..)
  · intro other target
    refine reportIn_le _ _ (tracks.takes_le_claims other target) ?_
    rintro rfl rfl
    exact claimed
  · intro other target
    by_cases same : other = sender ∧ target = receiver
    · obtain ⟨rfl, rfl⟩ := same
      have emptied : ledger.deliveries target other = ledger.takes target other + 1 := by omega
      simp [Ledger.take, reportIn_apply, emptied]
    · simpa [Ledger.take, reportIn_apply, same, and_comm] using tracks.mailbox other target

attribute [local simp] release Ledger.release reportIn_of_ne in
/-- Counting an emptied mailbox. -/
theorem release (taken : ledger.releases sender receiver < ledger.takes receiver sender) :
    Tracks setup id (exchange.release (setup.hostOf receiver) sender)
      (ledger.release sender receiver) := by
  refine { tracks with releases_le_takes := ?_, waits_le_releases := ?_, senderCounter := ?_ }
  · intro other target
    refine reportIn_le _ _ (tracks.releases_le_takes other target) ?_
    rintro rfl rfl
    exact taken
  · intro other target
    exact (tracks.waits_le_releases other target).trans (Nat.succ_le_succ (le_reportIn ..))
  · intro place other
    have counts := tracks.senderCounter place other
    have shifted : ∀ releases : Fin npeers → Nat, ∀ worker,
        (fun target => report releases worker target + 1) =
          report (fun target => releases target + 1) worker := by
      intro releases worker
      funext target
      simp only [report_apply]
      omega
    by_cases same : other = sender
    · subst same
      simp only [Ledger.release, reportIn_self, shifted]
      by_cases here : place = setup.hostOf receiver
      · subst here
        simpa using counts.report (setup.nodup_localWorkers _) (setup.mem_localWorkers.mpr rfl)
      · have elsewhere : receiver ∉ setup.localWorkers place := fun member =>
          here (setup.mem_localWorkers.mp member).symm
        simpa [here] using counts.report_of_notMem elsewhere
    · by_cases here : place = setup.hostOf receiver
      · subst here
        simpa [same] using counts
      · simpa [same, here] using counts

end Tracks

end

/-! ## Rounds in progress -/

variable {npeers : Nat} {H T : Type} (setup : Setup npeers H T)

/-- What a worker should receive in a round. -/
def Setup.received (id : ExchangeId) (round : Nat) (receiver : Fin npeers) : List T :=
  (finRange npeers).map fun sender => setup.values sender id round receiver

/-! ## What a call has done -/

namespace Call

/-- Whether the call has claimed the mailboxes to send to. -/
def began : Call npeers H T → Nat
  | .idle => 0
  | .waiting => 0
  | .sending _ => 1
  | .taking _ _ => 1
  | .releasing _ _ _ => 1

/-- Whether the call has claimed the mailboxes to receive from. -/
def claimed : Call npeers H T → Nat
  | .taking _ _ => 1
  | .releasing _ _ _ => 1
  | _ => 0

/-- The targets the call has not written to. -/
def targets : Call npeers H T → List (Target npeers H)
  | .sending targets => targets
  | _ => []

/-- The senders whose mailboxes the call has claimed and not emptied. -/
def untaken : Call npeers H T → List (Fin npeers)
  | .taking _ senders => senders
  | .releasing _ _ senders => senders
  | _ => []

/-- The senders whose mailboxes the call has claimed and not counted as empty. -/
def unreleased : Call npeers H T → List (Fin npeers)
  | .taking _ senders => senders
  | .releasing _ sender senders => sender :: senders
  | _ => []

/-- What the call has collected. -/
def data : Call npeers H T → List T
  | .taking data _ => data
  | .releasing data _ _ => data
  | _ => []

end Call

/-! ## What a call has collected -/

/-- What a worker has received, and is receiving, are the values of the rounds. -/
structure Collects (id : ExchangeId) (worker : Fin npeers)
    (returned : List (List T)) (call : Call npeers H T) : Prop where
  earlier : returned = (range returned.length).map fun round => setup.received id round worker
  collected : call.claimed = 1 → call.data ++
      call.untaken.map (fun sender => setup.values sender id returned.length worker) =
    setup.received id returned.length worker

namespace Collects

variable {setup : Setup npeers H T} {id : ExchangeId} {worker : Fin npeers}
  {returned : List (List T)} {call next : Call npeers H T}

section

variable (collects : Collects setup id worker returned call)

include collects

/-- Calls that have claimed nothing have collected nothing. -/
theorem of_unclaimed (unclaimed : next.claimed = 0) : Collects setup id worker returned next where
  earlier := collects.earlier
  collected := by simp [unclaimed]

/-- The loop starts with all senders to come. -/
theorem claim : Collects setup id worker returned (.taking [] (finRange npeers)) where
  earlier := collects.earlier
  collected _ := rfl

end

variable {data : List T} {sender : Fin npeers} {senders : List (Fin npeers)}

theorem take (collects : Collects setup id worker returned (.taking data (sender :: senders))) :
    Collects setup id worker returned
      (.releasing (data ++ [setup.values sender id returned.length worker]) sender senders) where
  earlier := collects.earlier
  collected _ := by simpa [Call.data, Call.untaken] using collects.collected rfl

theorem release (collects : Collects setup id worker returned (.releasing data sender senders)) :
    Collects setup id worker returned (.taking data senders) :=
  { collects with }

/-- A round that is over has collected the values of the round. -/
theorem finish (collects : Collects setup id worker returned (.taking data [])) :
    Collects setup id worker (returned ++ [data]) .idle where
  earlier := by
    have collected : data = setup.received id returned.length worker := by
      simpa [Call.data, Call.untaken] using collects.collected rfl
    rw [length_append, length_singleton, range_succ, map_append, ← collects.earlier, collected]
    rfl
  collected := by simp [claimed]

end Collects

variable [DecidableEq H]

/-! ## Targets -/

namespace Setup

variable (setup : Setup npeers H T) {sender : Fin npeers}

theorem mem_allHosts {host : H} : host ∈ setup.allHosts ↔ ∃ worker, setup.hostOf worker = host := by
  simp [allHosts]

theorem worker_mem_targets {receiver : Fin npeers} :
    .worker receiver ∈ setup.targets sender ↔ setup.hostOf receiver = setup.hostOf sender := by
  simp only [targets, mem_flatMap]
  constructor
  · rintro ⟨host, -, member⟩
    split at member
    case isTrue own =>
      obtain ⟨worker, here, same⟩ := mem_map.mp member
      cases same
      rw [setup.mem_localWorkers.mp here, own]
    case isFalse => simp at member
  · intro here
    refine ⟨setup.hostOf sender, setup.mem_allHosts.mpr ⟨sender, rfl⟩, ?_⟩
    rw [if_pos rfl]
    exact mem_map_of_mem (setup.mem_localWorkers.mpr here)

theorem host_mem_targets {host : H} : .host host ∈ setup.targets sender ↔
      host ≠ setup.hostOf sender ∧ ∃ worker, setup.hostOf worker = host := by
  simp only [targets, mem_flatMap]
  constructor
  · rintro ⟨place, known, member⟩
    split at member
    case isTrue => simp at member
    case isFalse elsewhere =>
      obtain rfl : host = place := by simpa using member
      exact ⟨elsewhere, setup.mem_allHosts.mp known⟩
  · rintro ⟨elsewhere, known⟩
    refine ⟨host, setup.mem_allHosts.mpr known, ?_⟩
    rw [if_neg elsewhere]
    exact mem_singleton_self _

theorem nodup_targets : (setup.targets sender).Nodup := by
  refine nodup_flatMap.mpr ⟨fun host _ => ?_, (nodup_dedup _).imp fun different => ?_⟩
  · split
    · refine (setup.nodup_localWorkers host).map fun first second same => ?_
      exact Target.worker.inj same
    · exact nodup_singleton _
  · intro target first second
    dsimp only at first second
    split at first <;> split at second <;> simp_all

variable (receiver : Fin npeers)

theorem count_worker (here : setup.hostOf receiver = setup.hostOf sender) :
    (setup.targets sender).count (.worker receiver) = 1 :=
  count_eq_one_of_mem setup.nodup_targets (setup.worker_mem_targets.mpr here)

theorem count_host (elsewhere : setup.hostOf receiver ≠ setup.hostOf sender) :
    (setup.targets sender).count (.host (setup.hostOf receiver)) = 1 :=
  count_eq_one_of_mem setup.nodup_targets (setup.host_mem_targets.mpr ⟨elsewhere, receiver, rfl⟩)

end Setup

/-! ## Calls and the ledger -/

/-- A worker's call and the number of rounds it has completed agree with the ledger. -/
structure Stands (setup : Setup npeers H T) (ledger : Ledger npeers H) (worker : Fin npeers)
    (completed : Nat) (call : Call npeers H T) : Prop where
  targets : List.Sublist call.targets (setup.targets worker)
  waits : ledger.waits (setup.hostOf worker) worker = completed + call.began
  deliveries : ∀ receiver, setup.hostOf receiver = setup.hostOf worker →
    ledger.deliveries receiver worker + call.targets.count (.worker receiver) =
      completed + call.began
  posts : ∀ receiver, setup.hostOf receiver ≠ setup.hostOf worker →
    ledger.posts (setup.hostOf receiver) worker +
      call.targets.count (.host (setup.hostOf receiver)) = completed + call.began
  claims : ledger.claims worker = completed + call.claimed
  takes : ∀ sender, ledger.takes worker sender + call.untaken.count sender = completed + call.claimed
  releases : ∀ sender,
    ledger.releases sender worker + call.unreleased.count sender = completed + call.claimed

namespace Stands

variable {setup : Setup npeers H T} {ledger : Ledger npeers H} {worker : Fin npeers}
  {completed : Nat} {call : Call npeers H T}

/-! ## What the others do -/

theorem new : Stands setup .new worker 0 .idle where
  targets := nil_sublist _
  waits := rfl
  deliveries _ _ := rfl
  posts _ _ := rfl
  claims := rfl
  takes _ := rfl
  releases _ := rfl

variable (stands : Stands setup ledger worker completed call)

include stands

variable {sender : Fin npeers}

theorem wait_other {host : H} (other : setup.hostOf worker = host → worker ≠ sender) :
    Stands setup (ledger.wait host sender) worker completed call :=
  { stands with
    waits := by
      have notHere : ¬ (setup.hostOf worker = host ∧ worker = sender) := fun both => other both.1 both.2
      simpa [Ledger.wait, reportIn_apply, notHere] using stands.waits }

variable {receiver : Fin npeers}

theorem deliver_other (other : setup.hostOf receiver = setup.hostOf worker → worker ≠ sender) :
    Stands setup (ledger.deliver sender receiver) worker completed call :=
  { stands with
    deliveries := by
      intro target here
      have notSame : ¬ (target = receiver ∧ worker = sender) := by
        rintro ⟨rfl, same⟩
        exact other here same
      simpa [Ledger.deliver, reportIn_apply, notSame] using stands.deliveries target here }

theorem post_other (other : worker ≠ sender) (host : H) :
    Stands setup (ledger.post host sender) worker completed call :=
  { stands with
    posts := by
      intro target elsewhere
      simpa [Ledger.post, reportIn_apply, other] using stands.posts target elsewhere }

section

variable (other : worker ≠ receiver)

include other

theorem claim_other : Stands setup (ledger.claim receiver) worker completed call :=
  { stands with
    claims := by simpa [Ledger.claim, report_apply, other] using stands.claims }

variable (sender : Fin npeers)

theorem take_other : Stands setup (ledger.take sender receiver) worker completed call :=
  { stands with
    takes := by
      intro someone
      simpa [Ledger.take, reportIn_apply, other] using stands.takes someone }

theorem release_other : Stands setup (ledger.release sender receiver) worker completed call :=
  { stands with
    releases := by
      intro someone
      simpa [Ledger.release, reportIn_apply, other] using stands.releases someone }

end

omit stands

/-! ## What the worker does -/

/-- Starting a round changes nothing but the call. -/
theorem start (stands : Stands setup ledger worker completed .idle) :
    Stands setup ledger worker completed .waiting :=
  { stands with }

theorem wait (stands : Stands setup ledger worker completed .waiting) :
    Stands setup (ledger.wait (setup.hostOf worker) worker) worker completed
      (.sending (setup.targets worker)) :=
  { stands with
    targets := List.Sublist.refl _
    waits := by
      have := stands.waits
      simp only [Ledger.wait, reportIn_apply, Call.began, and_self, if_true] at this ⊢
      omega
    deliveries := by
      intro receiver here
      have := stands.deliveries receiver here
      simp only [Ledger.wait, Call.targets, Call.began, count_nil,
        setup.count_worker receiver here] at this ⊢
      omega
    posts := by
      intro receiver elsewhere
      have := stands.posts receiver elsewhere
      simp only [Ledger.wait, Call.targets, Call.began, count_nil,
        setup.count_host receiver elsewhere] at this ⊢
      omega }

variable {targets : List (Target npeers H)}

theorem deliver
    (stands : Stands setup ledger worker completed (.sending (.worker receiver :: targets))) :
    Stands setup (ledger.deliver worker receiver) worker completed (.sending targets) :=
  { stands with
    targets := (sublist_cons_self _ _).trans stands.targets
    deliveries := by
      intro target here
      have := stands.deliveries target here
      simp only [Ledger.deliver, reportIn_apply, Call.targets, Call.began, count_cons, beq_iff_eq,
        Target.worker.injEq, and_true, eq_comm (a := receiver)] at this ⊢
      omega
    posts := by
      intro target elsewhere
      simpa [Ledger.deliver, Call.targets, Call.began] using stands.posts target elsewhere }

theorem post {host : H}
    (stands : Stands setup ledger worker completed (.sending (.host host :: targets))) :
    Stands setup (ledger.post host worker) worker completed (.sending targets) :=
  { stands with
    targets := (sublist_cons_self _ _).trans stands.targets
    deliveries := by
      intro target here
      simpa [Ledger.post, Call.targets, Call.began] using stands.deliveries target here
    posts := by
      intro target elsewhere
      have := stands.posts target elsewhere
      simp only [Ledger.post, reportIn_apply, Call.targets, Call.began, count_cons, beq_iff_eq,
        Target.host.injEq, and_true, eq_comm (a := host)] at this ⊢
      omega }

theorem claim (stands : Stands setup ledger worker completed (.sending [])) :
    Stands setup (ledger.claim worker) worker completed (.taking [] (finRange npeers)) :=
  { stands with
    claims := by
      have := stands.claims
      simp only [Ledger.claim, report_apply, claimed, if_true] at this ⊢
      omega
    takes := by
      intro sender
      have := stands.takes sender
      simp_all [Ledger.claim, claimed, Call.untaken]
    releases := by
      intro sender
      have := stands.releases sender
      simp_all [Ledger.claim, claimed, unreleased] }

variable {data : List T} {senders : List (Fin npeers)}

theorem take (stands : Stands setup ledger worker completed (.taking data (sender :: senders)))
    (item : T) :
    Stands setup (ledger.take sender worker) worker completed
      (.releasing (data ++ [item]) sender senders) :=
  { stands with
    takes := by
      intro someone
      have := stands.takes someone
      simp only [Ledger.take, reportIn_apply, Call.untaken, claimed, count_cons, true_and,
        beq_iff_eq, eq_comm (a := sender)] at this ⊢
      omega }

theorem release (stands : Stands setup ledger worker completed (.releasing data sender senders)) :
    Stands setup (ledger.release sender worker) worker completed (.taking data senders) :=
  { stands with
    releases := by
      intro someone
      have := stands.releases someone
      simp only [Ledger.release, reportIn_apply, unreleased, claimed, count_cons,
        and_true, beq_iff_eq, eq_comm (a := sender)] at this ⊢
      omega }

theorem finish (stands : Stands setup ledger worker completed (.taking data [])) :
    Stands setup ledger worker (completed + 1) .idle :=
  { stands with }

/-! ## What the ledger says about a call -/

theorem posts_le (stands : Stands setup ledger worker completed call)
    (elsewhere : setup.hostOf receiver ≠ setup.hostOf worker) :
    ledger.posts (setup.hostOf receiver) worker ≤ ledger.waits (setup.hostOf worker) worker := by
  have := stands.posts receiver elsewhere
  have := stands.waits
  omega

/-- The next message a worker puts on its way is that of the current round. -/
theorem posts_eq {targets : List (Target npeers H)}
    (stands : Stands setup ledger worker completed
      (.sending (.host (setup.hostOf receiver) :: targets))) :
    ledger.posts (setup.hostOf receiver) worker = completed := by
  have elsewhere := (setup.host_mem_targets.mp (stands.targets.subset mem_cons_self)).1
  have := stands.posts receiver elsewhere
  have once := nodup_iff_count_le_one.mp (setup.nodup_targets.sublist stands.targets)
    (.host (setup.hostOf receiver))
  simp only [Call.targets, Call.began, count_cons_self] at this once
  omega

theorem completed_le_claims (stands : Stands setup ledger worker completed call) :
    completed ≤ ledger.claims worker := by
  have := stands.claims
  omega

end Stands

end OpenDera.Communication
