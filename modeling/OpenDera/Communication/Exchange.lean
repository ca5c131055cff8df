import Mathlib.Data.List.Dedup
import Mathlib.Data.List.FinRange
import Mathlib.Logic.Encodable.Basic

/-!
# Exchanges between workers

An exchange moves one value from every worker to every worker per round. The receiving
host keeps a mailbox for each sender and receiver, a counter of full mailboxes for each
receiver, and a counter of empty ones for each sender. A sender waits until its mailboxes
on the own host are empty and fills them; the values for another host travel as one message
over a connection, where a server waits for the mailboxes and fills them. A receiver waits
until its mailboxes are full and empties them one by one.

A waiting task is woken when the counter reaches the awaited value and tests it again, so
waiting is an event that is possible once the counter has that value.
-/

namespace OpenDera.Communication

open Function

/-- Identifies an exchange within a circuit. -/
abbrev ExchangeId := Nat

/-! ## What is fixed -/

/-- How values are written for another host and read back there. -/
structure Codec (T : Type*) where
  serialize : T → List UInt8
  deserialize : List UInt8 → Option T
  deserialize_serialize : ∀ value, deserialize (serialize value) = some value

/-- The number of a value in unary. -/
def Codec.unary (T : Type*) [Encodable T] : Codec T where
  serialize value := List.replicate (Encodable.encode value) 0
  deserialize bytes := Encodable.decode bytes.length
  deserialize_serialize value := by simp

/-- A stretch of the program that all workers run: a step of the circuit with the
broadcast that ends it. Every worker runs each of `exchanges` once, as soon as the
earlier ones it needs are done and otherwise in any order and overlapping; the exchange
`ending` follows when all of them are done, and the next phase when it is done. A program
that runs its exchanges one after the other, possibly some of them several times, consists
of phases that have only an ending. -/
structure Phase where
  exchanges : List ExchangeId
  needs : ExchangeId → ExchangeId → Bool
  ending : ExchangeId
  nodup : exchanges.Nodup
  ending_notMem : ending ∉ exchanges

/-- The workers and their hosts, the program they run and the values they send:
`values sender id round receiver`. -/
structure Setup (npeers : Nat) (H T : Type) where
  hostOf : Fin npeers → H
  codec : Codec T
  phase : Nat → Option Phase
  values : Fin npeers → ExchangeId → Nat → Fin npeers → T

/-- Where a sender writes next: a mailbox of the own host or the connection to another one. -/
inductive Target (npeers : Nat) (H : Type) where
  | worker (receiver : Fin npeers)
  | host (host : H)
  deriving DecidableEq

variable {npeers : Nat} {H T : Type}

namespace Setup

variable [DecidableEq H] (setup : Setup npeers H T)

/-- The workers of a host, in order. -/
def localWorkers (host : H) : List (Fin npeers) :=
  (List.finRange npeers).filter fun worker => setup.hostOf worker = host

/-- The hosts, in the order of their workers. -/
def allHosts : List H :=
  ((List.finRange npeers).map setup.hostOf).dedup

/-- What a sender writes to, host by host. -/
def targets (sender : Fin npeers) : List (Target npeers H) :=
  setup.allHosts.flatMap fun host =>
    if host = setup.hostOf sender then
      (setup.localWorkers host).map .worker
    else
      [.host host]

end Setup

/-! ## Mailboxes and counters -/

/-- A value in transit: serialized to be sent, serialized as received, or as it is. -/
inductive Mailbox (T : Type) where
  | tx (bytes : List UInt8)
  | rx (bytes : List UInt8)
  | plain (item : T)

def Mailbox.intoTx : Mailbox T → Option (List UInt8)
  | .tx bytes => some bytes
  | .rx _ => none
  | .plain _ => none

/-- The value in a mailbox; a receiver never meets a value that is only to be sent. -/
def Mailbox.deserialize (codec : Codec T) : Mailbox T → Option T
  | .plain item => some item
  | .tx _ => none
  | .rx bytes => codec.deserialize bytes

/-- What a sender hands over for a receiver: serialized if it is on another host. -/
def Setup.item [DecidableEq H] (setup : Setup npeers H T) (id : ExchangeId) (round : Nat)
    (sender receiver : Fin npeers) : Mailbox T :=
  if setup.hostOf receiver = setup.hostOf sender then
    .plain (setup.values sender id round receiver)
  else
    .tx (setup.codec.serialize (setup.values sender id round receiver))

/-- The mailboxes and counters of an exchange on all hosts. The mailbox of a sender and a
receiver and the counter of a receiver are on the receiver's host; every host counts the
empty mailboxes of every sender. -/
structure Exchange (npeers : Nat) (H T : Type) where
  mailbox : Fin npeers → Fin npeers → Option (Mailbox T)
  receiverCounter : Fin npeers → Nat
  senderCounter : H → Fin npeers → Nat

namespace Exchange

variable [DecidableEq H] (setup : Setup npeers H T)

/-- An exchange before its first round. -/
def new : Exchange npeers H T :=
  { mailbox := fun _ _ => none
    receiverCounter := fun _ => 0
    senderCounter := fun host _ => (setup.localWorkers host).length }

/-- Claim the mailboxes of a sender on a host if all of them are empty. -/
def readyToSend (exchange : Exchange npeers H T) (host : H)
    (sender : Fin npeers) : Option (Exchange npeers H T) :=
  if exchange.senderCounter host sender = (setup.localWorkers host).length then
    some { exchange with
      senderCounter := update exchange.senderCounter host
        (update (exchange.senderCounter host) sender 0) }
  else
    none

variable (exchange : Exchange npeers H T) (sender receiver : Fin npeers)

/-- Fill a mailbox, which has to be empty, and count it. -/
def deliver (item : Mailbox T) : Option (Exchange npeers H T) :=
  match exchange.mailbox sender receiver with
  | some _ => none
  | none =>
    some { exchange with
      mailbox := update exchange.mailbox sender
        (update (exchange.mailbox sender) receiver (some item))
      receiverCounter := update exchange.receiverCounter receiver
        (exchange.receiverCounter receiver + 1) }

/-- Claim the mailboxes of a receiver if all of them are full. -/
def mayReceive (receiver : Fin npeers) : Option (Exchange npeers H T) :=
  if exchange.receiverCounter receiver = npeers then
    some { exchange with
      receiverCounter := update exchange.receiverCounter receiver 0 }
  else
    none

/-- Empty a mailbox, which has to be full. -/
def take : Option (Mailbox T × Exchange npeers H T) :=
  match exchange.mailbox sender receiver with
  | none => none
  | some mailbox =>
    some (mailbox, { exchange with
      mailbox := update exchange.mailbox sender (update (exchange.mailbox sender) receiver none) })

/-- Count an empty mailbox of a sender on a host. -/
def release (host : H) (sender : Fin npeers) : Exchange npeers H T :=
  { exchange with
    senderCounter := update exchange.senderCounter host (update (exchange.senderCounter host) sender
        (exchange.senderCounter host sender + 1)) }

end Exchange

/-! ## Workers and servers -/

/-- Where a worker stands in its current round of an exchange. -/
inductive Call (npeers : Nat) (H T : Type) where
  /-- In none. -/
  | idle
  /-- In `send_all`, before the mailboxes on the own host were claimed. -/
  | waiting
  /-- In `send_all` while targets are left, then in `receive_all` before the mailboxes
  were claimed. -/
  | sending (targets : List (Target npeers H))
  /-- In `receive_all`, before the next mailbox is emptied. -/
  | taking (data : List T) (senders : List (Fin npeers))
  /-- In `receive_all`, before the mailbox just emptied is counted. -/
  | releasing (data : List T) (sender : Fin npeers) (senders : List (Fin npeers))

/-- What a sender tells another host in a round, with one item for each of its workers. -/
structure Message (npeers : Nat) where
  exchangeId : ExchangeId
  sender : Fin npeers
  data : List (List UInt8)

/-- What the server at the end of a connection does. -/
inductive Serving (npeers : Nat) where
  | idle
  /-- In `received`, before the mailboxes of the message were claimed. -/
  | received (message : Message npeers)
  /-- In `received`, with mailboxes left to fill. -/
  | delivering (id : ExchangeId) (sender : Fin npeers) (remaining : List (Fin npeers × List UInt8))

/-- The state of all workers and hosts: the exchanges, the rounds in progress and what
the earlier ones returned, the phase of each worker and the exchanges of it that are
done, and the connections from host to host. -/
structure Network (npeers : Nat) (H T : Type) where
  exchange : ExchangeId → Exchange npeers H T
  call : ExchangeId → Fin npeers → Call npeers H T
  returned : ExchangeId → Fin npeers → List (List T)
  phase : Fin npeers → Nat
  done : Fin npeers → List ExchangeId
  queue : H → H → List (Message npeers)
  serving : H → H → Serving npeers

/-- The atomic steps of workers and servers. -/
inductive Event (npeers : Nat) (H : Type) where
  | call (worker : Fin npeers) (id : ExchangeId)
  | readyToSend (worker : Fin npeers) (id : ExchangeId)
  | send (worker : Fin npeers) (id : ExchangeId)
  | mayReceive (worker : Fin npeers) (id : ExchangeId)
  | take (worker : Fin npeers) (id : ExchangeId)
  | release (worker : Fin npeers) (id : ExchangeId)
  | finish (worker : Fin npeers) (id : ExchangeId)
  | accept (source target : H)
  | serverReady (source target : H)
  | serverDeliver (source target : H)

/-- What comes of an event: it is not possible yet, an assertion fails, or the state changes. -/
inductive Outcome (State : Type) where
  | blocked
  | failed
  | moved (state : State)

/-- The outcome of an attempt that has to wait until it succeeds. -/
def Outcome.ofWait {State Result : Type} (result : Option Result) (next : Result → State) :
    Outcome State :=
  match result with
  | none => .blocked
  | some result => .moved (next result)

/-- The outcome of an operation that must not fail. -/
def Outcome.ofAssert {State Result : Type} (result : Option Result) (next : Result → State) :
    Outcome State :=
  match result with
  | none => .failed
  | some result => .moved (next result)

namespace Network

variable [DecidableEq H] (setup : Setup npeers H T)

/-- Before the first round. -/
def new : Network npeers H T :=
  { exchange := fun _ => .new setup
    call := fun _ _ => .idle
    returned := fun _ _ => []
    phase := fun _ => 0
    done := fun _ => []
    queue := fun _ _ => []
    serving := fun _ _ => .idle }

variable (network : Network npeers H T)

def setCall (id : ExchangeId) (worker : Fin npeers) (call : Call npeers H T) : Network npeers H T :=
  { network with
    call := update network.call id (update (network.call id) worker call) }

def setExchange (id : ExchangeId) (exchange : Exchange npeers H T) : Network npeers H T :=
  { network with exchange := update network.exchange id exchange }

variable (source target : H)

def setQueue (queue : List (Message npeers)) : Network npeers H T :=
  { network with
    queue := update network.queue source (update (network.queue source) target queue) }

def setServing (serving : Serving npeers) : Network npeers H T :=
  { network with
    serving := update network.serving source (update (network.serving source) target serving) }

variable (worker : Fin npeers) (id : ExchangeId)

/-- Whether the program lets a worker start a round of an exchange. -/
def mayCall : Bool :=
  match setup.phase (network.phase worker) with
  | none => false
  | some phase =>
    if id = phase.ending then
      phase.exchanges.all (· ∈ network.done worker)
    else
      id ∈ phase.exchanges && id ∉ network.done worker &&
        (phase.exchanges.takeWhile (· ≠ id)).all fun earlier =>
          !phase.needs id earlier || earlier ∈ network.done worker

/-- `receive_all` returns; the ending of a phase starts the next one. -/
def finish (data : List T) : Network npeers H T :=
  let returned := { network with
    returned := update network.returned id
      (update (network.returned id) worker (network.returned id worker ++ [data])) }
  let idle := returned.setCall id worker .idle
  match setup.phase (network.phase worker) with
  | none => idle
  | some phase =>
    if id = phase.ending then
      { idle with
        phase := update network.phase worker (network.phase worker + 1)
        done := update network.done worker [] }
    else
      { idle with done := update network.done worker (id :: network.done worker) }

/-- Write to the next target of `send_all`. -/
def send (targets : List (Target npeers H)) : Target npeers H → Outcome (Network npeers H T)
  | .worker receiver =>
    let round := (network.returned id worker).length
    .ofAssert ((network.exchange id).deliver worker receiver (setup.item id round worker receiver))
      fun exchange => (network.setExchange id exchange).setCall id worker (.sending targets)
  | .host host =>
    let round := (network.returned id worker).length
    let items := (setup.localWorkers host).mapM fun receiver =>
      (setup.item id round worker receiver).intoTx
    .ofAssert items fun data =>
      let source := setup.hostOf worker
      (network.setQueue source host (network.queue source host ++ [⟨id, worker, data⟩])).setCall
        id worker (.sending targets)

/-- Empty the next mailbox of `receive_all`. -/
def take (worker : Fin npeers) (id : ExchangeId) (data : List T) (sender : Fin npeers)
    (senders : List (Fin npeers)) : Outcome (Network npeers H T) :=
  let taken := do
    let (mailbox, exchange) ← (network.exchange id).take sender worker
    let item ← mailbox.deserialize setup.codec
    pure (item, exchange)
  .ofAssert taken fun (item, exchange) =>
    (network.setExchange id exchange).setCall id worker (.releasing (data ++ [item]) sender senders)

/-- What comes of an event. -/
def attempt : Event npeers H → Outcome (Network npeers H T)
  | .call worker id =>
    match network.call id worker with
    | .idle =>
      if network.mayCall setup worker id then
        .moved (network.setCall id worker .waiting)
      else
        .blocked
    | _ => .blocked
  | .readyToSend worker id =>
    match network.call id worker with
    | .waiting =>
      .ofWait ((network.exchange id).readyToSend setup (setup.hostOf worker) worker) fun exchange =>
        (network.setExchange id exchange).setCall id worker (.sending (setup.targets worker))
    | _ => .blocked
  | .send worker id =>
    match network.call id worker with
    | .sending (target :: targets) => network.send setup worker id targets target
    | _ => .blocked
  | .mayReceive worker id =>
    match network.call id worker with
    | .sending [] =>
      .ofWait ((network.exchange id).mayReceive worker) fun exchange =>
        (network.setExchange id exchange).setCall id worker (.taking [] (List.finRange npeers))
    | _ => .blocked
  | .take worker id =>
    match network.call id worker with
    | .taking data (sender :: senders) => network.take setup worker id data sender senders
    | _ => .blocked
  | .release worker id =>
    match network.call id worker with
    | .releasing data sender senders =>
      let exchange := (network.exchange id).release (setup.hostOf worker) sender
      .moved ((network.setExchange id exchange).setCall id worker (.taking data senders))
    | _ => .blocked
  | .finish worker id =>
    match network.call id worker with
    | .taking data [] => .moved (network.finish setup worker id data)
    | _ => .blocked
  | .accept source target =>
    match network.serving source target, network.queue source target with
    | .idle, message :: queue =>
      .moved ((network.setQueue source target queue).setServing source target (.received message))
    | _, _ => .blocked
  | .serverReady source target =>
    match network.serving source target with
    | .received message =>
      .ofWait ((network.exchange message.exchangeId).readyToSend setup target message.sender)
        fun exchange =>
          (network.setExchange message.exchangeId exchange).setServing source target
            (.delivering message.exchangeId message.sender
              ((setup.localWorkers target).zip message.data))
    | _ => .blocked
  | .serverDeliver source target =>
    match network.serving source target with
    | .delivering id sender ((receiver, bytes) :: remaining) =>
      .ofAssert ((network.exchange id).deliver sender receiver (.rx bytes)) fun exchange =>
        (network.setExchange id exchange).setServing source target (.delivering id sender remaining)
    | .delivering _ _ [] => .moved (network.setServing source target .idle)
    | _ => .blocked

variable (event : Event npeers H)

/-- An event that is not possible leaves the state alone; a failed assertion ends the run. -/
def next : Option (Network npeers H T) :=
  match network.attempt setup event with
  | .blocked => some network
  | .failed => none
  | .moved next => some next

/-- An event that is possible. -/
def Enabled : Prop :=
  network.attempt setup event ≠ .blocked

end Network

end OpenDera.Communication
