import OpenDera.Communication.Exchange
import OpenDera.Communication.Shard

/-!
# The sharded accumulator

Every worker cuts its batches by the hash of the keys and delivers the parts to the receive
queues of all workers, the last batch of a transaction with a flush mark. A queue holds one
spine for each transaction that some sender has reached and that was not handed out yet; a
sender's next batch goes to the spine that its number of flushes selects, counted from the
spines handed out. The spine in front is handed out once every sender has flushed it.

The scheduler runs the receiver after the sender within a step, tells it to flush once the
sender was flushed, and asks it after each evaluation whether its flush is complete. Parts
for other hosts travel over a connection that keeps their order; here every pair of workers
has a channel, and a part leaves it at any later time.
-/

namespace OpenDera.ShardedAccumulator

open Function

open Communication (Codec)

variable {K V : Type*} [LinearOrder K] [LinearOrder V]

/-! ## Receive queues -/

/-- A spine under construction and the number of senders that have not flushed it.
The spine stands for the sum of the batches inserted into it. -/
structure RxqEntry (K V : Type*) [LinearOrder K] [LinearOrder V] where
  nUnflushed : Nat
  spine : IndexedZSet K V

/-- The receive queue of one worker. -/
structure Rxq (npeers : Nat) (K V : Type*) [LinearOrder K]
    [LinearOrder V] where
  spines : List (RxqEntry K V)
  nFlushes : Fin npeers → Nat
  nReceived : Nat

/-- An empty spine that no sender has flushed. -/
def RxqEntry.new (npeers : Nat) : RxqEntry K V :=
  { nUnflushed := npeers, spine := 0 }

/-- The queue of a worker that has received nothing. -/
def Rxq.new (npeers : Nat) : Rxq npeers K V :=
  { spines := [RxqEntry.new npeers], nFlushes := fun _ => 0, nReceived := 0 }

section

variable {npeers : Nat} (rxq : Rxq npeers K V) (sender : Fin npeers) (batch : IndexedZSet K V)

/-- Insert a batch into the spine its sender has reached. The subtractions are
unsigned and the queue is indexed, so each of them may fail. -/
def Rxq.deliver (flush : Bool) : Option (Rxq npeers K V) :=
  if rxq.nReceived ≤ rxq.nFlushes sender then
    let index := rxq.nFlushes sender - rxq.nReceived
    match rxq.spines[index]? with
    | none => none
    | some entry =>
      let inserted := { entry with spine := entry.spine + batch }
      if flush then
        if entry.nUnflushed = 0 then
          none
        else
          let spines := rxq.spines.set index { inserted with nUnflushed := entry.nUnflushed - 1 }
          some { rxq with
            spines := if spines.length ≤ index + 1 then spines ++ [RxqEntry.new npeers] else spines
            nFlushes := update rxq.nFlushes sender (rxq.nFlushes sender + 1) }
      else
        some { rxq with spines := rxq.spines.set index inserted }
  else
    none

/-- Hand out the spine in front if every sender has flushed it. -/
def Rxq.receive : Option (IndexedZSet K V) × Rxq npeers K V :=
  match rxq.spines with
  | [] => (none, rxq)
  | entry :: spines =>
    if entry.nUnflushed = 0 then
      (some entry.spine, { rxq with spines := spines, nReceived := rxq.nReceived + 1 })
    else
      (none, rxq)

/-- Deliver a batch to a queue, unless it is empty and does not end a transaction. -/
def deliver (flush : Bool) : Option (Rxq npeers K V) :=
  if flush ∨ batch ≠ 0 then rxq.deliver sender batch flush else some rxq

end

/-! ## Parts in transit -/

/-- A part on its way: as it is within a host, as bytes between hosts. -/
inductive Mailbox (K V : Type*) [LinearOrder K] [LinearOrder V] where
  | plain (batch : IndexedZSet K V) (flush : Bool)
  | tx (data : List UInt8)

/-- Take the flush mark off the end of the received bytes. -/
def popFlushed (data : List UInt8) : Option (Bool × List UInt8) :=
  match data.getLast? with
  | some 0 => some (false, data.dropLast)
  | some 1 => some (true, data.dropLast)
  | _ => none

/-- Prepare a part for the receiver; for another host the flush mark follows the
serialized batch. -/
def pack (codec : Codec (IndexedZSet K V)) (sameHost : Bool) (batch : IndexedZSet K V)
    (flush : Bool) : Mailbox K V :=
  if sameHost then .plain batch flush else .tx (codec.serialize batch ++ [flush.toUInt8])

/-- The batch and the flush mark of a part that arrives. -/
def unpack (codec : Codec (IndexedZSet K V)) : Mailbox K V → Option (IndexedZSet K V × Bool)
  | .plain batch flush => some (batch, flush)
  | .tx data =>
    match popFlushed data with
    | none => none
    | some (flush, data) => (codec.deserialize data).map fun batch => (batch, flush)

/-! ## The workers -/

/-- Where a worker's scheduler stands within a transaction. -/
inductive Stage where
  /-- The sender was not told to flush yet. -/
  | started
  /-- The sender was told to flush, its next batch is the last one. -/
  | senderFlushing
  /-- The last batch was sent; the receiver is told to flush before it runs again. -/
  | senderFlushed
  /-- The receiver was told to flush and has not reported completion. -/
  | receiverFlushing
  /-- The receiver has reported completion. -/
  | receiverFlushed
  deriving DecidableEq

/-- The two operators of one worker, its scheduler's stage, and a record of what it
received and how many spines it had received at each report of a completed flush. -/
structure Worker (K V : Type*) [LinearOrder K] [LinearOrder V] where
  senderFlush : Bool := false
  receiverFlushed : Bool := false
  stage : Stage := .started
  received : List (IndexedZSet K V) := []
  reports : List Nat := []

/-- All workers, their receive queues, and the parts that were sent and not yet
delivered, by sender and receiver. -/
structure System (npeers : Nat) (K V : Type*) [LinearOrder K]
    [LinearOrder V] where
  worker : Fin npeers → Worker K V
  rxq : Fin npeers → Rxq npeers K V
  channel : Fin npeers → Fin npeers → List (Mailbox K V)

/-- The state before the first transaction. -/
def System.new (npeers : Nat) : System npeers K V :=
  { worker := fun _ => {}, rxq := fun _ => Rxq.new npeers, channel := fun _ _ => [] }

/-- What can happen next, at some worker or between two of them. -/
inductive Event (npeers : Nat) (K V : Type*) [LinearOrder K]
    [LinearOrder V] where
  /-- The scheduler tells the sender to flush. -/
  | flushSender (worker : Fin npeers)
  /-- The sender is evaluated on a batch. -/
  | evalSender (worker : Fin npeers) (batch : IndexedZSet K V)
  /-- The oldest part on the way from `sender` to `receiver` is delivered. -/
  | deliver (sender receiver : Fin npeers)
  /-- A local sender looks for the last spine of a queue to wait for its merges. -/
  | backpressure (receiver : Fin npeers)
  /-- The scheduler tells the receiver to flush. -/
  | flushReceiver (worker : Fin npeers)
  /-- The receiver is evaluated and asked whether its flush is complete. -/
  | evalReceiver (worker : Fin npeers)
  /-- The worker's transaction is committed. -/
  | commitComplete (worker : Fin npeers)

section

variable {npeers : Nat} (system : System npeers K V) (index : Fin npeers)

/-- Replace the state of one worker. -/
def System.setWorker (worker : Worker K V) : System npeers K V :=
  { system with worker := update system.worker index worker }

/-- Replace the receive queue of one worker. -/
def System.setRxq (rxq : Rxq npeers K V) : System npeers K V :=
  { system with rxq := update system.rxq index rxq }

/-- Append one part to the channel to each receiver. -/
def System.send (sender : Fin npeers) (parts : Fin npeers → Mailbox K V) : System npeers K V :=
  { system with
    channel := update system.channel sender fun receiver =>
      system.channel sender receiver ++ [parts receiver] }

variable (worker : Worker K V)

/-- Evaluate the sender: the batch carries the flush mark if a flush is due. -/
def Worker.evalSender : Worker K V :=
  { worker with
    senderFlush := false
    stage := if worker.senderFlush then .senderFlushed else worker.stage }

/-- Evaluate the receiver on what its queue hands out. -/
def Worker.evalReceiver (output : Option (IndexedZSet K V)) : Worker K V :=
  match output with
  | none => worker
  | some spine =>
    { worker with receiverFlushed := true, received := worker.received ++ [spine] }

/-- Ask the receiver whether the flush it was told to make is complete. -/
def Worker.pollReceiver : Worker K V :=
  if worker.stage = .receiverFlushing ∧ worker.receiverFlushed then
    { worker with
      stage := .receiverFlushed
      reports := worker.reports ++ [worker.received.length] }
  else
    worker

variable [NeZero npeers]

/-- One event. It fails where the code would panic; an event that cannot occur at
the worker's stage, or a delivery from an empty channel, changes nothing. -/
def step (defaultHash : K → Nat) (host : Fin npeers → Nat) (codec : Codec (IndexedZSet K V))
    (system : System npeers K V) : Event npeers K V → Option (System npeers K V)
  | .flushSender index =>
    let worker := system.worker index
    if worker.stage = .started then
      some (system.setWorker index { worker with senderFlush := true, stage := .senderFlushing })
    else
      some system
  | .evalSender index batch => do
      let worker := system.worker index
      let parts ← shardBatch defaultHash batch
      let sent := system.send index fun receiver =>
        pack codec (host index = host receiver) (parts receiver) worker.senderFlush
      return sent.setWorker index worker.evalSender
  | .deliver sender receiver =>
    match system.channel sender receiver with
    | [] => some system
    | part :: parts => do
        let (batch, flush) ← unpack codec part
        let rxq ← ShardedAccumulator.deliver (system.rxq receiver) sender batch flush
        return { system.setRxq receiver rxq with
          channel := update system.channel sender
            (update (system.channel sender) receiver parts) }
  | .backpressure receiver =>
    match (system.rxq receiver).spines.getLast? with
    | none => none
    | some _ => some system
  | .flushReceiver index =>
    let worker := system.worker index
    if worker.stage = .senderFlushed then
      some (system.setWorker index
        { worker with receiverFlushed := false, stage := .receiverFlushing })
    else
      some system
  | .evalReceiver index =>
    let worker := system.worker index
    if worker.stage = .senderFlushed then
      some system
    else
      let (output, rxq) := (system.rxq index).receive
      some ((system.setRxq index rxq).setWorker index (worker.evalReceiver output).pollReceiver)
  | .commitComplete index =>
    let worker := system.worker index
    if worker.stage = .receiverFlushed then
      some (system.setWorker index { worker with stage := .started })
    else
      some system

end

end OpenDera.ShardedAccumulator
