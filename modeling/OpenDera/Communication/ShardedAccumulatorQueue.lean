import Mathlib.Algebra.BigOperators.Group.Finset.Piecewise
import Mathlib.Algebra.Order.BigOperators.Group.Finset
import Mathlib.Logic.Equiv.List
import OpenDera.Communication.ShardedAccumulator
import OpenDera.Std.Run
import OpenDera.Std.Segments

/-!
# What a receive queue accounts for

`Accounts` relates a receive queue to the streams delivered to it so far, sender by
sender, and to the spines handed out: the spine at position `index` holds the
segment number `nReceived + index` of every stream, and counts the senders that
have not finished that segment. A delivery always finds its spine, and the spine
that is handed out holds a finished segment of every stream.
-/

namespace OpenDera.ShardedAccumulator

open Segments Function List Run Finset
open Communication (Codec)

variable {K V : Type*} [LinearOrder K] [LinearOrder V] {npeers : Nat}

/-! ## A queue and the streams delivered to it -/

variable (streams : Fin npeers → List (IndexedZSet K V × Bool))

/-- What the senders' streams contribute to transaction `k`. -/
def gathered (k : Nat) : IndexedZSet K V :=
  ∑ sender, (segmentAt (streams sender) k).sum

variable (flushes : Fin npeers → Nat)

/-- The number of senders that have not finished transaction `k`. -/
def unfinished (k : Nat) : Nat :=
  (univ.filter fun sender => flushes sender ≤ k).card

/-- The queue accounts for the streams delivered to it and the spines handed out. -/
structure Accounts (streams : Fin npeers → List (IndexedZSet K V × Bool))
    (received : List (IndexedZSet K V)) (rxq : Rxq npeers K V) : Prop where
  flushes : ∀ sender, rxq.nFlushes sender = marks (streams sender)
  count : rxq.nReceived = received.length
  reached : ∀ sender, rxq.nReceived ≤ rxq.nFlushes sender
  queued : ∀ sender, rxq.nFlushes sender < rxq.nReceived + rxq.spines.length
  spines : ∀ index entry, rxq.spines[index]? = some entry →
    entry.spine = gathered streams (rxq.nReceived + index) ∧
      entry.nUnflushed = unfinished rxq.nFlushes (rxq.nReceived + index)
  handedOut : ∀ k spine, received[k]? = some spine → spine = gathered streams k

variable (sender : Fin npeers)

/-- A sum over all senders of which one has changed. -/
theorem sum_update {A M : Type*} [AddCommMonoid M] (measure : A → M) (family : Fin npeers → A)
    {changed : A} {gain : M} (grows : measure changed = measure (family sender) + gain) :
    ∑ other, measure (update family sender changed other) =
      (∑ other, measure (family other)) + gain := by
  have each : ∀ other, measure (update family sender changed other) =
      measure (family other) + if other = sender then gain else 0 := by
    intro other
    by_cases same : other = sender
    · simp [same, grows]
    · simp [same]
  simp [each, sum_add_distrib]

theorem gathered_append (batch : IndexedZSet K V) (flush : Bool) (k : Nat) :
    gathered (update streams sender (streams sender ++ [(batch, flush)])) k =
      gathered streams k + if k = marks (streams sender) then batch else 0 := by
  refine sum_update sender (fun stream => (segmentAt stream k).sum) streams ?_
  rw [segmentAt_append_singleton]
  split_ifs <;> simp

/-- Finishing the transaction a sender has reached leaves one sender fewer there. -/
theorem unfinished_update (sender : Fin npeers) (k : Nat) : unfinished flushes k =
      unfinished (update flushes sender (flushes sender + 1)) k +
        if k = flushes sender then 1 else 0 := by
  have grows : (if flushes sender ≤ k then 1 else 0) =
      (if update flushes sender (flushes sender + 1) sender ≤ k then 1 else 0) +
        if k = flushes sender then 1 else 0 := by
    rw [update_self]
    split_ifs <;> omega
  have total := sum_update sender (fun count => if count ≤ k then 1 else 0) _ grows
  rwa [update_idem, update_eq_self, ← card_filter, ← card_filter] at total

section

variable {streams} {received : List (IndexedZSet K V)} {rxq : Rxq npeers K V}

theorem accounts_new :
    Accounts (fun _ : Fin npeers => []) ([] : List (IndexedZSet K V)) (Rxq.new npeers) := by
  refine ⟨fun _ => rfl, rfl, fun _ => le_rfl, fun _ => by simp [Rxq.new], ?_, by simp⟩
  intro index entry found
  cases index with
  | zero =>
    obtain rfl : RxqEntry.new npeers = entry := by simpa [Rxq.new] using found
    simp [RxqEntry.new, Rxq.new, gathered, unfinished, segmentAt]
  | succ => simp [Rxq.new] at found

variable (accounts : Accounts streams received rxq)

include accounts

variable (batch : IndexedZSet K V) (flush : Bool)

/-- A spine that was handed out gains nothing from later deliveries. -/
theorem Accounts.handedOut_append (k : Nat) (spine : IndexedZSet K V) (found : received[k]? = some spine) :
    spine = gathered (update streams sender (streams sender ++ [(batch, flush)])) k := by
  have within : k < received.length := (List.getElem?_eq_some_iff.mp found).1
  have reached := accounts.reached sender
  rw [accounts.count, accounts.flushes] at reached
  rw [gathered_append, if_neg (by omega), add_zero]
  exact accounts.handedOut k spine found

variable {flushes : Fin npeers → Nat}

/-- The spine a delivery selects, when the senders' flushes become `flushes`. -/
theorem Accounts.spines_set {sender : Fin npeers} {entry : RxqEntry K V}
    (selected : rxq.spines[rxq.nFlushes sender - rxq.nReceived]? = some entry)
    (batch : IndexedZSet K V) (flush : Bool) {nUnflushed : Nat}
    (here : nUnflushed = unfinished flushes (rxq.nFlushes sender))
    (elsewhere : ∀ k, k ≠ rxq.nFlushes sender → unfinished rxq.nFlushes k = unfinished flushes k)
    (index : Nat) (other : RxqEntry K V)
    (found : (rxq.spines.set (rxq.nFlushes sender - rxq.nReceived)
      { nUnflushed := nUnflushed, spine := entry.spine + batch })[index]? = some other) :
    other.spine = gathered (update streams sender (streams sender ++ [(batch, flush)]))
        (rxq.nReceived + index) ∧
      other.nUnflushed = unfinished flushes (rxq.nReceived + index) := by
  have reached := accounts.reached sender
  rw [gathered_append, ← accounts.flushes]
  by_cases same : rxq.nFlushes sender - rxq.nReceived = index
  · subst same
    have within := (List.getElem?_eq_some_iff.mp selected).1
    have position : rxq.nReceived + (rxq.nFlushes sender - rxq.nReceived) = rxq.nFlushes sender := by
      omega
    rw [getElem?_set_self within, Option.some.injEq] at found
    subst found
    rw [position, if_pos rfl, ← position, ← (accounts.spines _ _ selected).1, position]
    exact ⟨rfl, here⟩
  · rw [getElem?_set_ne same] at found
    have apart : rxq.nReceived + index ≠ rxq.nFlushes sender := by omega
    obtain ⟨spine, unflushed⟩ := accounts.spines index other found
    rw [if_neg apart, add_zero, ← elsewhere _ apart]
    exact ⟨spine, unflushed⟩

/-- The spine that is appended behind the last one is empty and everyone's to flush. -/
theorem Accounts.spines_new {sender : Fin npeers} (batch : IndexedZSet K V) (flush : Bool)
    (last : rxq.spines.length ≤ rxq.nFlushes sender - rxq.nReceived + 1) :
    0 = gathered (update streams sender (streams sender ++ [(batch, flush)]))
        (rxq.nReceived + rxq.spines.length) ∧
      npeers = unfinished (update rxq.nFlushes sender (rxq.nFlushes sender + 1))
        (rxq.nReceived + rxq.spines.length) := by
  have queued := accounts.queued
  constructor
  · rw [gathered_append, ← accounts.flushes, if_neg (queued sender).ne', add_zero]
    refine (Finset.sum_eq_zero fun other _ => ?_).symm
    rw [segmentAt_eq_nil (streams other) (by rw [← accounts.flushes]; exact queued other), sum_nil]
  · have everyone : (univ.filter fun other =>
        update rxq.nFlushes sender (rxq.nFlushes sender + 1) other ≤
          rxq.nReceived + rxq.spines.length) = univ := by
      refine filter_true_of_mem fun other _ => ?_
      by_cases same : other = sender
      · subst same
        rw [update_self]
        exact queued other
      · rw [update_of_ne same]
        exact (queued other).le
    simp [unfinished, everyone]

/-- Delivering a batch finds its spine and extends the sender's stream. -/
theorem Accounts.rxqDeliver : ∃ next, rxq.deliver sender batch flush = some next ∧
      Accounts (update streams sender (streams sender ++ [(batch, flush)])) received
        next := by
  have reached := accounts.reached sender
  have queued := accounts.queued sender
  have within : rxq.nFlushes sender - rxq.nReceived < rxq.spines.length := by omega
  obtain ⟨entry, selected⟩ : ∃ entry, rxq.spines[rxq.nFlushes sender - rxq.nReceived]? = some entry :=
    ⟨_, getElem?_eq_getElem within⟩
  have unflushed := (accounts.spines _ _ selected).2
  rw [show rxq.nReceived + (rxq.nFlushes sender - rxq.nReceived) = rxq.nFlushes sender by omega]
    at unflushed
  have counts := unfinished_update rxq.nFlushes sender
  have marksOf : ∀ other, marks (update streams sender (streams sender ++ [(batch, flush)]) other) =
        rxq.nFlushes other + if other = sender then flush.toNat else 0 := by
    intro other
    rw [accounts.flushes]
    by_cases same : other = sender
    · subst same
      simp [marks]
    · simp [same]
  unfold Rxq.deliver
  rw [if_pos reached]
  simp only [selected]
  cases flush with
  | false =>
    refine ⟨_, rfl, ?_, accounts.count, accounts.reached, ?_, ?_,
      accounts.handedOut_append sender batch false⟩
    · intro other
      simp [marksOf]
    · simpa using accounts.queued
    · exact accounts.spines_set selected batch false unflushed fun _ _ => rfl
  | true =>
    have here := counts (rxq.nFlushes sender)
    rw [if_pos rfl] at here
    have some : entry.nUnflushed ≠ 0 := by omega
    rw [if_pos rfl, if_neg some]
    have kept := accounts.spines_set selected batch true
      (show entry.nUnflushed - 1 = unfinished (update rxq.nFlushes sender
        (rxq.nFlushes sender + 1)) (rxq.nFlushes sender) by omega)
      (fun k apart => by simpa [apart] using counts k)
    have flushed : ∀ other, update rxq.nFlushes sender (rxq.nFlushes sender + 1) other =
        rxq.nFlushes other + if other = sender then 1 else 0 := by
      intro other
      by_cases same : other = sender
      · subst same
        simp
      · simp [same]
    refine ⟨_, rfl, ?_, accounts.count, ?_, ?_, ?_, accounts.handedOut_append sender batch true⟩
    · intro other
      rw [marksOf]
      exact flushed other
    · intro other
      have reachedOther := accounts.reached other
      simp only [flushed]
      omega
    · intro other
      have queuedOther := accounts.queued other
      simp only [flushed, length_set]
      by_cases same : other = sender
      · subst same
        split_ifs <;> simp only [length_append, length_set, length_singleton] <;> omega
      · split_ifs <;> simp only [length_append, length_set, length_singleton] <;> omega
    · intro index other found
      split_ifs at found with last
      · rw [length_set] at last
        rw [getElem?_append] at found
        split_ifs at found with inside
        · exact kept index other found
        · rw [length_set] at inside
          obtain ⟨rfl, rfl⟩ : index = rxq.spines.length ∧ RxqEntry.new npeers = other := by
            rw [length_set, getElem?_singleton] at found
            split_ifs at found with first
            exact ⟨by omega, Option.some.inj found⟩
          exact accounts.spines_new batch true last
      · exact kept index other found

/-- A part that is not delivered because it is empty changes no account. -/
theorem Accounts.skip :
    Accounts (update streams sender (streams sender ++ [(0, false)])) received rxq := by
  have same : ∀ k, gathered (update streams sender (streams sender ++ [(0, false)])) k =
      gathered streams k := by
    intro k
    rw [gathered_append]
    split_ifs <;> exact add_zero _
  refine ⟨?_, accounts.count, accounts.reached, accounts.queued, ?_, ?_⟩
  · intro other
    rw [accounts.flushes, observe_update marks]
    simp [marks]
  · intro index entry found
    rw [same]
    exact accounts.spines index entry found
  · intro k spine found
    rw [same]
    exact accounts.handedOut k spine found

/-- Delivering a part, or skipping an empty one, extends the sender's stream. -/
theorem Accounts.deliver : ∃ next, ShardedAccumulator.deliver rxq sender batch flush = some next ∧
      Accounts (update streams sender (streams sender ++ [(batch, flush)])) received
        next := by
  unfold ShardedAccumulator.deliver
  split_ifs with needed
  · exact accounts.rxqDeliver sender batch flush
  · obtain ⟨notLast, empty⟩ := not_or.mp needed
    obtain rfl := not_not.mp empty
    obtain rfl := Bool.not_eq_true flush ▸ notLast
    exact ⟨rxq, rfl, accounts.skip sender⟩

omit accounts

theorem unfinished_eq_zero_iff {k : Nat} :
    unfinished flushes k = 0 ↔ ∀ sender, k < flushes sender := by
  simp [unfinished, filter_eq_empty_iff]

variable (accounts : Accounts streams received rxq)

include accounts

/-- The queue is never empty, so its last spine can always be asked for. -/
theorem Accounts.spines_ne_nil (receiver : Fin npeers) : rxq.spines ≠ [] := by
  intro empty
  have reached := accounts.reached receiver
  have queued := accounts.queued receiver
  rw [empty, length_nil] at queued
  omega

/-- Receiving hands out the gathered transaction once every sender has finished it,
and nothing before. -/
theorem Accounts.receive (receiver : Fin npeers) :
    Accounts streams (received ++ rxq.receive.1.toList) rxq.receive.2 ∧
      (rxq.receive.1.isSome ↔ ∀ sender, received.length < marks (streams sender)) := by
  obtain ⟨entry, spines, front⟩ := exists_cons_of_ne_nil (accounts.spines_ne_nil receiver)
  obtain ⟨spine, unflushed⟩ := accounts.spines 0 entry (by rw [front]; rfl)
  rw [add_zero] at spine unflushed
  have everyone : entry.nUnflushed = 0 ↔ ∀ sender, received.length < marks (streams sender) := by
    rw [unflushed, unfinished_eq_zero_iff, accounts.count]
    simp only [accounts.flushes]
  unfold Rxq.receive
  rw [front]
  by_cases finished : entry.nUnflushed = 0
  · simp only [if_pos finished, Option.toList_some, Option.isSome_some, true_iff]
    have ahead : ∀ sender, rxq.nReceived < rxq.nFlushes sender := by
      intro sender
      rw [accounts.count, accounts.flushes]
      exact everyone.mp finished sender
    refine ⟨⟨accounts.flushes, ?_, ahead, ?_, ?_, ?_⟩, everyone.mp finished⟩
    · simp [accounts.count]
    · intro sender
      have queued := accounts.queued sender
      rw [front, length_cons] at queued
      simp only
      omega
    · intro index other found
      have shifted := accounts.spines (index + 1) other (by rw [front]; exact found)
      rw [show rxq.nReceived + (index + 1) = rxq.nReceived + 1 + index by omega] at shifted
      exact shifted
    · intro k other found
      rw [getElem?_append] at found
      split_ifs at found with earlier
      · exact accounts.handedOut k other found
      · rw [getElem?_singleton] at found
        split_ifs at found with last
        rw [← Option.some.inj found, spine, accounts.count, show k = received.length by omega]
  · simp only [if_neg finished, Option.toList_none, append_nil]
    exact ⟨accounts, by simpa using fun all => finished (everyone.mpr all)⟩

end

/-! ## Parts in transit -/

theorem popFlushed_append (data : List UInt8) (flush : Bool) :
    popFlushed (data ++ [flush.toUInt8]) = some (flush, data) := by
  unfold popFlushed
  rw [getLast?_concat, dropLast_concat]
  cases flush <;> rfl

theorem unpack_pack (codec : Codec (IndexedZSet K V)) (sameHost : Bool) (batch : IndexedZSet K V)
    (flush : Bool) : unpack codec (pack codec sameHost batch flush) = some (batch, flush) := by
  unfold pack
  split_ifs
  · rfl
  · simp [unpack, popFlushed_append, codec.deserialize_serialize]

section

variable [NeZero npeers] (defaultHash : K → Nat) (host : Fin npeers → Nat) (codec : Codec (IndexedZSet K V))

/-- What a worker sent to `receiver`, part by part. -/
def partsFor (receiver : Fin npeers) (sent : List (IndexedZSet K V × Bool)) :
    List (IndexedZSet K V × Bool) :=
  sent.map fun entry => (shard defaultHash receiver entry.1, entry.2)

/-- Of what was sent to `receiver`, the queue accounts for the first part of every
stream and the channels hold the rest. -/
def Accounted (sent : Fin npeers → List (IndexedZSet K V × Bool))
    (channels : Fin npeers → List (Mailbox K V)) (receiver : Fin npeers)
    (received : List (IndexedZSet K V)) (rxq : Rxq npeers K V) : Prop :=
  ∃ streams pending : Fin npeers → List (IndexedZSet K V × Bool),
    (∀ sender, partsFor defaultHash receiver (sent sender) = streams sender ++ pending sender) ∧
    (∀ sender, channels sender = (pending sender).map fun entry =>
      pack codec (host sender = host receiver) entry.1 entry.2) ∧
    Accounts streams received rxq

variable {defaultHash host codec} {sent : Fin npeers → List (IndexedZSet K V × Bool)}
  {channels : Fin npeers → List (Mailbox K V)} {receiver : Fin npeers}
  {received : List (IndexedZSet K V)} {rxq : Rxq npeers K V}

theorem accounted_new (receiver : Fin npeers) :
    Accounted defaultHash host codec (fun _ => []) (fun _ => []) receiver [] (Rxq.new npeers) :=
  ⟨fun _ => [], fun _ => [], fun _ => rfl, fun _ => rfl, accounts_new⟩

variable (accounted : Accounted defaultHash host codec sent channels receiver received rxq)

include accounted

/-- Sending a batch puts its part at the end of the channel. -/
theorem Accounted.send (batch : IndexedZSet K V) (flush : Bool) :
    Accounted defaultHash host codec (update sent sender (sent sender ++ [(batch, flush)]))
      (update channels sender (channels sender ++
        [pack codec (host sender = host receiver) (shard defaultHash receiver batch) flush]))
      receiver received rxq := by
  obtain ⟨streams, pending, split, queued, accounts⟩ := accounted
  refine ⟨streams, update pending sender
    (pending sender ++ [(shard defaultHash receiver batch, flush)]), ?_, ?_, accounts⟩
  · intro other
    by_cases same : other = sender
    · subst same
      have splitHere := split other
      unfold partsFor at splitHere ⊢
      simp [splitHere]
    · simpa [same] using split other
  · intro other
    by_cases same : other = sender
    · subst same
      simp [queued other]
    · simp [same, queued other]

/-- The oldest part of a channel is read and delivered without failure. -/
theorem Accounted.deliver {sender : Fin npeers} {part : Mailbox K V}
    {parts : List (Mailbox K V)} (oldest : channels sender = part :: parts) :
    ∃ batch flush next, unpack codec part = some (batch, flush) ∧
      ShardedAccumulator.deliver rxq sender batch flush = some next ∧
      Accounted defaultHash host codec sent (update channels sender parts) receiver
        received next := by
  obtain ⟨streams, pending, split, queued, accounts⟩ := accounted
  have queuedHere := queued sender
  rw [oldest] at queuedHere
  obtain ⟨⟨batch, flush⟩, rest, waiting, rfl, rfl⟩ := map_eq_cons_iff.mp queuedHere.symm
  obtain ⟨next, delivered, nextAccounts⟩ := accounts.deliver sender batch flush
  refine ⟨batch, flush, next, unpack_pack codec _ batch flush, delivered,
    update streams sender (streams sender ++ [(batch, flush)]),
    update pending sender rest, ?_, ?_, nextAccounts⟩
  · intro other
    by_cases same : other = sender
    · subst same
      rw [update_self, update_self, split other, waiting]
      simp
    · simpa [same] using split other
  · intro other
    by_cases same : other = sender
    · subst same
      simp
    · simp [same, queued other]

theorem Accounted.receive :
    Accounted defaultHash host codec sent channels receiver (received ++ rxq.receive.1.toList)
      rxq.receive.2 := by
  obtain ⟨streams, pending, split, queued, accounts⟩ := accounted
  exact ⟨streams, pending, split, queued, (accounts.receive receiver).1⟩

/-- Every worker has flushed the transactions that were handed out. -/
theorem Accounted.length_le_marks : received.length ≤ marks (sent sender) := by
  obtain ⟨streams, pending, split, -, accounts⟩ := accounted
  have reached := accounts.reached sender
  have total := congrArg marks (split sender)
  rw [partsFor, marks_map, marks_append] at total
  rw [accounts.count, accounts.flushes] at reached
  omega

/-- A spine that was handed out is the sum of the parts of its transaction. -/
theorem Accounted.handedOut {k : Nat} {spine : IndexedZSet K V}
    (found : received[k]? = some spine) :
    spine = ∑ sender, ((segmentAt (sent sender) k).map (shard defaultHash receiver)).sum := by
  obtain ⟨streams, pending, split, -, accounts⟩ := accounted
  have within : k < received.length := (List.getElem?_eq_some_iff.mp found).1
  rw [accounts.handedOut k spine found]
  refine sum_congr rfl fun sender _ => ?_
  have reached := accounts.reached sender
  rw [accounts.count, accounts.flushes] at reached
  rw [← segmentAt_map, ← partsFor, split sender, segmentAt_append _ _ (by omega)]

end

/-! ## What the events ask for -/

/-- What the events give the workers to send: the batches with their flush marks, and whether
the next batch is to be marked. -/
abbrev Records (npeers : Nat) (K V : Type*) [LinearOrder K] [LinearOrder V] :=
  Fin npeers → List (IndexedZSet K V × Bool) × Bool

/-- What an event adds: a request to flush marks the next batch. -/
def recordEvent (records : Records npeers K V) : Event npeers K V → Records npeers K V
  | .flushSender index => update records index ((records index).1, true)
  | .evalSender index batch =>
    update records index ((records index).1 ++ [(batch, (records index).2)], false)
  | _ => records

/-- What a list of events gives the workers to send. -/
def recordOf (events : List (Event npeers K V)) : Records npeers K V :=
  events.foldl recordEvent fun _ => ([], false)

/-- A transaction is flushed once: a sender is not told to flush again before its worker has
committed. -/
def Permitted (system : System npeers K V) : Event npeers K V → Prop
  | .flushSender index => (system.worker index).stage = .started
  | _ => True

/-! ## The stages of a worker -/

/-- A worker is one flush ahead of the spines it received exactly while it waits for
the next one, and it has reported each spine when it received it. -/
structure Paced (record : List (IndexedZSet K V × Bool) × Bool) (worker : Worker K V) : Prop where
  due : worker.senderFlush = record.2
  flushing : worker.senderFlush = true ↔ worker.stage = .senderFlushing
  ahead : marks record.1 = worker.received.length +
    if worker.stage = .senderFlushed ∨ worker.stage = .receiverFlushing then 1 else 0
  waiting : worker.stage = .receiverFlushing → worker.receiverFlushed = false
  reported : worker.reports = range' 1 worker.received.length

theorem paced_new : Paced ([], false) ({} : Worker K V) :=
  ⟨rfl, by simp, rfl, by simp, rfl⟩

variable {record : List (IndexedZSet K V × Bool) × Bool} {worker : Worker K V}

theorem Paced.evalSender (paced : Paced record worker) (batch : IndexedZSet K V) :
    Paced (record.1 ++ [(batch, record.2)], false) worker.evalSender := by
  have flushing := paced.flushing
  have ahead := paced.ahead
  rw [← paced.due]
  unfold Worker.evalSender
  cases due : worker.senderFlush with
  | false =>
    refine ⟨rfl, ?_, ?_, paced.waiting, paced.reported⟩
    · simpa [due] using flushing
    · simpa [marks] using ahead
  | true =>
    have stage := flushing.mp due
    refine ⟨rfl, by simp, ?_, by simp, paced.reported⟩
    simpa [marks, stage] using ahead

/-- The receiver is evaluated on a spine only while it is flushing, and reports it. -/
theorem Paced.evalReceiver (paced : Paced record worker)
    (notDue : worker.stage ≠ .senderFlushed) {output : Option (IndexedZSet K V)}
    (sentFirst : worker.received.length + output.toList.length ≤ marks record.1) :
    Paced record (worker.evalReceiver output).pollReceiver := by
  have ahead := paced.ahead
  cases output with
  | none =>
    have unchanged : (worker.evalReceiver none).pollReceiver = worker := by
      unfold Worker.evalReceiver Worker.pollReceiver
      refine if_neg ?_
      rintro ⟨flushing, complete⟩
      simp [paced.waiting flushing] at complete
    rwa [unchanged]
  | some =>
    have stage : worker.stage = .receiverFlushing := by
      by_contra notFlushing
      simp only [notDue, notFlushing, or_self, if_false, Option.toList_some,
        length_singleton] at ahead sentFirst
      omega
    have flushing := paced.flushing
    rw [if_pos (Or.inr stage)] at ahead
    unfold Worker.evalReceiver Worker.pollReceiver
    rw [if_pos ⟨stage, rfl⟩]
    refine ⟨paced.due, ?_, ?_, by simp, ?_⟩
    · simpa [stage] using flushing
    · simpa using ahead
    · simp only [paced.reported, length_append, length_singleton]
      rw [range'_1_concat, Nat.add_comm]

/-- Evaluating the receiver extends what it received by what its queue hands out. -/
theorem received_evalReceiver (worker : Worker K V) (output : Option (IndexedZSet K V)) :
    (worker.evalReceiver output).pollReceiver.received = worker.received ++ output.toList := by
  unfold Worker.pollReceiver
  cases output <;> split_ifs <;> simp [Worker.evalReceiver]

/-! ## Runs -/

section

variable [NeZero npeers] (defaultHash : K → Nat) (host : Fin npeers → Nat)
  (codec : Codec (IndexedZSet K V))

/-- A receiver hands out and reports one more spine: some deliveries to it, the request to flush
and an evaluation do it. -/
def HandsOut (receiver : Fin npeers) (system : System npeers K V) : Prop :=
  ∃ deliveries next, (∀ event ∈ deliveries, ∃ sender, event = .deliver sender receiver) ∧
    run (step defaultHash host codec) system
      (deliveries ++ [.flushReceiver receiver, .evalReceiver receiver]) = some next ∧
    (next.worker receiver).received.length = (system.worker receiver).received.length + 1 ∧
    (next.worker receiver).reports.length = (system.worker receiver).reports.length + 1

/-- Every queue is accounted for and every worker keeps its pace. -/
structure Invariant (records : Records npeers K V) (system : System npeers K V) : Prop where
  accounted : ∀ receiver, Accounted defaultHash host codec
    (fun sender => (records sender).1) (fun sender => system.channel sender receiver)
    receiver (system.worker receiver).received (system.rxq receiver)
  paced : ∀ worker, Paced (records worker) (system.worker worker)

variable {defaultHash host codec} {system : System npeers K V} {records : Records npeers K V}

theorem invariant_new : Invariant defaultHash host codec (recordOf []) (System.new npeers) :=
  ⟨accounted_new, fun _ => paced_new⟩

variable {index : Fin npeers} (invariant : Invariant defaultHash host codec records system)

include invariant

/-- A change to a worker that sends and receives nothing. -/
theorem Invariant.setWorker (sameReceived : worker.received = (system.worker index).received)
    (sameSent : record.1 = (records index).1) (paced : Paced record worker) :
    Invariant defaultHash host codec (update records index record)
      (system.setWorker index worker) := by
  refine ⟨fun receiver => ?_, forall_update₂ paced fun other _ => invariant.paced other⟩
  have received := observe_update Worker.received sameReceived receiver
  simp only [System.setWorker, observe_update Prod.fst sameSent, received]
  exact invariant.accounted receiver

/-- A change to a worker that has nothing to do with its sender. -/
theorem Invariant.setReceiver (sameReceived : worker.received = (system.worker index).received)
    (paced : Paced (records index) worker) :
    Invariant defaultHash host codec records (system.setWorker index worker) := by
  simpa using invariant.setWorker sameReceived rfl paced

/-- Evaluating a sender extends its record and every channel that leaves it. -/
theorem Invariant.evalSender (index : Fin npeers) (batch : IndexedZSet K V) :
    Invariant defaultHash host codec (recordEvent records (.evalSender index batch))
      ((system.send index fun receiver => pack codec (host index = host receiver)
        (shard defaultHash receiver batch) (system.worker index).senderFlush).setWorker index
          (system.worker index).evalSender) := by
  have paced := invariant.paced index
  refine ⟨fun receiver => ?_,
    forall_update₂ (paced.evalSender batch) fun other _ => invariant.paced other⟩
  rw [paced.due]
  convert (invariant.accounted receiver).send index batch (records index).2 using 1
  · exact funext (apply_update (fun _ => Prod.fst) _ _ _)
  · exact funext (apply_update (fun _ (parts : Fin npeers → List _) => parts receiver) _ _ _)
  · have same : (system.worker index).evalSender.received = (system.worker index).received := rfl
    exact observe_update Worker.received same receiver
  · rfl

/-- A delivery does not fail. It takes the oldest part from its channel. -/
theorem Invariant.deliver (sender receiver : Fin npeers) :
    ∃ next, step defaultHash host codec system (.deliver sender receiver) = some next ∧
      next.worker = system.worker ∧
      (∀ other, next.channel other receiver = if other = sender then
        (system.channel sender receiver).tail else system.channel other receiver) ∧
      Invariant defaultHash host codec records next := by
  cases waiting : system.channel sender receiver with
  | nil =>
    refine ⟨system, by simp [step, waiting], rfl, fun other => ?_, invariant⟩
    split_ifs with same
    · rw [same, waiting]
      rfl
    · rfl
  | cons _ parts =>
    obtain ⟨batch, flush, rxq, unpacked, delivered, accounted⟩ :=
      (invariant.accounted receiver).deliver waiting
    have shorter : (fun other => update system.channel sender
        (update (system.channel sender) receiver parts) other receiver) =
        update (fun other => system.channel other receiver) sender parts := by
      refine (funext (apply_update (fun _ (parts : Fin npeers → List _) => parts receiver) _ _ _)).trans ?_
      rw [update_self]
    refine ⟨{ system.setRxq receiver rxq with
      channel := update system.channel sender (update (system.channel sender) receiver parts) },
      by simp [step, waiting, unpacked, delivered], rfl, fun other => ?_, fun other => ?_,
      invariant.paced⟩
    · exact (congrFun shorter other).trans (update_apply ..)
    by_cases same : other = receiver
    · subst same
      convert accounted using 1
      · rfl
      · exact update_self ..
    · convert invariant.accounted other using 1
      · exact funext fun origin => update_update_of_ne _ (same ·.2) _
      · rfl
      · exact update_of_ne same ..

/-- Evaluating a receiver that is not due to flush extends what it received. -/
theorem Invariant.evalReceiver (notDue : (system.worker index).stage ≠ .senderFlushed) :
    Invariant defaultHash host codec records
      ((system.setRxq index (system.rxq index).receive.2).setWorker index
        ((system.worker index).evalReceiver (system.rxq index).receive.1).pollReceiver) := by
  have accounted := (invariant.accounted index).receive
  have sentFirst := accounted.length_le_marks index
  rw [length_append] at sentFirst
  have paced := (invariant.paced index).evalReceiver notDue sentFirst
  rw [← update_eq_self index records]
  refine ⟨fun receiver => ?_, forall_update₂ paced fun other _ => invariant.paced other⟩
  rw [update_eq_self, System.setWorker, System.setRxq]
  by_cases same : receiver = index
  · subst same
    simpa [received_evalReceiver] using accounted
  · simpa [same] using invariant.accounted receiver

/-- No permitted event fails, and every permitted event keeps the invariant. -/
theorem Invariant.step {event : Event npeers K V} (permitted : Permitted system event) :
    ∃ next, ShardedAccumulator.step defaultHash host codec system event = some next ∧
      Invariant defaultHash host codec (recordEvent records event) next := by
  cases event with
  | flushSender index =>
    have started : (system.worker index).stage = .started := permitted
    have paced := invariant.paced index
    refine ⟨_, if_pos started, ?_⟩
    refine invariant.setWorker (by rfl) rfl ⟨rfl, by simp, ?_, by simp, paced.reported⟩
    simpa [started] using paced.ahead
  | evalSender index batch =>
    refine ⟨_, ?_, invariant.evalSender index batch⟩
    simp [ShardedAccumulator.step, shardBatch_eq]
  | deliver sender receiver =>
    obtain ⟨next, stepped, -, -, kept⟩ := invariant.deliver sender receiver
    exact ⟨next, stepped, kept⟩
  | backpressure receiver =>
    obtain ⟨streams, pending, -, -, accounts⟩ := invariant.accounted receiver
    have last := getLast?_eq_some_getLast (accounts.spines_ne_nil receiver)
    exact ⟨system, by simp [ShardedAccumulator.step, last], invariant⟩
  | flushReceiver index =>
    simp only [ShardedAccumulator.step]
    split_ifs with due
    · refine ⟨_, rfl, invariant.setReceiver rfl ?_⟩
      have paced := invariant.paced index
      refine ⟨paced.due, ?_, ?_, fun _ => rfl, paced.reported⟩
      · simpa [due] using paced.flushing
      · simpa [due] using paced.ahead
    · exact ⟨system, rfl, invariant⟩
  | evalReceiver =>
    simp only [ShardedAccumulator.step]
    split_ifs with due
    · exact ⟨system, rfl, invariant⟩
    · exact ⟨_, rfl, invariant.evalReceiver due⟩
  | commitComplete index =>
    simp only [ShardedAccumulator.step]
    split_ifs with complete
    · refine ⟨_, rfl, invariant.setReceiver rfl ?_⟩
      have paced := invariant.paced index
      refine ⟨paced.due, ?_, ?_, by simp, paced.reported⟩
      · simpa [complete] using paced.flushing
      · simpa [complete] using paced.ahead
    · exact ⟨system, rfl, invariant⟩

/-! ## Progress -/

variable (receiver : Fin npeers)

/-- Everything on its way to a receiver can be delivered to it. -/
theorem Invariant.drain :
    ∃ deliveries next, (∀ event ∈ deliveries, ∃ sender, event = .deliver sender receiver) ∧
      run (ShardedAccumulator.step defaultHash host codec) system deliveries = some next ∧
      next.worker = system.worker ∧ (∀ sender, next.channel sender receiver = []) ∧
      Invariant defaultHash host codec records next := by
  -- each delivery shortens one of the channels to the receiver
  induction waiting : ∑ sender, (system.channel sender receiver).length
    using Nat.strong_induction_on generalizing system with
  | _ total ih =>
    by_cases arrived : ∀ sender, system.channel sender receiver = []
    · exact ⟨[], system, by simp, rfl, rfl, arrived, invariant⟩
    obtain ⟨sender, nonempty⟩ := not_forall.mp arrived
    obtain ⟨next, stepped, sameWorkers, channels, kept⟩ := invariant.deliver sender receiver
    have shorter : ∑ other, (next.channel other receiver).length < total := by
      rw [← waiting]
      refine sum_lt_sum (fun other _ => ?_) ⟨sender, mem_univ sender, ?_⟩
      · rw [channels]
        split_ifs with same
        · simp [same]
        · rfl
      · have positive := length_pos_iff.mpr nonempty
        simp only [channels, if_true, length_tail]
        omega
    obtain ⟨deliveries, final, only, delivered, same, empty, invariant⟩ := ih _ shorter kept rfl
    refine ⟨.deliver sender receiver :: deliveries, final, ?_, ?_, same.trans sameWorkers, empty,
      invariant⟩
    · rintro event (_ | ⟨_, later⟩)
      · exact ⟨sender, rfl⟩
      · exact only event later
    · simpa [run, stepped] using delivered

/-- A receiver hands out the next transaction when everyone has flushed it and all
parts have arrived. -/
theorem Invariant.evalReceiver_receives (notDue : (system.worker index).stage ≠ .senderFlushed)
    (flushed : ∀ sender, (system.worker index).received.length < marks (records sender).1)
    (arrived : ∀ sender, system.channel sender index = []) {next : System npeers K V}
    (evaluated : ShardedAccumulator.step defaultHash host codec system (.evalReceiver index) =
      some next) :
    (next.worker index).received.length = (system.worker index).received.length + 1 := by
  obtain ⟨streams, pending, split, queued, accounts⟩ := invariant.accounted index
  have finished : ∀ sender, (system.worker index).received.length < marks (streams sender) := by
    intro sender
    have nothing : pending sender = [] := by simpa [arrived sender] using queued sender
    have total := congrArg marks (split sender)
    rw [partsFor, marks_map, nothing, append_nil] at total
    rw [← total]
    exact flushed sender
  obtain ⟨spine, output⟩ := Option.isSome_iff_exists.mp ((accounts.receive index).2.mpr finished)
  simp only [ShardedAccumulator.step, if_neg notDue, Option.some.injEq] at evaluated
  simp [← evaluated, System.setWorker, received_evalReceiver, output]

/-- A transaction that every worker has flushed is handed out and reported: its parts arrive,
the receiver is told to flush and is evaluated. -/
theorem Invariant.hands_out
    (flushed : ∀ sender, (system.worker receiver).received.length < marks (records sender).1) :
    HandsOut defaultHash host codec receiver system := by
  obtain ⟨deliveries, drained, only, delivered, sameWorkers, arrived, kept⟩ :=
    invariant.drain receiver
  obtain ⟨told, toldStep, toldKept⟩ :=
    kept.step (show Permitted drained (.flushReceiver receiver) from trivial)
  have toldReceived : (told.worker receiver).received = (drained.worker receiver).received ∧
      (told.worker receiver).stage ≠ .senderFlushed ∧ told.channel = drained.channel := by
    simp only [ShardedAccumulator.step] at toldStep
    split_ifs at toldStep with due <;> obtain rfl := Option.some.inj toldStep
    · simp [System.setWorker]
    · exact ⟨rfl, due, rfl⟩
  obtain ⟨sameReceived, notDue, sameChannels⟩ := toldReceived
  rw [sameWorkers] at sameReceived
  obtain ⟨next, evaluated, nextKept⟩ :=
    toldKept.step (show Permitted told (.evalReceiver receiver) from trivial)
  have received := toldKept.evalReceiver_receives notDue (by rwa [sameReceived])
    (by simpa only [sameChannels] using arrived) evaluated
  rw [sameReceived] at received
  refine ⟨deliveries, next, only, ?_, received, ?_⟩
  · rw [run, foldlM_append]
    simp only [run] at delivered
    simp [delivered, toldStep, evaluated]
  · rw [(nextKept.paced receiver).reported, (invariant.paced receiver).reported,
      length_range', length_range', received]

end

/-! ## Whole runs -/

/-- Whatever the interleaving of at least one worker's operators and of the deliveries between
them, no event fails. The spine that a worker hands out for a transaction is the sum of its
parts of the batches that the events gave all workers for that transaction; it is handed out
after all of them have flushed the transaction, and the worker reports its flush as complete
just then. A transaction that all workers have flushed is handed out and reported once the
parts on their way have arrived. -/
theorem run_shards_and_accumulates {others : Nat} (defaultHash : K → Nat)
    (host : Fin (others + 1) → Nat) (codec : Codec (IndexedZSet K V))
    {events : List (Event (others + 1) K V)}
    (permitted : Run.Meets (step defaultHash host codec) (System.new (others + 1)) Permitted
      events) :
    ∃ system, Run.run (step defaultHash host codec) (System.new (others + 1)) events =
        some system ∧
      ∀ receiver,
        (∀ k spine, (system.worker receiver).received[k]? = some spine →
          (∀ sender, k < marks (recordOf events sender).1) ∧
          spine = ∑ sender, ((segmentAt (recordOf events sender).1 k).map
            (shard defaultHash receiver)).sum) ∧
        (system.worker receiver).reports =
          List.range' 1 (system.worker receiver).received.length ∧
        (∀ sender, (system.rxq receiver).nReceived ≤ (system.rxq receiver).nFlushes sender ∧
          (system.rxq receiver).nFlushes sender - (system.rxq receiver).nReceived <
            (system.rxq receiver).spines.length) ∧
        ((∀ sender, (system.worker receiver).received.length <
            marks (recordOf events sender).1) →
          HandsOut defaultHash host codec receiver system) := by
  obtain ⟨system, reached, invariant⟩ := Run.invariant_of_meets_inputs
    (fun events system => Invariant defaultHash host codec (recordOf events) system)
    invariant_new (fun events state event permitted invariant => by
      rw [recordOf, List.foldl_concat]
      exact invariant.step permitted) permitted
  refine ⟨system, reached, fun receiver => ?_⟩
  have accounted := invariant.accounted receiver
  refine ⟨fun k spine found => ⟨fun sender => ?_, accounted.handedOut found⟩,
    (invariant.paced receiver).reported, fun sender => ?_, invariant.hands_out receiver⟩
  · have within := (List.getElem?_eq_some_iff.mp found).1
    exact within.trans_le (accounted.length_le_marks sender)
  · obtain ⟨streams, pending, -, -, accounts⟩ := accounted
    have reached := accounts.reached sender
    have queued := accounts.queued sender
    omega

/-- Writes a batch as the number of its list of tuples. -/
def batchCodec : Codec (IndexedZSet ℕ ℕ) :=
  let : Encodable (IndexedZSet ℕ ℕ) :=
    .ofLeftInverse IndexedZSet.tuples IndexedZSet.ofTuples fun batch => batch.ofTuples_tuples
  Codec.unary (IndexedZSet ℕ ℕ)

/-- One transaction of two workers, with the events of the second receiver. -/
def transaction (first second : Fin 2) : List (Event 2 ℕ ℕ) :=
  [.flushSender first, .flushSender second,
    .evalSender first (.ofTuples [((4, 7), 1), ((5, 7), 1)]),
    .evalSender second (.ofTuples [((5, 7), 2)]), .deliver first second, .deliver second second,
    .flushReceiver second, .evalReceiver second]

/-- Two workers on two hosts, of which the second owns the odd keys. -/
theorem run_shards_and_accumulates_two :
    ∃ system, Run.run (step id Fin.val batchCodec) (System.new 2) (transaction 0 1) = some system ∧
      ∀ spine, (system.worker 1).received[0]? = some spine → spine = .ofTuples [((5, 7), 3)] := by
  have permitted : Run.Meets (step id Fin.val batchCodec) (System.new 2) Permitted
      (transaction 0 1) := by
    refine Run.meets_cons rfl fun next stepped => Run.meets_cons ?_ fun _ _ => ?_
    · obtain rfl := Option.some.inj stepped
      rfl
    · iterate 6 refine Run.meets_cons trivial fun _ _ => ?_
      exact Run.meets_nil
  obtain ⟨system, reached, holds⟩ := run_shards_and_accumulates id Fin.val batchCodec permitted
  refine ⟨system, reached, fun spine found => ?_⟩
  rw [((holds 1).1 0 spine found).2]
  decide

end OpenDera.ShardedAccumulator
