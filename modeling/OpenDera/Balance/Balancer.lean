import Mathlib.Algebra.Order.Ring.Int
import Mathlib.Data.Fin.Basic
import OpenDera.Balance.MaxSat

/-!
# The balancer of adaptive joins

The balancer assigns a partitioning policy to every stream of an adaptive join. Joins
connect streams into clusters, and each cluster is solved on its own before a step: a
stream with a policy hint, or one that can no longer change in the current transaction, has
one policy in its domain. A solution is installed if the policies in effect are no longer
possible, or if it is much cheaper than they are.

One exchange sender for every stream and worker carries the policies out. It adopts the
policy it is given until it starts to flush the transaction; its state reaches the balancer
as metadata at the end of the step. `Tuning` leaves floating-point factors open.
-/

namespace OpenDera.Balance

open Function

/-- What a call gives back: a result, an error, or a panic. -/
inductive Outcome (α : Type) where
  | returns (result : α)
  | fails (error : BalancerError)
  | panics

namespace Outcome

/-- Go on with a result. -/
def andThen {α β : Type} (outcome : Outcome α) (next : α → Outcome β) : Outcome β :=
  match outcome with
  | returns result => next result
  | fails error => fails error
  | panics => panics

instance : Monad Outcome where
  pure := returns
  bind := andThen

@[simp] theorem returns_bind {α β : Type} (result : α) (next : α → Outcome β) :
    (returns result >>= next) = next result := rfl

@[simp] theorem pure_eq {α : Type} (result : α) : (pure result : Outcome α) = returns result := rfl

variable {α β : Type} {Good : α → Prop} {Fine : β → Prop} {Reason Cause : Prop}

/-- There is a good result, or an error and a reason for it. -/
def Decides (outcome : Outcome α) (Good : α → Prop) (Reason : Prop) : Prop :=
  (∃ result, outcome = returns result ∧ Good result) ∨ (∃ error, outcome = fails error) ∧ Reason

theorem Decides.bind {outcome : Outcome α} {next : α → Outcome β} (decides : outcome.Decides Good Reason)
    (failing : Reason → Cause) (goesOn : ∀ result, Good result → (next result).Decides Fine Cause) :
    (outcome >>= next).Decides Fine Cause := by
  rcases decides with ⟨result, rfl, good⟩ | ⟨⟨error, rfl⟩, reason⟩
  · exact goesOn result good
  · exact .inr ⟨⟨error, rfl⟩, failing reason⟩

end Outcome

/-- How far a sender is with flushing the current transaction. -/
inductive FlushState where
  | transactionStarted
  | flushRequested
  | rebalanceInProgress
  | flushCompleted
  deriving DecidableEq

/-- The sender has started to rebalance, or is done. -/
def FlushState.rebalancing : FlushState → Bool
  | transactionStarted | flushRequested => false
  | rebalanceInProgress | flushCompleted => true

variable (others : Nat)

/-- The weight of the data in each shard if the stream were sharded by key. -/
abbrev KeyDistribution := Fin (others + 1) → ℤ

/-- What a sender reports to the balancers of all workers. -/
structure SenderMetadata where
  flushState : FlushState
  currentPolicy : Option PartitioningPolicy
  keyDistribution : KeyDistribution others

/-- A hint that is set for a stream, or cleared. -/
inductive BalancerHint (F : Type) where
  | policy (policy : Option PartitioningPolicy)
  | size (size : Option Nat)
  | skew (skew : Option F)

/-- The hints in force for a stream. -/
structure BalancerHints (F : Type) where
  policyHint : Option PartitioningPolicy := none
  sizeHint : Option Nat := none
  skewHint : Option F := none

/-- The floating-point computations of the balancer. -/
structure Tuning (F : Type) where
  /-- A size times a factor, truncated. -/
  scale : Nat → F → Nat
  balanceTax : F
  /-- The first cost, scaled by the relative threshold, is below the second. -/
  relativeImprovement : Cost → Cost → Bool
  minAbsoluteImprovement : Cost
  /-- A shard's size differs from a nonzero last size by more than the threshold. -/
  sizeChanged : ℤ → ℤ → Bool

/-- Streams connected by joins. -/
structure Cluster where
  streams : List NodeId
  joins : List JoinConstraint
  joins_mem : ∀ join ∈ joins, join.v1 ∈ streams ∧ join.v2 ∈ streams

/-- The state of the balancer. A stream belongs to one cluster, so the solutions of
all clusters are one map, as are the distributions they were computed for. -/
structure BalancerInner (F : Type) where
  integrals : NodeId → Option (BalancerHints F)
  metadata : NodeId → Option (List (Option (SenderMetadata others)))
  keyDistribution : NodeId → Option (KeyDistribution others)
  clusters : List Cluster
  solution : NodeId → Option PartitioningPolicy
  lastDistribution : NodeId → Option (KeyDistribution others)
  refreshRequested : Nat → Bool
  transactionInProgress : Bool
  autoRebalanceEnabled : Bool
  activeNodes : Option (List NodeId)

namespace BalancerInner

variable {others : Nat} {F : Type}

/-- The balancer of a new circuit with the given clusters. -/
def new (clusters : List Cluster) : BalancerInner others F :=
  { integrals := fun node => if clusters.any (fun cluster => node ∈ cluster.streams) then some {} else none
    metadata := fun _ => none
    keyDistribution := fun _ => none
    clusters := clusters
    solution := fun _ => none
    lastDistribution := fun _ => none
    refreshRequested := fun _ => false
    transactionInProgress := false
    autoRebalanceEnabled := true
    activeNodes := none }

/-- The combined distribution of all workers' reports. -/
def mergedDistribution (metadata : List (Option (SenderMetadata others))) : KeyDistribution others :=
  metadata.foldl
    (fun distribution report =>
      match report with
      | some report => fun shard => distribution shard + report.keyDistribution shard
      | none => distribution)
    fun _ => 0

variable (balancer : BalancerInner others F) (tuning : Tuning F)

/-- Check if it is time to recompute the solution for a cluster. -/
def clusterNeedsRefresh (index : Nat) (cluster : Cluster) : Bool :=
  if balancer.refreshRequested index then
    true
  else if cluster.streams.any fun stream => (balancer.solution stream).isNone then
    true
  else if !balancer.autoRebalanceEnabled then
    false
  else
    cluster.streams.any fun stream =>
      match balancer.keyDistribution stream, balancer.lastDistribution stream with
      | some current, some last =>
        (List.finRange (others + 1)).any fun shard =>
          if last shard = 0 then current shard ≠ 0 else tuning.sizeChanged (current shard) (last shard)
      | _, _ => true

/-- The costs of the policies by the size of the stream. -/
def computeDomain (metadata : List (Option (SenderMetadata others)))
    (hints : BalancerHints F) : Domain :=
  let (totalSize, maxSize) :=
    match hints.sizeHint with
    | some size =>
      let share := size / (others + 1)
      (size, match hints.skewHint with
        | some skew => tuning.scale share skew
        | none => share)
    | none =>
      let distribution := mergedDistribution metadata
      let sizes := List.ofFn distribution
      (sizes.sum.natAbs, (sizes.foldl max (distribution 0)).natAbs)
  fun
    | .shard => some maxSize
    | .broadcast => some (totalSize + 1)
    | .balance => some (tuning.scale (totalSize / (others + 1)) tuning.balanceTax + 1)

/-- How the current policy appears in a message. -/
def showPolicy : PartitioningPolicy → String
  | .shard => "Some(Shard)"
  | .broadcast => "Some(Broadcast)"
  | .balance => "Some(Balance)"

/-- The policy that cannot change at the current step: the hint, or the policy in
effect once some worker has started to rebalance in the current transaction. -/
def getFixedPolicy (stream : NodeId)
    (metadata : List (Option (SenderMetadata others))) (hints : BalancerHints F) :
    Outcome (Option PartitioningPolicy) :=
  if balancer.activeNodes.any (fun active => stream ∉ active) then
    .returns (balancer.solution stream)
  else
    let anyFlushed := metadata.any fun report => report.any fun report => report.flushState.rebalancing
    if anyFlushed && balancer.transactionInProgress then
      match metadata with
      | some first :: _ =>
        if metadata.all fun report =>
            report.any fun report => report.currentPolicy = first.currentPolicy then
          match first.currentPolicy, hints.policyHint with
          | some current, some hint =>
            if current = hint then
              .returns (some hint)
            else
              .fails (.invalidPolicyHint hint ("the current policy " ++ showPolicy current ++
                " can no longer be changed during the current transaction"))
          | none, some hint => .returns (some hint)
          | current, none => .returns current
        else
          .panics
      | _ => .panics
    else
      .returns hints.policyHint

/-- The total cost of an assignment, if it gives every stream a value of its domain. -/
def validateSolution (streams : List NodeId) (solution : NodeId → Option PartitioningPolicy)
    (domains : NodeId → Domain) : Option Cost :=
  streams.foldl
    (fun total stream => do
      let total ← total
      let policy ← solution stream
      let cost ← domains stream policy
      return total + cost)
    (some 0)

/-- The policies in effect, as the first worker reports them. -/
def currentEffectivePolicy (stream : NodeId) : Option PartitioningPolicy := do
  let metadata ← balancer.metadata stream
  let first ← metadata.head?
  let report ← first
  report.currentPolicy

/-- The domain of one stream. -/
def streamDomain (ignoreFixedPolicies : Bool) (stream : NodeId) : Outcome Domain :=
  match balancer.integrals stream with
  | none => .panics
  | some hints => do
      let metadata := (balancer.metadata stream).getD []
      let fixedPolicy ← balancer.getFixedPolicy stream metadata hints
      let domain := computeDomain tuning metadata hints
      match fixedPolicy with
      | some fixed =>
        if ignoreFixedPolicies then
          return domain
        else
          return fun policy => if policy = fixed then domain policy else none
      | none => return domain

/-- The domains of all streams of a cluster. -/
def clusterDomains (balancer : BalancerInner others F) (tuning : Tuning F)
    (ignoreFixedPolicies : Bool) : List NodeId → Outcome (NodeId → Domain)
  | [] => .returns fun _ _ => none
  | stream :: streams => do
      let domain ← balancer.streamDomain tuning ignoreFixedPolicies stream
      let domains ← clusterDomains balancer tuning ignoreFixedPolicies streams
      return update domains stream domain

variable (cluster : Cluster)

/-- Solve a cluster with given domains. -/
def solveClusterWithDomains (domains : NodeId → Domain) :
    Outcome (NodeId → Option PartitioningPolicy) :=
  match ({ vars := cluster.streams, constraints := cluster.joins, domain := domains } : MaxSat).solve with
  | some (.ok solution) => .returns fun stream => solution.lookup stream
  | some (.error error) => .fails error
  | none => .panics

/-- Compute policies for the streams of a cluster; the state does not change. -/
def solveCluster (ignoreFixedPolicies : Bool) : Outcome (NodeId → Option PartitioningPolicy) := do
  let domains ← balancer.clusterDomains tuning ignoreFixedPolicies cluster.streams
  let solution ← solveClusterWithDomains cluster domains
  if cluster.streams.all fun stream => balancer.solution stream = solution stream then
    return solution
  else
    match validateSolution cluster.streams balancer.currentEffectivePolicy domains with
    | none => return solution
    | some currentCost =>
      if !balancer.autoRebalanceEnabled then
        return solution
      else
        match validateSolution cluster.streams solution domains with
        | none => .panics
        | some newCost =>
          if tuning.relativeImprovement newCost currentCost &&
              decide (newCost + tuning.minAbsoluteImprovement < currentCost) then
            return solution
          else
            return balancer.currentEffectivePolicy

/-- Install a policy for one stream and remember the distribution it was chosen for. -/
def setPolicyForStream (policies : NodeId → Option PartitioningPolicy)
    (balancer : BalancerInner others F) (stream : NodeId) : BalancerInner others F :=
  match policies stream with
  | none => balancer
  | some policy =>
    { balancer with
      solution := update balancer.solution stream (some policy)
      lastDistribution := match balancer.keyDistribution stream with
        | some distribution => update balancer.lastDistribution stream (some distribution)
        | none => balancer.lastDistribution }

/-- Solve the clusters that need it, in order, and collect their streams' policies. -/
def solveClusters (balancer : BalancerInner others F) (tuning : Tuning F) :
    List (Cluster × Nat) → Outcome (List (Cluster × (NodeId → Option PartitioningPolicy)))
  | [] => .returns []
  | (cluster, index) :: clusters =>
    if balancer.clusterNeedsRefresh tuning index cluster then do
      let policies ← balancer.solveCluster tuning cluster false
      let rest ← solveClusters balancer tuning clusters
      return (cluster, policies) :: rest
    else
      solveClusters balancer tuning clusters

/-- Solve all clusters and install their solutions. -/
def solveAllClusters : Outcome (BalancerInner others F) := do
  let solutions ← balancer.solveClusters tuning balancer.clusters.zipIdx
  let installed := solutions.foldl
    (fun balancer solved => solved.1.streams.foldl (setPolicyForStream solved.2) balancer) balancer
  return { installed with refreshRequested := fun _ => false }

/-- The policies for the next step. -/
def startStep : Outcome (BalancerInner others F) := do
  let solved ← balancer.solveAllClusters tuning
  return { solved with transactionInProgress := true }

variable (node : NodeId)

/-- The index of the cluster that a stream belongs to. -/
def streamToCluster : Option (Cluster × Nat) :=
  balancer.clusters.zipIdx.find? fun entry => node ∈ entry.1.streams

/-- Install the hints of a stream and ask for a new solution of its cluster. -/
def installHints (index : Nat) (hints : BalancerHints F) : BalancerInner others F :=
  { balancer with
    integrals := update balancer.integrals node (some hints)
    refreshRequested := update balancer.refreshRequested index true }

/-- Set a hint for a stream. A policy hint is checked by solving the cluster first. -/
def setHint (hint : BalancerHint F) : Option (Except BalancerError Unit × BalancerInner others F) :=
  match balancer.streamToCluster node with
  | none => none
  | some (cluster, index) =>
    match balancer.integrals node with
    | none => some (.error (.notRegisteredWithBalancer node), balancer)
    | some hints =>
      match hint with
      | .policy (some policy) =>
        -- The check reads the hints that are installed, which are still the old ones.
        match balancer.solveCluster tuning cluster false with
        | .returns _ =>
          some (.ok (), balancer.installHints node index { hints with policyHint := some policy })
        | .fails error => some (.error error, balancer)
        | .panics => none
      | .policy none =>
        some (.ok (), balancer.installHints node index { hints with policyHint := none })
      | .size size => some (.ok (), balancer.installHints node index { hints with sizeHint := size })
      | .skew skew => some (.ok (), balancer.installHints node index { hints with skewHint := skew })

/-- Cache what the senders of the registered streams report. -/
def parseMetadata
    (reports : NodeId → List (Option (SenderMetadata others))) : BalancerInner others F :=
  { balancer with
    metadata := fun stream =>
      if (balancer.integrals stream).isSome then some (reports stream) else none
    keyDistribution := fun stream =>
      if (balancer.integrals stream).isSome then
        some (mergedDistribution (reports stream))
      else
        balancer.keyDistribution stream }

end BalancerInner

/-! ## The balancers of all workers -/

variable {others : Nat} {F : Type}

/-- The exchange sender of one stream in one worker. -/
abbrev Sender (others : Nat) := SenderMetadata others

/-- A sender before the first transaction. -/
def Sender.new : Sender others :=
  { flushState := .flushCompleted, currentPolicy := none, keyDistribution := fun _ => 0 }

/-- What happens to a sender in one step besides the policy it is given: whether it is
told to flush, whether it may commit, whether that needs rebalancing, whether a
rebalancing that is under way completes, and the distribution it has measured. -/
structure SenderChoice (others : Nat) where
  flush : Bool
  readyToCommit : Bool
  rebalance : Bool
  completes : Bool
  keyDistribution : KeyDistribution others

/-- Evaluate a sender under the policy that the balancer hands out. -/
def Sender.eval (sender : Sender others) (choice : SenderChoice others)
    (policy : Option PartitioningPolicy) : Option (Sender others) :=
  match sender.flushState with
  | .rebalanceInProgress =>
    if choice.completes then some { sender with flushState := .flushCompleted } else some sender
  | .flushCompleted =>
    match policy with
    | none => none
    | some policy => if sender.currentPolicy = some policy then some sender else none
  | .transactionStarted | .flushRequested =>
    match policy with
    | none => none
    | some policy =>
      let requested := sender.flushState = .flushRequested ∨ choice.flush = true
      some
        { flushState :=
            if requested then
              if choice.readyToCommit then
                if choice.rebalance then .rebalanceInProgress else .flushCompleted
              else
                .flushRequested
            else
              .transactionStarted
          currentPolicy := some policy
          keyDistribution := choice.keyDistribution }

/-- The join graph: every stream belongs to at most one cluster. -/
structure JoinGraph where
  clusters : List Cluster
  disjoint : clusters.Pairwise fun first second =>
    ∀ stream ∈ first.streams, stream ∉ second.streams

/-- The balancer, the senders by stream and worker, and where the scheduler stands. -/
structure BalancedCircuit (others : Nat) (F : Type) where
  balancer : BalancerInner others F
  sender : NodeId → Fin (others + 1) → Sender others
  transactionStarted : Bool := false
  beforeFirstStep : Bool := true

namespace BalancedCircuit

/-- The circuit before its first transaction. -/
def new (graph : JoinGraph) : BalancedCircuit others F :=
  { balancer := .new graph.clusters, sender := fun _ _ => Sender.new }

variable (circuit : BalancedCircuit others F)

/-- The reports of all workers' senders for a stream. -/
def reports (stream : NodeId) : List (Option (SenderMetadata others)) :=
  List.ofFn fun worker => some (circuit.sender stream worker)

/-- Exchange metadata. -/
def updateMetadata : BalancedCircuit others F :=
  { circuit with balancer := circuit.balancer.parseMetadata circuit.reports }

/-- All streams that the balancer manages. -/
def streams : List NodeId :=
  circuit.balancer.clusters.flatMap fun cluster => cluster.streams

/-- Evaluate the senders of all streams in all workers. -/
def evalSenders (choices : NodeId → Fin (others + 1) → SenderChoice others) :
    Option (BalancedCircuit others F) :=
  let evaluated (stream : NodeId) (worker : Fin (others + 1)) : Option (Sender others) :=
    (circuit.sender stream worker).eval (choices stream worker) (circuit.balancer.solution stream)
  if ∀ stream ∈ circuit.streams, ∀ worker, (evaluated stream worker).isSome then
    some { circuit with
      sender := fun stream worker =>
        if stream ∈ circuit.streams then
          (evaluated stream worker).getD (circuit.sender stream worker)
        else
          circuit.sender stream worker }
  else
    none

/-- What can happen to the circuit. -/
inductive Event (others : Nat) (F : Type) where
  | setHint (node : NodeId) (hint : BalancerHint F)
  | setAutoRebalance (enable : Bool)
  | rebalance
  | startTransaction
  | step (choices : NodeId → Fin (others + 1) → SenderChoice others)
  | commit

/-- One event; it fails where the code panics. A step outside a transaction, a second
start and a commit before all senders have flushed do not occur. -/
def next (tuning : Tuning F) (circuit : BalancedCircuit others F) :
    Event others F → Option (BalancedCircuit others F)
  | .setHint node hint =>
    (circuit.balancer.setHint tuning node hint).map fun result =>
      { circuit with balancer := result.2 }
  | .setAutoRebalance enable =>
    some { circuit with balancer := { circuit.balancer with autoRebalanceEnabled := enable } }
  | .rebalance =>
    some { circuit with balancer := { circuit.balancer with refreshRequested := fun _ => true } }
  | .startTransaction =>
    if circuit.transactionStarted then
      some circuit
    else
      some { circuit with
        transactionStarted := true
        sender := fun stream worker =>
          { circuit.sender stream worker with flushState := .transactionStarted } }
  | .step choices =>
    if circuit.transactionStarted then
      let informed := if circuit.beforeFirstStep then circuit.updateMetadata else circuit
      match informed.balancer.startStep tuning with
      | .returns balancer => do
          let evaluated ← { informed with balancer := balancer, beforeFirstStep := false }.evalSenders
            choices
          return evaluated.updateMetadata
      | _ => none
    else
      some circuit
  | .commit =>
    if circuit.transactionStarted ∧ ∀ stream ∈ circuit.streams, ∀ worker,
        (circuit.sender stream worker).flushState = .flushCompleted then
      some { circuit with
        transactionStarted := false
        balancer := { circuit.balancer with transactionInProgress := false } }
    else
      some circuit

end BalancedCircuit

end OpenDera.Balance
