import OpenDera.Balance.BalancerCorrect
import OpenDera.Std.Run

/-!
# Installed policies stay compatible

The invariant of a run: every sender uses the installed policy, what the balancer
knows about the senders is up to date during a transaction, and every cluster can be
solved. The last part rests on the policy hints: each of them must be satisfiable
together with the hints and the fixed policies it meets. `setHint` is meant to refuse
the others, but it solves the cluster before it installs the hint and so accepts all.
-/

namespace OpenDera.Balance.BalancedCircuit

open BalancerInner List Option

variable {others : Nat} {F : Type}

/-- There are policies for the cluster of `node` that its joins allow, that give `node`
the policy, follow the hints of the other streams and keep what is fixed. -/
def Enforceable (balancer : BalancerInner others F) (node : NodeId)
    (policy : PartitioningPolicy) : Prop :=
  ∃ cluster ∈ balancer.clusters, node ∈ cluster.streams ∧
    ∃ assign : NodeId → PartitioningPolicy,
      (∀ join ∈ cluster.joins, join.allows (assign join.v1) (assign join.v2)) ∧
      assign node = policy ∧
      (∀ stream ∈ cluster.streams, stream ≠ node →
        ∀ hint, balancer.Hinted stream hint → assign stream = hint) ∧
      ∀ stream ∈ cluster.streams, balancer.Fixed stream →
        ∀ current, balancer.solution stream = some current → assign stream = current

/-- The invariant of a run. -/
structure Invariant (circuit : BalancedCircuit others F) (graph : JoinGraph) : Prop where
  clusters : circuit.balancer.clusters = graph.clusters
  consistent : circuit.balancer.Consistent
  registered : ∀ stream, (circuit.balancer.integrals stream).isSome ↔ stream ∈ circuit.streams
  follows : circuit.balancer.FollowsHints
  solvable : ∀ cluster ∈ circuit.balancer.clusters, ∃ assign, circuit.balancer.Respects cluster assign
  senders : ∀ stream ∈ circuit.streams, ∀ worker,
    (circuit.sender stream worker).currentPolicy = circuit.balancer.solution stream
  started : circuit.balancer.transactionInProgress = true → circuit.transactionStarted = true
  complete : circuit.balancer.transactionInProgress = true → ∀ stream ∈ circuit.streams,
    ∃ policy, circuit.balancer.solution stream = some policy
  current : circuit.balancer.transactionInProgress = true → ∀ stream ∈ circuit.streams,
    circuit.balancer.metadata stream = some (circuit.reports stream)
  fresh : circuit.transactionStarted = true → circuit.balancer.transactionInProgress = false →
    ∀ stream worker, (circuit.sender stream worker).flushState = .transactionStarted

variable {stream : NodeId} {circuit : BalancedCircuit others F}

theorem mem_streams {cluster : Cluster}
    (known : cluster ∈ circuit.balancer.clusters) (member : stream ∈ cluster.streams) :
    stream ∈ circuit.streams :=
  mem_flatMap.mpr ⟨cluster, known, member⟩

theorem invariant_new (graph : JoinGraph) : Invariant (.new graph : BalancedCircuit others F) graph := by
  have registered : ∀ stream, ((BalancerInner.new graph.clusters :
      BalancerInner others F).integrals stream).isSome ↔
        stream ∈ graph.clusters.flatMap fun cluster => cluster.streams := by
    simp [BalancerInner.new]
  have noHints : ∀ stream policy,
      ¬ (BalancerInner.new graph.clusters : BalancerInner others F).Hinted stream policy := by
    rintro stream policy ⟨hints, found, hinted⟩
    simp only [BalancerInner.new] at found
    split_ifs at found
    cases found
    cases hinted
  refine ⟨rfl, ⟨rfl, ?_, graph.disjoint, fun _ => Or.inl rfl, ?_⟩, registered, ?_, ?_, fun _ _ _ => rfl,
    ?_, ?_, ?_, ?_⟩
  · intro cluster known stream member
    exact isSome_iff_exists.mp ((registered stream).mpr (mem_flatMap.mpr ⟨cluster, known, member⟩))
  · intro cluster _ join _ left right installed
    cases installed
  · intro entry _ _ stream _ hint policy hinted
    exact absurd hinted (noHints stream hint)
  · intro cluster _
    refine ⟨fun _ => .shard, ?_, ?_, ?_⟩
    · intro join _
      simp [JoinConstraint.allows, compatible]
    · intro stream _ policy hinted
      exact absurd hinted (noHints stream policy)
    · intro stream _ fixed
      cases fixed.1
  all_goals rintro ⟨⟩

variable {graph : JoinGraph}

/-! ## Hints -/

variable {node : NodeId}

/-- The cluster of a registered stream is found. -/
theorem streamToCluster_spec (member : node ∈ circuit.streams) :
    ∃ entry ∈ circuit.balancer.clusters.zipIdx,
      circuit.balancer.streamToCluster node = some entry ∧ node ∈ entry.1.streams := by
  obtain ⟨cluster, known, inside⟩ := mem_flatMap.mp member
  obtain ⟨index, entry⟩ := exists_mem_zipIdx known
  have found : (circuit.balancer.streamToCluster node).isSome := by
    refine find?_isSome.mpr ⟨_, entry, ?_⟩
    simpa using inside
  obtain ⟨other, found⟩ := isSome_iff_exists.mp found
  exact ⟨other, mem_of_find?_eq_some found, found, by simpa using find?_some found⟩

variable {balancer : BalancerInner others F} {hints : BalancerHints F} {policy : PartitioningPolicy}

theorem hinted_installHints {index : Nat} :
    (balancer.installHints node index hints).Hinted stream policy ↔
      if stream = node then hints.policyHint = some policy else balancer.Hinted stream policy := by
  unfold Hinted installHints
  by_cases same : stream = node <;> simp [same]

/-- Consistency does not look at the hints of a registered stream. -/
theorem consistent_installHints (consistent : balancer.Consistent) (node : NodeId) (index : Nat)
    (hints : BalancerHints F) : (balancer.installHints node index hints).Consistent := by
  refine { consistent with registered := ?_ }
  intro cluster known stream streamMember
  obtain ⟨old, found⟩ := consistent.registered cluster known stream streamMember
  by_cases same : stream = node
  · exact ⟨hints, by simp [installHints, same]⟩
  · exact ⟨old, by simpa [installHints, same] using found⟩

variable {entry : Cluster × Nat} (invariant : circuit.Invariant graph)

include invariant

attribute [local simp] installHints in
/-- Installing hints under which the cluster can still be solved. -/
theorem Invariant.installHints (member : entry ∈ circuit.balancer.clusters.zipIdx)
    (inside : node ∈ entry.1.streams)
    (solvable : ∃ assign, (circuit.balancer.installHints node entry.2 hints).Respects entry.1 assign) :
    Invariant { circuit with balancer := circuit.balancer.installHints node entry.2 hints } graph := by
  have consistent := invariant.consistent
  have elsewhere : ∀ other ∈ circuit.balancer.clusters.zipIdx, other ≠ entry →
      ∀ stream ∈ other.1.streams, stream ≠ node := by
    rintro other otherMember different stream streamMember rfl
    exact different (consistent.eq_of_mem_streams otherMember member streamMember inside)
  refine { invariant with
    consistent := consistent_installHints consistent node entry.2 hints
    registered := ?_, follows := ?_, solvable := ?_ }
  · intro stream
    by_cases same : stream = node
    · subst same
      simp only [installHints, Function.update_self, isSome_some, true_iff]
      exact mem_streams (mem_clusters_of_zipIdx member) inside
    · simpa [same, streams] using invariant.registered stream
  · intro other otherMember unrequested stream streamMember hint policy hinted installed
    have different : other ≠ entry := by
      rintro rfl
      simp at unrequested
    have apart : other.2 ≠ entry.2 := by
      intro same
      simp [same] at unrequested
    rw [hinted_installHints, if_neg (elsewhere other otherMember different stream streamMember)]
      at hinted
    refine invariant.follows other otherMember ?_ stream streamMember hint policy hinted installed
    simpa [apart] using unrequested
  · intro cluster known
    obtain ⟨index, here⟩ := exists_mem_zipIdx known
    by_cases same : (cluster, index) = entry
    · have sameCluster : cluster = entry.1 := congrArg Prod.fst same
      rw [← sameCluster] at solvable
      exact solvable
    · obtain ⟨assign, respects⟩ := invariant.solvable _ known
      refine ⟨assign, { respects with hints := ?_ }⟩
      intro stream streamMember policy hinted
      rw [hinted_installHints, if_neg (elsewhere _ here same stream streamMember)] at hinted
      exact respects.hints stream streamMember policy hinted

variable (tuning : Tuning F)

/-- A policy hint for a registered stream is always accepted. -/
theorem Invariant.setHint_policy (member : node ∈ circuit.streams) (policy : PartitioningPolicy) :
    ∃ entry ∈ circuit.balancer.clusters.zipIdx, ∃ hints, node ∈ entry.1.streams ∧
      circuit.balancer.integrals node = some hints ∧
      circuit.balancer.setHint tuning node (.policy (some policy)) =
        some (.ok (), circuit.balancer.installHints node entry.2 { hints with policyHint := some policy }) := by
  obtain ⟨entry, entryMember, found, inside⟩ := streamToCluster_spec member
  obtain ⟨hints, registered⟩ := isSome_iff_exists.mp ((invariant.registered node).mpr member)
  have known := mem_clusters_of_zipIdx entryMember
  refine ⟨entry, entryMember, hints, inside, registered, ?_⟩
  rcases invariant.consistent.solveCluster_spec tuning known with ⟨_, solved, -⟩ | ⟨-, none⟩
  · simp [setHint, found, registered, solved]
  · obtain ⟨assign, respects⟩ := invariant.solvable entry.1 known
    exact absurd respects (none assign)

section

variable (member : entry ∈ circuit.balancer.clusters.zipIdx)

include member

variable (inside : node ∈ entry.1.streams)

include inside

/-- With a new policy hint the cluster can be solved just if the hint is enforceable. -/
theorem Invariant.respects_installHints_iff (hint : hints.policyHint = some policy) :
    (∃ assign, (circuit.balancer.installHints node entry.2 hints).Respects entry.1 assign) ↔
      Enforceable circuit.balancer node policy := by
  constructor
  · rintro ⟨assign, respects⟩
    refine ⟨entry.1, mem_clusters_of_zipIdx member, inside, assign, respects.joins, ?_, ?_,
      respects.keeps⟩
    · exact respects.hints node inside policy (by rw [hinted_installHints, if_pos rfl, hint])
    · intro stream streamMember apart other hinted
      exact respects.hints stream streamMember other (by rwa [hinted_installHints, if_neg apart])
  · rintro ⟨cluster, known, nodeMember, assign, joins, atNode, follows, keeps⟩
    obtain ⟨index, here⟩ := exists_mem_zipIdx known
    obtain rfl := invariant.consistent.eq_of_mem_streams here member nodeMember inside
    refine ⟨assign, joins, ?_, keeps⟩
    intro stream streamMember other hinted
    rw [hinted_installHints] at hinted
    split_ifs at hinted with same
    · subst same
      rw [hint, some.injEq] at hinted
      rw [atNode, hinted]
    · exact follows stream streamMember same other hinted

/-- Hints that leave the policy hint as it is, or clear it. -/
theorem Invariant.installHints_weaker {old hints : BalancerHints F}
    (registered : circuit.balancer.integrals node = some old)
    (weaker : ∀ policy, hints.policyHint = some policy → old.policyHint = some policy) :
    Invariant { circuit with balancer := circuit.balancer.installHints node entry.2 hints } graph := by
  refine invariant.installHints member inside ?_
  obtain ⟨assign, respects⟩ := invariant.solvable _ (mem_clusters_of_zipIdx member)
  refine ⟨assign, { respects with hints := ?_ }⟩
  intro stream streamMember policy hinted
  refine respects.hints stream streamMember policy ?_
  rw [hinted_installHints] at hinted
  split_ifs at hinted with same
  · subst same
    exact ⟨old, registered, weaker policy hinted⟩
  · exact hinted

end

omit invariant

/-! ## Steps -/

theorem mem_reports_rebalancing {worker : Fin (others + 1)}
    (rebalancing : (circuit.sender stream worker).flushState.rebalancing = true) :
    (circuit.reports stream).any
      (fun report => report.any fun report => report.flushState.rebalancing) = true := by
  refine any_eq_true.mpr ⟨some (circuit.sender stream worker), ?_, by simpa using rebalancing⟩
  exact mem_ofFn.mpr ⟨worker, rfl⟩

section

variable (registered : ∀ stream,
    (circuit.balancer.integrals stream).isSome ↔ stream ∈ circuit.streams)

include registered

/-- The balancer then knows the senders of the registered streams. -/
theorem metadata_updateMetadata (stream : NodeId) :
    circuit.updateMetadata.balancer.metadata stream =
      if stream ∈ circuit.streams then some (circuit.reports stream) else none := by
  simp only [BalancedCircuit.updateMetadata, parseMetadata, registered stream]

/-- What the balancer then knows agrees with the installed policies. -/
theorem reports_updateMetadata (senders : ∀ stream ∈ circuit.streams, ∀ worker,
      (circuit.sender stream worker).currentPolicy = circuit.balancer.solution stream)
    (stream : NodeId) :
    circuit.updateMetadata.balancer.metadata stream = none ∨
      ∃ sender : Fin (others + 1) → SenderMetadata others,
        circuit.updateMetadata.balancer.metadata stream =
          some (ofFn fun worker => some (sender worker)) ∧
        ∀ worker, (sender worker).currentPolicy = circuit.balancer.solution stream := by
  rw [metadata_updateMetadata registered]
  split_ifs with member
  · exact Or.inr ⟨circuit.sender stream, rfl, senders stream member⟩
  · exact Or.inl rfl

end

/-- Exchanging metadata between steps tells the balancer nothing that binds it. -/
theorem Invariant.updateMetadata (invariant : circuit.Invariant graph) :
    Invariant circuit.updateMetadata graph := by
  have sameFixed : ∀ stream ∈ circuit.streams,
      circuit.updateMetadata.balancer.Fixed stream → circuit.balancer.Fixed stream := by
    rintro stream member ⟨inProgress, rebalancing⟩
    refine ⟨inProgress, ?_⟩
    rw [metadata_updateMetadata invariant.registered, if_pos member] at rebalancing
    rw [invariant.current inProgress stream member]
    exact rebalancing
  refine { invariant with
    consistent := { invariant.consistent with
      reports := reports_updateMetadata invariant.registered invariant.senders }
    solvable := ?_, current := ?_ }
  · intro cluster known
    obtain ⟨assign, respects⟩ := invariant.solvable cluster known
    refine ⟨assign, { respects with keeps := fun stream member fixed => ?_ }⟩
    exact respects.keeps stream member (sameFixed stream (mem_streams known member) fixed)
  · intro _ stream member
    exact (metadata_updateMetadata invariant.registered stream).trans (if_pos member)

/-- A sender accepts the policies of a step and uses them. -/
theorem Invariant.eval_spec (invariant : circuit.Invariant graph)
    (transaction : circuit.transactionStarted = true) {cluster : Cluster}
    (known : cluster ∈ circuit.balancer.clusters) {assign : NodeId → PartitioningPolicy}
    (respects : circuit.balancer.Respects cluster assign) (member : stream ∈ cluster.streams)
    (worker : Fin (others + 1)) (choice : SenderChoice others) :
    ∃ sender, (circuit.sender stream worker).eval choice (some (assign stream)) = some sender ∧
      sender.currentPolicy = some (assign stream) := by
  have inCircuit := mem_streams known member
  have keeps : (circuit.sender stream worker).flushState.rebalancing = true →
      (circuit.sender stream worker).currentPolicy = some (assign stream) := by
    intro rebalancing
    have inProgress : circuit.balancer.transactionInProgress = true := by
      by_contra notYet
      rw [invariant.fresh transaction (by simpa using notYet)] at rebalancing
      cases rebalancing
    obtain ⟨policy, installed⟩ := invariant.complete inProgress stream inCircuit
    rw [invariant.senders stream inCircuit, installed,
      respects.keeps stream member ⟨inProgress, ?_⟩ policy installed]
    rw [invariant.current inProgress stream inCircuit]
    exact mem_reports_rebalancing rebalancing
  unfold Sender.eval
  cases state : (circuit.sender stream worker).flushState with
  | transactionStarted => exact ⟨_, rfl, rfl⟩
  | flushRequested => exact ⟨_, rfl, rfl⟩
  | rebalanceInProgress =>
    have kept := keeps (by rw [state]; rfl)
    simp only
    split_ifs
    · exact ⟨_, rfl, kept⟩
    · exact ⟨_, rfl, kept⟩
  | flushCompleted =>
    have kept := keeps (by rw [state]; rfl)
    simp only
    rw [if_pos kept]
    exact ⟨_, rfl, kept⟩

/-- The senders are evaluated if each of them can be. -/
theorem evalSenders_spec {choices : NodeId → Fin (others + 1) → SenderChoice others}
    (accepts : ∀ stream ∈ circuit.streams, ∀ worker, ((circuit.sender stream worker).eval
      (choices stream worker) (circuit.balancer.solution stream)).isSome) :
    ∃ senders, circuit.evalSenders choices = some { circuit with sender := senders } ∧
      ∀ stream ∈ circuit.streams, ∀ worker, (circuit.sender stream worker).eval
        (choices stream worker) (circuit.balancer.solution stream) = some (senders stream worker) := by
  unfold evalSenders
  rw [if_pos accepts]
  refine ⟨_, rfl, fun stream member worker => ?_⟩
  obtain ⟨sender, result⟩ := isSome_iff_exists.mp (accepts stream member worker)
  simp [member, result]

section

variable (invariant : circuit.Invariant graph)

include invariant

variable (tuning : Tuning F)

/-- A step succeeds, and afterwards the senders use compatible policies. -/
theorem Invariant.step (transaction : circuit.transactionStarted = true)
    (choices : NodeId → Fin (others + 1) → SenderChoice others) :
    ∃ balancer evaluated, circuit.balancer.startStep tuning = .returns balancer ∧
      evalSenders { circuit with balancer := balancer, beforeFirstStep := false } choices =
        some evaluated ∧ Invariant evaluated.updateMetadata graph := by
  have consistent := invariant.consistent
  obtain ⟨solution, distribution, started, solved⟩ :=
    consistent.startStep_spec tuning invariant.follows invariant.solvable
  have accepts : ∀ stream ∈ circuit.streams, ∀ worker, ∃ sender,
      (circuit.sender stream worker).eval (choices stream worker) (solution stream) = some sender ∧
        sender.currentPolicy = solution stream := by
    intro stream member worker
    obtain ⟨cluster, known, inside⟩ := mem_flatMap.mp member
    obtain ⟨assign, installed, respects⟩ := solved cluster known
    rw [installed stream inside]
    exact invariant.eval_spec transaction known respects inside worker (choices stream worker)
  obtain ⟨senders, evaluates, results⟩ := @evalSenders_spec others F
    { circuit with
      balancer := { circuit.balancer with
        solution := solution
        lastDistribution := distribution
        refreshRequested := fun _ => false
        transactionInProgress := true }
      beforeFirstStep := false }
    choices (fun stream member worker => by
      obtain ⟨sender, result, -⟩ := accepts stream member worker
      exact isSome_iff_exists.mpr ⟨sender, result⟩)
  have used : ∀ stream ∈ circuit.streams, ∀ worker,
      (senders stream worker).currentPolicy = solution stream := by
    intro stream member worker
    obtain ⟨sender, result, policy⟩ := accepts stream member worker
    rw [← policy, some.inj (result.symm.trans (results stream member worker))]
  refine ⟨_, _, started, evaluates, { invariant with
    consistent := { consistent with
      reports := reports_updateMetadata invariant.registered used, allowed := ?_ }
    follows := ?_, solvable := ?_, senders := used, started := fun _ => transaction
    complete := ?_, current := ?_, fresh := ?_ }⟩
  · intro cluster known join joined left right installedLeft installedRight
    obtain ⟨assign, installed, respects⟩ := solved cluster known
    obtain ⟨leftMember, rightMember⟩ := cluster.joins_mem join joined
    rw [← some.inj ((installed _ leftMember).symm.trans installedLeft),
      ← some.inj ((installed _ rightMember).symm.trans installedRight)]
    exact respects.joins join joined
  · intro entry member _ stream inside hint policy hinted installedHere
    obtain ⟨assign, installed, respects⟩ := solved entry.1 (mem_clusters_of_zipIdx member)
    rw [← some.inj ((installed _ inside).symm.trans installedHere)]
    exact respects.hints stream inside hint hinted
  · intro cluster known
    obtain ⟨assign, installed, respects⟩ := solved cluster known
    refine ⟨assign, { respects with keeps := fun stream inside _ policy installedHere => ?_ }⟩
    exact some.inj ((installed _ inside).symm.trans installedHere)
  · intro _ stream member
    obtain ⟨cluster, known, inside⟩ := mem_flatMap.mp member
    obtain ⟨assign, installed, -⟩ := solved cluster known
    exact ⟨assign stream, installed stream inside⟩
  · intro _ stream member
    refine (metadata_updateMetadata ?_ stream).trans (if_pos member)
    exact invariant.registered
  · rintro - ⟨⟩

/-! ## Runs -/

/-- A hint is set for a stream of the graph, and a policy hint is enforceable. -/
def Admissible (circuit : BalancedCircuit others F) : Event others F → Prop
  | .setHint node (.policy (some policy)) => Enforceable circuit.balancer node policy
  | .setHint node _ => node ∈ circuit.streams
  | _ => True

/-- A hint that does not set a policy is accepted and keeps the invariant. -/
theorem Invariant.next_setHint {tuning : Tuning F}
    (member : node ∈ circuit.streams) {hint : BalancerHint F}
    (change : BalancerHints F → BalancerHints F)
    (accepts : ∀ entry hints, circuit.balancer.streamToCluster node = some entry →
      circuit.balancer.integrals node = some hints → circuit.balancer.setHint tuning node hint =
        some (.ok (), circuit.balancer.installHints node entry.2 (change hints)))
    (weaker : ∀ hints policy, (change hints).policyHint = some policy →
      hints.policyHint = some policy) :
    ∃ after, circuit.next tuning (.setHint node hint) = some after ∧ after.Invariant graph := by
  obtain ⟨entry, entryMember, found, inside⟩ := streamToCluster_spec member
  obtain ⟨hints, registered⟩ := isSome_iff_exists.mp ((invariant.registered node).mpr member)
  refine ⟨_, ?_, invariant.installHints_weaker entryMember inside registered (weaker hints)⟩
  simp [BalancedCircuit.next, accepts entry hints found registered]

/-- Every event but the hints keeps the invariant; a hint does if it is admissible. -/
theorem Invariant.next {event : Event others F} (admissible : circuit.Admissible event) :
    ∃ after, circuit.next tuning event = some after ∧ after.Invariant graph := by
  have consistent := invariant.consistent
  cases event with
  | setHint node hint =>
    match hint with
    | .policy (some policy) =>
      have enforceable : Enforceable circuit.balancer node policy := admissible
      obtain ⟨cluster, known, nodeMember, -⟩ := enforceable
      obtain ⟨entry, member, hints, inside, -, accepted⟩ :=
        invariant.setHint_policy tuning (mem_streams known nodeMember) policy
      refine ⟨_, by simp only [BalancedCircuit.next, accepted]; rfl, ?_⟩
      exact invariant.installHints member inside
        ((invariant.respects_installHints_iff member inside rfl).mpr admissible)
    | .policy none =>
      exact invariant.next_setHint admissible (fun hints => { hints with policyHint := none })
        (fun entry hints found registered => by simp [setHint, found, registered])
        (fun hints policy impossible => by cases impossible)
    | .size size =>
      exact invariant.next_setHint admissible (fun hints => { hints with sizeHint := size })
        (fun entry hints found registered => by simp [setHint, found, registered])
        (fun hints policy same => same)
    | .skew skew =>
      exact invariant.next_setHint admissible (fun hints => { hints with skewHint := skew })
        (fun entry hints found registered => by simp [setHint, found, registered])
        (fun hints policy same => same)
  | setAutoRebalance =>
    refine ⟨_, rfl, { invariant with consistent := { consistent with }, solvable := ?_ }⟩
    intro cluster known
    obtain ⟨assign, respects⟩ := invariant.solvable cluster known
    exact ⟨assign, { respects with }⟩
  | rebalance =>
    refine ⟨_, rfl, { invariant with
      consistent := { consistent with }, follows := ?_, solvable := ?_ }⟩
    · rintro entry - ⟨⟩
    · intro cluster known
      obtain ⟨assign, respects⟩ := invariant.solvable cluster known
      exact ⟨assign, { respects with }⟩
  | startTransaction =>
    simp only [BalancedCircuit.next]
    split_ifs with already
    · exact ⟨circuit, rfl, invariant⟩
    · have notInProgress : circuit.balancer.transactionInProgress = false := by
        by_contra inProgress
        exact already (invariant.started (by simpa using inProgress))
      refine ⟨_, rfl, { invariant with
        started := fun _ => rfl, current := ?_, fresh := fun _ _ _ _ => rfl }⟩
      intro inProgress
      rw [notInProgress] at inProgress
      cases inProgress
  | step choices =>
    simp only [BalancedCircuit.next]
    split_ifs with transaction first
    rotate_right
    · exact ⟨circuit, rfl, invariant⟩
    on_goal 1 => have stepped := invariant.updateMetadata.step tuning transaction choices
    on_goal 2 => have stepped := invariant.step tuning transaction choices
    all_goals
      obtain ⟨balancer, evaluated, started, evaluates, holds⟩ := stepped
      refine ⟨evaluated.updateMetadata, ?_, holds⟩
      rw [started]
      simp only
      rw [evaluates]
      rfl
  | commit =>
    simp only [BalancedCircuit.next]
    split_ifs with flushed
    · refine ⟨_, rfl, { invariant with
        consistent := { consistent with }, solvable := ?_
        started := ?_, complete := ?_, current := ?_, fresh := ?_ }⟩
      · intro cluster known
        obtain ⟨assign, respects⟩ := invariant.solvable cluster known
        exact ⟨assign, { respects with keeps := fun stream _ fixed => by cases fixed.1 }⟩
      all_goals rintro ⟨⟩
    · exact ⟨circuit, rfl, invariant⟩

end

/-- Every hint of the run is admissible in the state in which it is set. -/
def AdmissibleRun (graph : JoinGraph) (events : List (Event others F)) : Prop :=
  ∀ earlier event later, events = earlier ++ event :: later →
    ∀ circuit, Run.run (next tuning) (.new graph) earlier = some circuit → circuit.Admissible event

theorem invariant_of_run {tuning : Tuning F} {graph : JoinGraph}
    {events : List (Event others F)} (admissible : AdmissibleRun tuning graph events) :
    ∃ circuit, Run.run (BalancedCircuit.next tuning) (.new graph) events = some circuit ∧
      circuit.Invariant graph :=
  Run.invariant_of_meets (fun circuit : BalancedCircuit others F => circuit.Invariant graph)
    (invariant_new graph) (fun _ _ allowed invariant => invariant.next tuning allowed) admissible

/-- In a run whose policy hints are all enforceable nothing fails, and in every state:
the next step finds policies that follow all hints and that every join allows, a
refused hint changes nothing, and a further policy hint, which is always accepted,
leaves the next step a solution exactly if it is enforceable. -/
theorem policies_compatible (tuning : Tuning F) (graph : JoinGraph)
    (events : List (Event others F)) (admissible : AdmissibleRun tuning graph events) :
    ∃ circuit, Run.run (BalancedCircuit.next tuning) (.new graph) events = some circuit ∧
      (∃ balancer, circuit.balancer.startStep tuning = .returns balancer ∧
        (∀ stream ∈ circuit.streams, ∀ policy, circuit.balancer.Hinted stream policy →
          balancer.solution stream = some policy) ∧
        ∀ cluster ∈ graph.clusters, ∀ join ∈ cluster.joins, ∃ left right,
          balancer.solution join.v1 = some left ∧ balancer.solution join.v2 = some right ∧
            join.allows left right) ∧
      (∀ node hint error balancer,
        circuit.balancer.setHint tuning node hint = some (.error error, balancer) →
          balancer = circuit.balancer) ∧
      ∀ node ∈ circuit.streams, ∀ policy, ∃ hinted,
        circuit.balancer.setHint tuning node (.policy (some policy)) = some (.ok (), hinted) ∧
        ((∃ balancer, hinted.startStep tuning = .returns balancer) ↔
          Enforceable circuit.balancer node policy) := by
  obtain ⟨circuit, reached, invariant⟩ := invariant_of_run admissible
  refine ⟨circuit, reached, ?_, ?_, ?_⟩
  · obtain ⟨solution, distribution, started, solved⟩ :=
      invariant.consistent.startStep_spec tuning invariant.follows invariant.solvable
    refine ⟨_, started, ?_, ?_⟩
    · intro stream member policy hinted
      obtain ⟨cluster, known, inside⟩ := mem_flatMap.mp member
      obtain ⟨assign, installed, respects⟩ := solved cluster known
      rw [← respects.hints stream inside policy hinted]
      exact installed stream inside
    · intro cluster known join joined
      rw [← invariant.clusters] at known
      obtain ⟨assign, installed, respects⟩ := solved cluster known
      obtain ⟨left, right⟩ := cluster.joins_mem join joined
      exact ⟨_, _, installed _ left, installed _ right, respects.joins join joined⟩
  · intro node hint error balancer refused
    unfold setHint at refused
    repeat' split at refused
    all_goals
      simp only [Option.some.injEq, Prod.mk.injEq, reduceCtorEq, false_and] at refused
    all_goals exact refused.2.symm
  · intro node member policy
    obtain ⟨entry, entryMember, hints, inside, -, accepted⟩ :=
      invariant.setHint_policy tuning member policy
    refine ⟨_, accepted, ?_⟩
    rw [← invariant.respects_installHints_iff entryMember inside
      (show ({ hints with policyHint := some policy } : BalancerHints F).policyHint =
        some policy from rfl)]
    constructor
    · rintro ⟨balancer, started⟩
      refine (consistent_installHints invariant.consistent _ _ _).respects_of_startStep started
        entryMember ?_
      simp [BalancerInner.installHints]
    · intro solvable
      have invariantAfter := invariant.installHints entryMember inside solvable
      obtain ⟨solution, distribution, started, -⟩ :=
        invariantAfter.consistent.startStep_spec tuning invariantAfter.follows
          invariantAfter.solvable
      exact ⟨_, started⟩

/-- Two streams and the join between them. -/
def twoStreams : JoinGraph :=
  { clusters := [{ streams := [0, 1], joins := [⟨0, 1, false⟩], joins_mem := by simp }]
    disjoint := by simp }

/-- Whole numbers for the factors. -/
def wholeTuning : Tuning Nat :=
  { scale := fun size factor => size * factor
    balanceTax := 1
    relativeImprovement := fun new current => new < current
    minAbsoluteImprovement := 10000
    sizeChanged := fun current last => current ≠ last }

/-- Broadcasting one of the two streams is enforceable, and the next step does it. -/
theorem policies_compatible_twoStreams : AdmissibleRun wholeTuning twoStreams
      [(.setHint 0 (.policy (some .broadcast)) : Event 1 Nat), .startTransaction] ∧
    ∃ circuit : BalancedCircuit 1 Nat, Run.run (BalancedCircuit.next wholeTuning) (.new twoStreams)
        [.setHint 0 (.policy (some .broadcast)), .startTransaction] = some circuit ∧
      ∃ balancer, circuit.balancer.startStep wholeTuning = .returns balancer := by
  have admissible : AdmissibleRun wholeTuning twoStreams
      [(.setHint 0 (.policy (some .broadcast)) : Event 1 Nat), .startTransaction] := by
    intro earlier event later split circuit reached
    match earlier with
    | [] =>
      obtain ⟨rfl, -⟩ := List.cons.inj split
      cases reached
      refine ⟨_, mem_singleton_self _, by simp, fun node => if node = 0 then .broadcast else .shard,
        ?_, rfl, ?_, ?_⟩
      · simp [JoinConstraint.allows, compatible]
      · rintro stream - - hint ⟨hints, registered, hinted⟩
        simp only [BalancedCircuit.new, BalancerInner.new] at registered
        split_ifs at registered
        cases registered
        cases hinted
      · rintro stream - fixed
        cases fixed.1
    | [_] =>
      obtain ⟨-, split⟩ := List.cons.inj split
      obtain ⟨rfl, -⟩ := List.cons.inj split
      trivial
    | _ :: _ :: _ => simp at split
  obtain ⟨circuit, reached, ⟨balancer, started, -⟩, -⟩ :=
    policies_compatible wholeTuning twoStreams _ admissible
  exact ⟨admissible, circuit, reached, balancer, started⟩

/-- Broadcasting both is not, but both hints are accepted; the next step has no
solution. -/
theorem startStep_fails_after_two_broadcasts : ∃ first second : BalancerInner 1 Nat,
      (BalancerInner.new twoStreams.clusters).setHint wholeTuning 0 (.policy (some .broadcast)) =
        some (.ok (), first) ∧
      first.setHint wholeTuning 1 (.policy (some .broadcast)) = some (.ok (), second) ∧
      second.startStep wholeTuning = .fails .noSolution :=
  ⟨_, _, rfl, rfl, rfl⟩

end OpenDera.Balance.BalancedCircuit
