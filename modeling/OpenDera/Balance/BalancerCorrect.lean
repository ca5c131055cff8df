import Mathlib.Data.List.Pairwise
import OpenDera.Balance.Balancer
import OpenDera.Balance.MaxSatSearch

/-!
# What a step of the balancer installs

`Respects` is the balancer's problem in declarative form: policies that every join of
the cluster allows, that follow the hints, and that keep the policy of every stream
that can no longer change. A cluster is solved exactly when such policies exist, and
what is installed respects them, whether it is the new solution or the policies in
effect.
-/

namespace OpenDera.Balance.BalancerInner

open List Bool

variable {others : Nat} {F : Type} (balancer : BalancerInner others F)

/-- A policy hint is in force for the stream. -/
def Hinted (stream : NodeId) (policy : PartitioningPolicy) : Prop :=
  ∃ hints, balancer.integrals stream = some hints ∧ hints.policyHint = some policy

/-- Some worker has started to rebalance the stream in the current transaction. -/
def Fixed (stream : NodeId) : Prop :=
  balancer.transactionInProgress = true ∧
    ((balancer.metadata stream).getD []).any
      (fun report => report.any fun report => report.flushState.rebalancing) = true

/-- Policies that the joins allow, that follow the hints and keep what is fixed. -/
structure Respects (cluster : Cluster) (assign : NodeId → PartitioningPolicy) : Prop where
  joins : ∀ join ∈ cluster.joins, join.allows (assign join.v1) (assign join.v2)
  hints : ∀ stream ∈ cluster.streams, ∀ policy, balancer.Hinted stream policy →
    assign stream = policy
  keeps : ∀ stream ∈ cluster.streams, balancer.Fixed stream →
    ∀ policy, balancer.solution stream = some policy → assign stream = policy

/-- What the balancer knows is consistent: streams are registered, all workers report
the installed policy, and installed policies are compatible. -/
structure Consistent : Prop where
  active : balancer.activeNodes = none
  registered : ∀ cluster ∈ balancer.clusters, ∀ stream ∈ cluster.streams,
    ∃ hints, balancer.integrals stream = some hints
  disjoint : balancer.clusters.Pairwise fun first second =>
    ∀ stream ∈ first.streams, stream ∉ second.streams
  reports : ∀ stream, balancer.metadata stream = none ∨
    ∃ sender : Fin (others + 1) → SenderMetadata others,
      balancer.metadata stream = some (ofFn fun worker => some (sender worker)) ∧
      ∀ worker, (sender worker).currentPolicy = balancer.solution stream
  allowed : ∀ cluster ∈ balancer.clusters, ∀ join ∈ cluster.joins, ∀ left right,
    balancer.solution join.v1 = some left → balancer.solution join.v2 = some right →
    join.allows left right

variable {balancer}

/-! ## Domains -/

/-- A policy is possible for a stream if its hint and its fixed policy agree with it. -/
def Possible (balancer : BalancerInner others F) (stream : NodeId)
    (policy : PartitioningPolicy) : Prop :=
  (∀ hint, balancer.Hinted stream hint → policy = hint) ∧
    (balancer.Fixed stream → ∀ current, balancer.solution stream = some current → policy = current)

variable {stream : NodeId} {hints : BalancerHints F}

/-- The fixed policy of a stream, or an error if its hint contradicts it. -/
theorem Consistent.getFixedPolicy_spec (consistent : balancer.Consistent)
    (registered : balancer.integrals stream = some hints) :
    (balancer.getFixedPolicy stream ((balancer.metadata stream).getD []) hints).Decides
      (fun fixed => ∀ policy, balancer.Possible stream policy ↔
        ∀ only, fixed = some only → policy = only)
      (∀ policy, ¬ balancer.Possible stream policy) := by
  have hinted : ∀ policy, balancer.Hinted stream policy ↔ hints.policyHint = some policy := by
    unfold Hinted
    rw [registered]
    simp
  unfold getFixedPolicy
  rw [consistent.active]
  simp only [Option.any_none, false_eq_true, if_false]
  split_ifs with flushed
  · -- Some worker rebalances, so all workers report the installed policy.
    rw [and_eq_true] at flushed
    have fixed : balancer.Fixed stream := ⟨flushed.2, flushed.1⟩
    rcases consistent.reports stream with nothing | ⟨sender, reported, same⟩
    · simp [nothing] at flushed
    · have agree : (ofFn fun worker => some (sender worker)).all (fun report =>
          report.any fun report => report.currentPolicy = (sender 0).currentPolicy) = true := by
        simp [all_eq_true, mem_ofFn, same]
      have front : (ofFn fun worker => some (sender worker)) =
          some (sender 0) :: ofFn fun worker : Fin others => some (sender worker.succ) :=
        ofFn_succ
      simp only [reported, Option.getD_some]
      rw [front] at agree ⊢
      simp only [agree, if_true]
      rw [same 0]
      cases current : balancer.solution stream with
      | none =>
        cases hint : hints.policyHint with
        | none | some => exact Or.inl ⟨_, rfl, by simp [Possible, hinted, hint, current]⟩
      | some installed =>
        cases hint : hints.policyHint with
        | none => exact Or.inl ⟨_, rfl, by simp [Possible, hinted, hint, current, fixed]⟩
        | some wanted =>
          simp only
          split_ifs with equal
          · subst equal
            exact Or.inl ⟨_, rfl, by simp [Possible, hinted, hint, current, fixed]⟩
          · refine Or.inr ⟨⟨_, rfl⟩, ?_⟩
            rintro policy ⟨follows, keeps⟩
            rw [follows wanted ((hinted wanted).mpr hint)] at keeps
            exact equal (keeps fixed installed current).symm
  · have unfixed : ¬ balancer.Fixed stream := by
      rintro ⟨inProgress, rebalancing⟩
      exact flushed (by rw [rebalancing, inProgress]; rfl)
    exact .inl ⟨_, rfl, by simp [Possible, unfixed, hinted]⟩

theorem computeDomain_isSome (tuning : Tuning F)
    (metadata : List (Option (SenderMetadata others))) (hints : BalancerHints F)
    (policy : PartitioningPolicy) : (computeDomain tuning metadata hints policy).isSome := by
  cases policy <;> rfl

/-- The domain of a stream holds the possible policies; there is none only if the hint
contradicts the fixed policy. -/
theorem Consistent.streamDomain_spec (consistent : balancer.Consistent) (tuning : Tuning F)
    (registered : balancer.integrals stream = some hints) :
    (balancer.streamDomain tuning false stream).Decides
      (fun domain => (∀ policy, (domain policy).isSome ↔ balancer.Possible stream policy) ∧
        ∃ policy, balancer.Possible stream policy)
      (∀ policy, ¬ balancer.Possible stream policy) := by
  unfold streamDomain
  simp only [registered]
  refine (consistent.getFixedPolicy_spec registered).bind id fun fixed possible => ?_
  cases fixed with
  | none =>
    refine .inl ⟨_, rfl, fun policy => ?_, .shard, (possible _).mpr (by simp)⟩
    simp [possible, computeDomain_isSome]
  | some only =>
    refine .inl ⟨_, rfl, fun policy => ?_, only, (possible _).mpr (by simp)⟩
    rw [possible]
    by_cases equal : policy = only <;> simp [equal, computeDomain_isSome]

variable {streams : List NodeId}

/-- The domains of all streams, if each of them has a possible policy. -/
theorem Consistent.clusterDomains_spec (consistent : balancer.Consistent) (tuning : Tuning F)
    (registered : ∀ stream ∈ streams, ∃ hints, balancer.integrals stream = some hints) :
    (balancer.clusterDomains tuning false streams).Decides
      (fun domains => (∀ stream ∈ streams, ∀ policy,
          (domains stream policy).isSome ↔ balancer.Possible stream policy) ∧
        ∀ stream ∈ streams, ∃ policy, balancer.Possible stream policy)
      (∃ stream ∈ streams, ∀ policy, ¬ balancer.Possible stream policy) := by
  induction streams with
  | nil => exact Or.inl ⟨_, rfl, by simp⟩
  | cons stream _ ih =>
    obtain ⟨hints, found⟩ := registered stream (by simp)
    unfold clusterDomains
    refine (consistent.streamDomain_spec tuning found).bind (fun none => ⟨stream, by simp, none⟩)
      fun domain ⟨possible, exist⟩ => ?_
    refine (ih fun other member => registered other (by simp [member])).bind
      (fun ⟨other, member, never⟩ => ⟨other, by simp [member], never⟩)
      fun domains ⟨possibles, existRest⟩ => .inl ⟨_, rfl, ?_, forall_mem_cons.mpr ⟨exist, existRest⟩⟩
    intro other member policy
    by_cases same : other = stream
    · subst same
      simp [possible]
    · simp only [Function.update_of_ne same]
      exact possibles other (by simpa [same] using member) policy

/-! ## Solving a cluster -/

variable {cluster : Cluster}

theorem respects_iff {assign : NodeId → PartitioningPolicy} : balancer.Respects cluster assign ↔
      (∀ join ∈ cluster.joins, join.allows (assign join.v1) (assign join.v2)) ∧
      ∀ stream ∈ cluster.streams, balancer.Possible stream (assign stream) :=
  ⟨fun respects => ⟨respects.joins, fun stream member =>
      ⟨respects.hints stream member, respects.keeps stream member⟩⟩,
    fun possible => ⟨possible.1, fun stream member => (possible.2 stream member).1,
      fun stream member => (possible.2 stream member).2⟩⟩

theorem lookup_map_assign (member : stream ∈ streams) (assign : NodeId → PartitioningPolicy) :
    (streams.map fun stream => (stream, assign stream)).lookup stream = some (assign stream) := by
  induction streams with
  | nil => simp at member
  | cons head _ ih =>
    by_cases same : stream = head
    · subst same
      simp
    · have apart : (stream == head) = false := by simpa using same
      rw [map_cons, lookup_cons, apart]
      exact ih (by simpa [same] using member)

variable {domains : NodeId → Domain}

/-- Solving with the domains of possible policies. -/
theorem solveClusterWithDomains_spec (possible : ∀ stream ∈ cluster.streams, ∀ policy,
      (domains stream policy).isSome ↔ balancer.Possible stream policy)
    (nonempty : ∀ stream ∈ cluster.streams, ∃ policy, balancer.Possible stream policy) :
    (solveClusterWithDomains cluster domains).Decides
      (fun policies => ∃ assign, (∀ stream ∈ cluster.streams, policies stream = some (assign stream)) ∧
        balancer.Respects cluster assign)
      (∀ assign, ¬ balancer.Respects cluster assign) := by
  have noConflict : MaxSat.conflict
      { vars := cluster.streams, constraints := cluster.joins, domain := domains } = false := by
    rw [← not_eq_true, MaxSat.conflict_iff]
    rintro ⟨stream, member, empty⟩
    obtain ⟨policy, fits⟩ := nonempty stream member
    exact empty policy ((possible stream member policy).mpr fits)
  unfold solveClusterWithDomains
  rcases MaxSat.solve_spec
    { vars := cluster.streams, constraints := cluster.joins, domain := domains }
    cluster.joins_mem rfl noConflict with ⟨assign, result, satisfies, within⟩ | ⟨result, unsolvable⟩
  · refine Or.inl ⟨_, by rw [result], assign, ?_, ?_⟩
    · exact fun stream member => lookup_map_assign member assign
    · refine respects_iff.mpr ⟨satisfies, fun stream member => ?_⟩
      exact (possible stream member _).mp (within stream member)
  · refine Or.inr ⟨⟨_, by rw [result]⟩, fun assign respects => ?_⟩
    obtain ⟨joins, fits⟩ := respects_iff.mp respects
    exact unsolvable assign joins fun stream member =>
      (possible stream member _).mpr (fits stream member)

/-- An assignment is valid if it gives every stream a value of its domain. -/
theorem validateSolution_isSome {solution : NodeId → Option PartitioningPolicy} :
    (validateSolution streams solution domains).isSome ↔
      ∀ stream ∈ streams, ∃ policy, solution stream = some policy ∧ (domains stream policy).isSome := by
  have generalized : ∀ total : Option Cost, (streams.foldl (fun total stream => do
      let total ← total
      let policy ← solution stream
      let cost ← domains stream policy
      return total + cost) total).isSome ↔ total.isSome ∧ ∀ stream ∈ streams,
        ∃ policy, solution stream = some policy ∧ (domains stream policy).isSome := by
    induction streams with
    | nil => simp
    | cons stream _ ih =>
      intro total
      rw [foldl_cons, ih]
      cases total with
      | none => simp
      | some =>
        cases found : solution stream with
        | none => simp [found]
        | some policy =>
          cases cost : domains stream policy with
          | none => simp [found, cost]
          | some cost => simp [found, cost]
  exact (generalized (some 0)).trans (by simp)

/-- The policies in effect are the installed ones, as far as they were reported. -/
theorem Consistent.solution_of_currentEffective (consistent : balancer.Consistent)
    {policy : PartitioningPolicy}
    (effective : balancer.currentEffectivePolicy stream = some policy) :
    balancer.solution stream = some policy := by
  unfold currentEffectivePolicy at effective
  rcases consistent.reports stream with nothing | ⟨sender, reported, same⟩
  · simp [nothing] at effective
  · rw [reported, ofFn_succ] at effective
    simpa [same] using effective

/-- A cluster is solved by policies that respect hints, joins and fixed policies, and
solving fails only if there are none. -/
theorem Consistent.solveCluster_spec (consistent : balancer.Consistent) (tuning : Tuning F)
    (known : cluster ∈ balancer.clusters) :
    (balancer.solveCluster tuning cluster false).Decides
      (fun policies => ∃ assign, (∀ stream ∈ cluster.streams, policies stream = some (assign stream)) ∧
        balancer.Respects cluster assign)
      (∀ assign, ¬ balancer.Respects cluster assign) := by
  unfold solveCluster
  refine (consistent.clusterDomains_spec tuning (consistent.registered cluster known)).bind
    (fun ⟨stream, member, never⟩ assign respects => ?_) fun domains ⟨possible, nonempty⟩ => ?_
  · exact never _ ((respects_iff.mp respects).2 stream member)
  refine (solveClusterWithDomains_spec possible nonempty).bind id fun policies ⟨assign, total, respects⟩ => ?_
  split
  · exact .inl ⟨policies, rfl, assign, total, respects⟩
  · cases current : validateSolution cluster.streams balancer.currentEffectivePolicy domains with
    | none => exact .inl ⟨policies, rfl, assign, total, respects⟩
    | some =>
      have valid : (validateSolution cluster.streams policies domains).isSome := by
        refine validateSolution_isSome.mpr fun stream member => ?_
        refine ⟨assign stream, total stream member, (possible stream member _).mpr ?_⟩
        exact (respects_iff.mp respects).2 stream member
      obtain ⟨newCost, costs⟩ := Option.isSome_iff_exists.mp valid
      rw [costs]
      simp only
      split_ifs
      · exact .inl ⟨policies, rfl, assign, total, respects⟩
      · exact .inl ⟨policies, rfl, assign, total, respects⟩
      · -- The policies in effect stay; they are installed, hence compatible.
        have stay := validateSolution_isSome.mp (Option.isSome_iff_exists.mpr ⟨_, current⟩)
        have effective : ∀ stream ∈ cluster.streams, balancer.currentEffectivePolicy stream =
            some ((balancer.currentEffectivePolicy stream).getD .shard) := by
          intro stream member
          obtain ⟨policy, here, -⟩ := stay stream member
          rw [here]
          rfl
        refine .inl ⟨balancer.currentEffectivePolicy, rfl, _, effective,
          respects_iff.mpr ⟨fun join joined => ?_, fun stream member => ?_⟩⟩
        · obtain ⟨left, right⟩ := cluster.joins_mem join joined
          exact consistent.allowed cluster known join joined _ _
            (consistent.solution_of_currentEffective (effective _ left))
            (consistent.solution_of_currentEffective (effective _ right))
        · obtain ⟨policy, here, inDomain⟩ := stay stream member
          rw [here]
          exact (possible stream member policy).mp inDomain

/-! ## Solving all clusters -/

/-- Installing policies for some streams changes their solutions only. -/
theorem foldl_setPolicyForStream (policies : NodeId → Option PartitioningPolicy)
    (streams : List NodeId) (base : BalancerInner others F) :
    ∃ distribution, streams.foldl (setPolicyForStream policies) base =
      { base with
        solution := fun stream =>
          if stream ∈ streams then (policies stream).or (base.solution stream) else base.solution stream
        lastDistribution := distribution } := by
  induction streams generalizing base with
  | nil => exact ⟨base.lastDistribution, rfl⟩
  | cons stream _ ih =>
    obtain ⟨distribution, installed⟩ :=
      ih (setPolicyForStream policies base stream)
    rw [foldl_cons, installed]
    refine ⟨distribution, ?_⟩
    unfold setPolicyForStream
    cases found : policies stream with
    | none | some =>
      congr 1
      funext other
      by_cases same : other = stream
      · subst same
        simp [found]
      · simp [same]

/-- The clusters that need it are solved one after the other. -/
theorem Consistent.solveClusters_spec (consistent : balancer.Consistent) (tuning : Tuning F)
    (entries : List (Cluster × Nat)) (known : ∀ entry ∈ entries, entry.1 ∈ balancer.clusters)
    (disjoint : entries.Pairwise fun first second =>
      ∀ stream ∈ first.1.streams, stream ∉ second.1.streams) :
    (balancer.solveClusters tuning entries).Decides
      (fun solutions => ∀ base : BalancerInner others F, ∃ solution distribution,
        solutions.foldl
          (fun balancer solved => solved.1.streams.foldl (setPolicyForStream solved.2) balancer) base =
            { base with solution := solution, lastDistribution := distribution } ∧
        (∀ entry ∈ entries, balancer.clusterNeedsRefresh tuning entry.2 entry.1 = true →
          ∃ assign, (∀ stream ∈ entry.1.streams, solution stream = some (assign stream)) ∧
            balancer.Respects entry.1 assign) ∧
        ∀ stream, (∀ entry ∈ entries, balancer.clusterNeedsRefresh tuning entry.2 entry.1 = true →
          stream ∉ entry.1.streams) → solution stream = base.solution stream)
      (∃ entry ∈ entries, balancer.clusterNeedsRefresh tuning entry.2 entry.1 = true ∧
        ∀ assign, ¬ balancer.Respects entry.1 assign) := by
  induction entries with
  | nil => exact Or.inl ⟨[], rfl, fun base => ⟨_, _, rfl, by simp, by simp⟩⟩
  | cons entry _ ih =>
    obtain ⟨cluster, index⟩ := entry
    obtain ⟨apart, disjointRest⟩ := pairwise_cons.mp disjoint
    have rest := ih (fun other member => known other (by simp [member])) disjointRest
    unfold solveClusters
    by_cases needed : balancer.clusterNeedsRefresh tuning index cluster = true
    · rw [if_pos needed]
      refine (consistent.solveCluster_spec tuning (known (cluster, index) (by simp))).bind
        (fun none => ⟨(cluster, index), by simp, needed, none⟩) fun policies ⟨assign, total, respects⟩ => ?_
      refine rest.bind (fun ⟨other, member, never⟩ => ⟨other, by simp [member], never⟩)
        fun solutions installs => .inl ⟨_, rfl, fun base => ?_⟩
      obtain ⟨distribution, first⟩ := foldl_setPolicyForStream policies cluster.streams base
      obtain ⟨solution, lastDistribution, installed, refreshed, unchanged⟩ :=
        installs (cluster.streams.foldl (setPolicyForStream policies) base)
      refine ⟨solution, lastDistribution, ?_, forall_mem_cons.mpr ⟨fun _ => ?_, refreshed⟩, ?_⟩
      · rw [foldl_cons, installed, first]
      · refine ⟨assign, fun stream inside => ?_, respects⟩
        rw [unchanged stream fun later laterMember _ => apart later laterMember stream inside, first]
        simp [inside, total stream inside]
      · intro stream outside
        rw [unchanged stream fun other member => outside other (by simp [member]), first]
        simp [outside (cluster, index) (by simp) needed]
    · rw [if_neg needed]
      rcases rest with ⟨solutions, solvedRest, installs⟩ | ⟨failed, other, member, none⟩
      · refine Or.inl ⟨solutions, solvedRest, fun base => ?_⟩
        obtain ⟨solution, lastDistribution, installed, refreshed, unchanged⟩ := installs base
        refine ⟨solution, lastDistribution, installed, ?_, ?_⟩
        · exact forall_mem_cons.mpr ⟨fun headNeeded => absurd headNeeded needed, refreshed⟩
        · intro stream outside
          exact unchanged stream fun other member => outside other (by simp [member])
      · exact Or.inr ⟨failed, other, by simp [member], none⟩

/-- A hint that is older than the last solution is followed by it. -/
def FollowsHints (balancer : BalancerInner others F) : Prop :=
  ∀ entry ∈ balancer.clusters.zipIdx, balancer.refreshRequested entry.2 = false →
    ∀ stream ∈ entry.1.streams, ∀ hint policy, balancer.Hinted stream hint →
      balancer.solution stream = some policy → policy = hint

theorem pairwise_zipIdx {clusters : List Cluster} (disjoint : clusters.Pairwise fun first second =>
      ∀ stream ∈ first.streams, stream ∉ second.streams) (start : Nat) :
    (clusters.zipIdx start).Pairwise fun first second =>
      ∀ stream ∈ first.1.streams, stream ∉ second.1.streams := by
  have mapped : ((clusters.zipIdx start).map Prod.fst).Pairwise fun first second =>
      ∀ stream ∈ first.streams, stream ∉ second.streams := by
    rwa [zipIdx_map_fst]
  exact pairwise_map.mp mapped

variable {entry : Cluster × Nat}

theorem mem_clusters_of_zipIdx
    (member : entry ∈ balancer.clusters.zipIdx) : entry.1 ∈ balancer.clusters :=
  fst_mem_of_mem_zipIdx member

theorem exists_mem_zipIdx (known : cluster ∈ balancer.clusters) :
    ∃ index, (cluster, index) ∈ balancer.clusters.zipIdx := by
  obtain ⟨index, inside, rfl⟩ := getElem_of_mem known
  exact ⟨index, mk_mem_zipIdx_iff_getElem?.mpr (getElem?_eq_getElem inside)⟩

/-- A cluster that needs no refresh has a complete solution and no new hint. -/
theorem complete_of_not_needed {tuning : Tuning F} {index : Nat}
    (fresh : ¬ balancer.clusterNeedsRefresh tuning index cluster = true) :
    balancer.refreshRequested index = false ∧
      ∀ stream ∈ cluster.streams, ∃ policy, balancer.solution stream = some policy := by
  unfold clusterNeedsRefresh at fresh
  split_ifs at fresh with requested incomplete <;> try exact absurd rfl fresh
  all_goals
    refine ⟨by simpa using requested, fun stream member => ?_⟩
    rw [← Option.isSome_iff_exists, ← Option.not_isNone, not_eq_true']
    by_contra lacks
    exact incomplete (any_eq_true.mpr ⟨stream, member, by simpa using lacks⟩)

variable (consistent : balancer.Consistent)

include consistent

/-- Different entries have different streams. -/
theorem Consistent.eq_of_mem_streams
    {first second : Cluster × Nat} (firstMember : first ∈ balancer.clusters.zipIdx)
    (secondMember : second ∈ balancer.clusters.zipIdx) (inFirst : stream ∈ first.1.streams)
    (inSecond : stream ∈ second.1.streams) : first = second := by
  by_contra different
  have symmetric : Std.Symm fun first second : Cluster × Nat =>
      ∀ stream ∈ first.1.streams, stream ∉ second.1.streams :=
    ⟨fun _ _ apart stream inSecond inFirst => apart stream inFirst inSecond⟩
  exact (pairwise_zipIdx consistent.disjoint 0).forall firstMember secondMember different
    stream inFirst inSecond

/-- The policies for a step respect hints, joins and fixed policies in every cluster. -/
theorem Consistent.startStep_spec (tuning : Tuning F) (follows : balancer.FollowsHints)
    (solvable : ∀ cluster ∈ balancer.clusters, ∃ assign, balancer.Respects cluster assign) :
    ∃ solution distribution, balancer.startStep tuning = .returns
        { balancer with
          solution := solution
          lastDistribution := distribution
          refreshRequested := fun _ => false
          transactionInProgress := true } ∧
      ∀ cluster ∈ balancer.clusters, ∃ assign,
        (∀ stream ∈ cluster.streams, solution stream = some (assign stream)) ∧
          balancer.Respects cluster assign := by
  rcases consistent.solveClusters_spec tuning balancer.clusters.zipIdx
      (fun entry member => mem_clusters_of_zipIdx member)
      (pairwise_zipIdx consistent.disjoint 0) with
    ⟨solutions, solved, installs⟩ | ⟨-, entry, member, -, none⟩
  · obtain ⟨solution, distribution, installed, refreshed, unchanged⟩ := installs balancer
    refine ⟨solution, distribution, ?_, fun cluster known => ?_⟩
    · unfold startStep solveAllClusters
      rw [solved]
      simp only [Outcome.returns_bind, Outcome.pure_eq, installed]
    · obtain ⟨index, entry⟩ := exists_mem_zipIdx known
      by_cases needed : balancer.clusterNeedsRefresh tuning index cluster = true
      · exact refreshed (cluster, index) entry needed
      · -- No refresh: the installed policies are complete and stay.
        obtain ⟨noNewHint, complete⟩ := complete_of_not_needed needed
        have stays : ∀ stream ∈ cluster.streams, solution stream = balancer.solution stream := by
          intro stream inside
          refine unchanged stream fun other otherMember otherNeeded otherInside => needed ?_
          rwa [consistent.eq_of_mem_streams otherMember entry otherInside inside] at otherNeeded
        have installedHere : ∀ stream ∈ cluster.streams, balancer.solution stream =
            some ((balancer.solution stream).getD .shard) := by
          intro stream inside
          obtain ⟨policy, here⟩ := complete stream inside
          rw [here]
          rfl
        refine ⟨fun stream => (balancer.solution stream).getD .shard, ?_, ?_, ?_, ?_⟩
        · exact fun stream inside => (stays stream inside).trans (installedHere stream inside)
        · intro join joined
          obtain ⟨left, right⟩ := cluster.joins_mem join joined
          exact consistent.allowed cluster known join joined _ _ (installedHere _ left)
            (installedHere _ right)
        · intro stream inside hint hinted
          exact follows (cluster, index) entry noNewHint stream inside hint _ hinted
            (installedHere stream inside)
        · intro stream inside _ policy here
          rw [here]
          rfl
  · obtain ⟨assign, respects⟩ := solvable entry.1 (mem_clusters_of_zipIdx member)
    exact absurd respects (none assign)

/-- A step whose policies cannot respect a requested cluster fails. -/
theorem Consistent.respects_of_startStep {tuning : Tuning F}
    {next : BalancerInner others F} (started : balancer.startStep tuning = .returns next)
    (member : entry ∈ balancer.clusters.zipIdx)
    (requested : balancer.refreshRequested entry.2 = true) :
    ∃ assign, balancer.Respects entry.1 assign := by
  have needed : balancer.clusterNeedsRefresh tuning entry.2 entry.1 = true := by
    simp [clusterNeedsRefresh, requested]
  unfold startStep solveAllClusters at started
  rcases consistent.solveClusters_spec tuning balancer.clusters.zipIdx
      (fun entry member => mem_clusters_of_zipIdx member)
      (pairwise_zipIdx consistent.disjoint 0) with
    ⟨solutions, -, installs⟩ | ⟨⟨error, failed⟩, -⟩
  · obtain ⟨solution, distribution, -, refreshed, -⟩ := installs balancer
    obtain ⟨assign, -, respects⟩ := refreshed entry member needed
    exact ⟨assign, respects⟩
  · rw [failed] at started
    cases started

end OpenDera.Balance.BalancerInner
