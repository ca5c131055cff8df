import OpenDera.Circuit.SchedulerInvariant

/-!
# What the scheduler does keeps its counters exact

Telling successors, processing notifications, joining a task and starting a step: each
succeeds and leaves the scheduler sound. A notification is processed safely as long as
it does not come from an operator that has become ready again while the task that
consumed its last input waits to be joined: joining that task clears the flag which
made the notification look like a duplicate.
-/

namespace OpenDera

open Dependencies List Function Run

namespace Inner

variable {plan : Plan} {operators : Operators} {owed rest heard : List NodeId} {inner : Inner}
  {node : NodeId} {flushOwed : Bool}

/-- Changing anything but the ready flag of a task does not concern notifications. -/
theorem Listening.setTask (listening : Listening plan operators heard inner) (node : NodeId)
    (task : Task) (same : task.isReady = (inner.tasks node).isReady) :
    Listening plan operators heard (inner.setTask node task) := by
  have unchanged : ∀ other, ((inner.setTask node task).tasks other).isReady =
      (inner.tasks other).isReady := observe_update Task.isReady same
  refine { listening with synchronous := ?_, known := ?_, running := ?_, announced := ?_ }
  · simpa only [unchanged] using listening.synchronous
  · simpa only [unchanged, setTask_running] using listening.known
  · simpa only [unchanged, setTask_running] using listening.running
  · simpa only [unchanged, setTask_running, setTask_handles, setTask_notified] using
      listening.announced

/-- Changing anything but the flush state of a task does not concern flushes. -/
theorem Flushing.setTask (flushing : Flushing plan owed inner) (node : NodeId)
    (task : Task) (same : task.flushState = (inner.tasks node).flushState) :
    Flushing plan owed (inner.setTask node task) :=
  flushing.congr (observe_update Task.flushState same) rfl rfl rfl rfl

/-! ## Telling the successors -/

variable {successor : NodeId}

/-- Change a task while nothing waits: its node waits afterwards if it can be spawned. -/
theorem Bookkeeping.setTask {later : List NodeId} (book : Bookkeeping plan owed [] inner)
    (member : node ∈ plan.nodes) {task : Task} {spawnable : Prop} [Decidable spawnable]
    (counted : ∀ other ∈ plan.nodes, (update inner.tasks node task other).unsatisfiedDependencies =
      pending plan.dependencies inner.seen.completed later other)
    (scheduled : task.scheduled = (inner.tasks node).scheduled)
    (satisfied : node ∈ inner.seen.evaluated → task.unsatisfiedDependencies = 0)
    (spawnable_iff : spawnable ↔ task.unsatisfiedDependencies = 0 ∧ task.isReady = true ∧
      node ∉ inner.seen.evaluated) :
    Bookkeeping plan later (if spawnable then [node] else []) (inner.setTask node task) := by
  refine { book with
    counted, scheduled := ?scheduled, eager := ?eager, waiting_nodup := ?waiting_nodup
    waiting_spawnable := ?waiting_spawnable, satisfied := ?satisfied }
  case scheduled =>
    intro other known
    rw [setTask_tasks, observe_update Task.scheduled scheduled]
    exact book.scheduled other known
  case eager =>
    intro other known zero ready
    by_cases same : other = node
    · subst same
      simp only [setTask_tasks, update_self] at zero ready
      by_cases done : other ∈ inner.seen.evaluated
      · exact .inl done
      · rw [if_pos (spawnable_iff.mpr ⟨zero, ready, done⟩)]
        exact .inr (mem_singleton_self _)
    · simp only [setTask_tasks, update_of_ne same] at zero ready
      rcases book.eager other known zero ready with done | waits
      · exact .inl done
      · cases waits
  case waiting_nodup => split <;> simp
  case waiting_spawnable =>
    intro other waits
    split at waits
    case isTrue condition =>
      obtain rfl := mem_singleton.mp waits
      simpa [member] using spawnable_iff.mp condition
    case isFalse => cases waits
  case satisfied =>
    intro other done
    by_cases same : other = node
    · subst same
      simpa using satisfied done
    · simpa [same] using book.satisfied other done

/-- Lower the counter of the first node that a completion is owed to. -/
theorem Bookkeeping.lower {unsatisfied : Nat}
    (book : Bookkeeping plan (successor :: rest) [] inner) (flushState : FlushState)
    (member : successor ∈ plan.nodes)
    (counter : (inner.tasks successor).unsatisfiedDependencies = unsatisfied + 1) :
    Bookkeeping plan rest
      (if unsatisfied = 0 ∧ (inner.tasks successor).isReady = true then [successor] else [])
      (inner.setTask successor { inner.tasks successor with
        unsatisfiedDependencies := unsatisfied, flushState := flushState }) := by
  have fresh : successor ∉ inner.seen.evaluated := by
    intro done
    have zero := book.satisfied successor done
    omega
  refine book.setTask member (fun other known => ?_) rfl (fun done => absurd done fresh)
    (by simp [fresh])
  have counted := book.counted other known
  by_cases same : other = successor
  · subst same
    rw [pending_cons, if_pos rfl] at counted
    simp only [update_self]
    omega
  · rw [pending_cons, if_neg (Ne.symm same)] at counted
    simpa [same] using counted

/-- The flush state of a node that a completed flush is owed to can be lowered. -/
theorem Flushing.lower (unsatisfied : Nat)
    (flushing : Flushing plan (if flushOwed then successor :: rest else []) inner)
    (member : successor ∈ plan.nodes) :
    ∃ flushState, (if flushOwed then (inner.tasks successor).flushState.decrement
        else some (inner.tasks successor).flushState) = some flushState ∧
      Flushing plan (if flushOwed then rest else []) (inner.setTask successor
        { inner.tasks successor with
          unsatisfiedDependencies := unsatisfied, flushState := flushState }) := by
  cases flushOwed with
  | false => exact ⟨_, rfl, flushing.setTask successor _ rfl⟩
  | true =>
    have account := flushing.account successor member
    simp only [if_true] at account flushing ⊢
    cases state : (inner.tasks successor).flushState with
    | unflushedDependencies =>
      rw [state] at account
      obtain ⟨unflushed, incomplete, counted⟩ := account
      rw [pending_cons, if_pos rfl] at counted
      subst counted
      refine ⟨_, rfl, ?_, flushing.phase, ?_⟩
      · intro other known
        by_cases same : other = successor
        · subst same
          simpa [FlushAccount] using ⟨unflushed, incomplete⟩
        · have accountOther := flushing.account other known
          simp only [setTask_tasks, update_of_ne same, setTask_seen]
          have lowered : pending plan.dependencies inner.seen.flushCompleted (successor :: rest) other =
              pending plan.dependencies inner.seen.flushCompleted rest other := by
            rw [pending_cons, if_neg (Ne.symm same), Nat.add_zero]
          cases stateOther : (inner.tasks other).flushState <;> rw [stateOther] at accountOther <;>
            simpa only [FlushAccount, lowered] using accountOther
      · intro other known
        by_cases same : other = successor
        · subst same
          simp
        · simpa [same] using flushing.begun other known
    | started | completed =>
      rw [state] at account
      have zero := account.2.2
      rw [pending_cons, if_pos rfl] at zero
      omega

/-- Telling the next successor succeeds. -/
theorem Sound.satisfy (sound : Sound plan operators heard flushOwed (successor :: rest) [] inner)
    (member : successor ∈ plan.nodes) :
    ∃ after, inner.satisfy plan operators.ready flushOwed successor = some after ∧
      Sound plan operators heard flushOwed rest [] after := by
  have counted := sound.bookkeeping.counted successor member
  rw [pending_cons, if_pos rfl] at counted
  obtain ⟨flushState, lowered, flushing⟩ := sound.flushing.lower
    (pending plan.dependencies inner.seen.completed rest successor) member
  have book := sound.bookkeeping.lower flushState member counted
  have listening := sound.listening.setTask successor
    { inner.tasks successor with
      unsatisfiedDependencies := pending plan.dependencies inner.seen.completed rest successor
      flushState := flushState } rfl
  unfold Inner.satisfy
  simp only [if_pos member, counted, lowered]
  split
  · rename_i condition
    rw [if_pos condition] at book
    exact ⟨_, Sound.spawnTask ⟨book, flushing, listening, sound.disciplined⟩⟩
  · rename_i condition
    rw [if_neg condition] at book
    exact ⟨_, rfl, book, flushing, listening, sound.disciplined⟩

/-- Telling all of them succeeds. -/
theorem Sound.scheduleSuccessors
    (sound : Sound plan operators heard flushOwed (plan.successors node) [] inner) :
    ∃ after, inner.scheduleSuccessors plan operators.ready flushOwed node = some after ∧
      Sound plan operators heard flushOwed [] [] after := by
  have known : ∀ successor ∈ plan.successors node, successor ∈ plan.nodes :=
    fun _ => Plan.successor_mem
  unfold Inner.scheduleSuccessors
  generalize plan.successors node = successors at sound known
  induction successors generalizing inner with
  | nil => exact ⟨inner, rfl, sound⟩
  | cons successor _ ih =>
    obtain ⟨middle, first, soundMiddle⟩ := sound.satisfy (known successor mem_cons_self)
    obtain ⟨after, remaining, soundAfter⟩ := ih soundMiddle
      fun other later => known other (mem_cons_of_mem _ later)
    exact ⟨after, by rw [foldlM_cons, first]; exact remaining, soundAfter⟩

/-! ## Notifications -/

/-- Set the ready flag of a node that was not known to be ready. -/
theorem Bookkeeping.setReady (book : Bookkeeping plan [] [] inner) (member : node ∈ plan.nodes) :
    Bookkeeping plan []
      (if (inner.tasks node).unsatisfiedDependencies = 0 ∧ (inner.tasks node).scheduled = false
        then [node] else [])
      (inner.setTask node { inner.tasks node with isReady := true }) := by
  refine book.setTask member (fun other known => ?_) rfl (book.satisfied node) ?_
  · rw [observe_update Task.unsatisfiedDependencies (by rfl)]
    exact book.counted other known
  · simp [← book.scheduled node member]

section

variable (listening : Listening plan operators (node :: rest) inner)

include listening

/-- A ready operator whose flag is not set cannot be running, so setting it is all that
its notification asks for. -/
theorem Listening.setReady
    (unset : (inner.tasks node).isReady = false) (ready : operators.ready node = true) :
    Listening plan operators rest (inner.setTask node { inner.tasks node with isReady := true }) := by
  have idle : ¬ inner.Running node := fun running => by
    have set := listening.running node running
    rw [unset] at set
    cases set
  have grows : ∀ other, (inner.tasks other).isReady = true →
      ((inner.setTask node { inner.tasks node with isReady := true }).tasks other).isReady = true := by
    intro other set
    by_cases same : other = node
    · subst same
      simp
    · simpa [same] using set
  constructor
  case synchronous =>
    exact fun other known sync => grows other (listening.synchronous other known sync)
  case known =>
    intro other known async out set
    by_cases same : other = node
    · exact same ▸ ready
    · simp only [setTask_tasks, update_of_ne same] at set
      exact listening.known other known async out set
  case unconsumed => exact listening.unconsumed
  case running => exact fun other running => grows other (listening.running other running)
  case announced =>
    intro other known async readyOther
    by_cases same : other = node
    · subst same
      exact .inr (.inr (.inl ⟨idle, by simp⟩))
    · exact (listening.announced other known async readyOther).imp_right (.imp
        (fun told => (mem_cons.mp told).resolve_left same)
        (.imp_left fun ⟨out, flag⟩ => ⟨out, grows other flag⟩))
  case heard_mem => exact fun other told => listening.heard_mem other (mem_cons_of_mem _ told)
  case permitted => exact listening.permitted

/-- A notification may be dropped if its node is not ready, or known to be ready and not
about to lose that flag. -/
theorem Listening.drop (harmless : operators.ready node = true → (inner.tasks node).isReady = true ∧
      ∀ status, (node, status) ∈ inner.handles → status = .spawned) :
    Listening plan operators rest inner := by
  refine { listening with announced := ?_, heard_mem := ?_ }
  · intro other known async ready
    refine (listening.announced other known async ready).imp_right ?_
    rintro (told | held)
    · rcases mem_cons.mp told with rfl | later
      · obtain ⟨set, fresh⟩ := harmless ready
        by_cases running : inner.Running other
        · obtain ⟨⟨_, status⟩, handle, rfl⟩ := mem_map.mp running
          exact .inr (.inr (fresh status handle ▸ handle))
        · exact .inr (.inl ⟨running, set⟩)
      · exact .inl later
    · exact .inr held
  · exact fun other told => listening.heard_mem other (mem_cons_of_mem _ told)

end

/-- No notification in the list comes from an operator that is ready again while its last
evaluation, which has consumed its input, waits to be joined. -/
def Harmless (operators : Operators) (inner : Inner) (heard : List NodeId) : Prop :=
  ∀ node ∈ heard, ∀ status, (node, status) ∈ inner.handles → status ≠ .spawned →
    operators.ready node = false

/-- Processing a harmless notification succeeds and loses nothing. -/
theorem Sound.processNotification
    (sound : Sound plan operators (node :: rest) flushOwed [] [] inner)
    (harmless : Harmless operators inner (node :: rest)) :
    ∃ after, inner.processNotification plan operators.ready node = some after ∧
      Sound plan operators rest flushOwed [] [] after ∧ Harmless operators after rest := by
  have fewer : Harmless operators inner rest := fun other later =>
    harmless other (mem_cons_of_mem _ later)
  obtain ⟨member, async⟩ := sound.listening.heard_mem node mem_cons_self
  unfold Inner.processNotification
  simp only [if_pos (And.intro member async)]
  by_cases set : (inner.tasks node).isReady = true
  · rw [if_pos set]
    refine ⟨inner, rfl, { sound with listening := sound.listening.drop fun ready => ⟨set, ?_⟩ }, fewer⟩
    intro status handle
    by_contra old
    rw [harmless node mem_cons_self status handle old] at ready
    cases ready
  · rw [if_neg set]
    by_cases ready : operators.ready node = true
    · rw [if_pos ready]
      have book := sound.bookkeeping.setReady member
      have listening := sound.listening.setReady (Bool.eq_false_iff.mpr set) ready
      have flushing := sound.flushing.setTask node { inner.tasks node with isReady := true } rfl
      split
      · rename_i condition
        rw [if_pos condition] at book
        obtain ⟨spawns, after⟩ :=
          Sound.spawnTask ⟨book, flushing, listening, sound.disciplined⟩
        refine ⟨_, spawns, after, ?_⟩
        intro other later status handle old
        rcases mem_append.mp handle with before | new
        · exact fewer other later status before old
        · obtain ⟨-, rfl⟩ := Prod.mk.inj (mem_singleton.mp new)
          exact absurd rfl old
      · rename_i condition
        rw [if_neg condition] at book
        exact ⟨_, rfl, ⟨book, flushing, listening, sound.disciplined⟩, fewer⟩
    · rw [if_neg ready]
      exact ⟨inner, rfl, { sound with
        listening := sound.listening.drop fun isReady => absurd isReady ready }, fewer⟩

/-- Processing harmless notifications succeeds and loses none. -/
theorem Sound.processNotifications (sound : Sound plan operators [] flushOwed [] [] inner)
    (harmless : Harmless operators inner inner.notified) :
    ∃ after, inner.processNotifications plan operators.ready = some after ∧
      Sound plan operators [] flushOwed [] [] after := by
  have dequeued : Sound plan operators inner.notified flushOwed [] []
      { inner with notified := [], permit := false } := by
    refine ⟨{ sound.bookkeeping with }, { sound.flushing with }, ?_, sound.disciplined⟩
    exact { sound.listening with
      announced := by
        rw [append_nil]
        exact sound.listening.announced
      heard_mem := by simpa using sound.listening.heard_mem
      permitted := fun occupied => absurd rfl occupied }
  unfold Inner.processNotifications
  generalize inner.notified = heard at dequeued harmless
  have harmlessNow : Harmless operators { inner with notified := [], permit := false } heard := harmless
  generalize { inner with notified := [], permit := false } = state at dequeued harmlessNow
  clear sound harmless
  induction heard generalizing state with
  | nil => exact ⟨state, rfl, dequeued⟩
  | cons _ _ ih =>
    obtain ⟨middle, first, soundMiddle, fewer⟩ := dequeued.processNotification harmlessNow
    obtain ⟨after, remaining, soundAfter⟩ := ih middle soundMiddle fewer
    exact ⟨after, by rw [foldlM_cons, first]; exact remaining, soundAfter⟩

end Inner

/-! ## Joining tasks, starting steps and transactions -/

namespace Inner

variable {plan : Plan} {operators : Operators} {inner : Inner} {node : NodeId} {flushOwed : Bool}

/-! ## Joining -/

theorem Bookkeeping.handle_unique {owed waiting : List NodeId}
    (book : Bookkeeping plan owed waiting inner) {first second : Evaluation}
    (one : (node, first) ∈ inner.handles) (two : (node, second) ∈ inner.handles) : first = second := by
  have same := inj_on_of_nodup_map book.handles_nodup one two rfl
  exact (Prod.mk.inj same).2

variable (plan) (inner) (node)

section

variable (flushComplete : Bool)

/-- The state after a finished task has been taken out and its completion recorded. -/
def joined : Inner :=
  let removed := inner.remove plan node
  { removed with
    tasks := if flushComplete then
        update removed.tasks node { removed.tasks node with flushState := .completed }
      else
        removed.tasks
    transactionPhase :=
      match flushComplete, inner.transactionPhase with
      | true, .committing (unflushed + 1) => .committing unflushed
      | _, phase => phase
    history := .completed node flushComplete :: inner.history }

theorem seen_joined : (inner.joined plan node flushComplete).seen =
      { inner.seen with
        completed := node :: inner.seen.completed
        flushCompleted := if flushComplete then node :: inner.seen.flushCompleted
          else inner.seen.flushCompleted } := rfl

theorem joined_task (other : NodeId) : (inner.joined plan node flushComplete).tasks other =
      if other = node then
        { inner.tasks node with
          isReady := (inner.tasks node).isReady && !plan.isAsync node
          flushState := if flushComplete then .completed else (inner.tasks node).flushState }
      else
        inner.tasks other := by
  unfold joined remove
  by_cases same : other = node
  · subst same
    cases flushComplete <;> simp
  · cases flushComplete <;> simp [same]

theorem mem_joined_handles (handle : NodeId × Evaluation) :
    handle ∈ (inner.joined plan node flushComplete).handles ↔
      handle ∈ inner.handles ∧ handle.1 ≠ node := by
  simp [joined, remove, mem_filter]

theorem running_joined (other : NodeId) :
    (inner.joined plan node flushComplete).Running other ↔ inner.Running other ∧ other ≠ node := by
  simp only [Running, mem_map]
  constructor
  · rintro ⟨handle, member, rfl⟩
    obtain ⟨old, different⟩ := (mem_joined_handles plan inner node flushComplete handle).mp member
    exact ⟨⟨handle, old, rfl⟩, different⟩
  · rintro ⟨⟨handle, old, rfl⟩, different⟩
    exact ⟨handle, (mem_joined_handles plan inner node flushComplete handle).mpr ⟨old, different⟩, rfl⟩

theorem committing_joined :
    (inner.joined plan node flushComplete).committing = inner.committing := by
  unfold committing joined
  cases flushComplete
  · rfl
  · cases inner.transactionPhase with
    | started => rfl
    | commitComplete => rfl
    | committing unflushed => cases unflushed <;> rfl

end

variable {node} {inner} {plan}

section

variable (sound : Sound plan operators [] flushOwed [] [] inner)
  (finished : (node, .finished) ∈ inner.handles)

include sound finished

theorem Sound.evaluated_of_finished : node ∈ inner.seen.evaluated ∧ node ∉ inner.seen.completed ∧
    node ∈ plan.nodes := by
  obtain ⟨evaluated, incomplete⟩ :=
    (sound.bookkeeping.running node).mp (mem_map.mpr ⟨_, finished, rfl⟩)
  exact ⟨evaluated, incomplete, sound.bookkeeping.evaluated_mem node evaluated⟩

variable (flushComplete : Bool)

theorem Sound.bookkeeping_joined :
    Bookkeeping plan (plan.successors node) [] (inner.joined plan node flushComplete) := by
  obtain ⟨evaluated, incomplete, -⟩ := sound.evaluated_of_finished finished
  have book := sound.bookkeeping
  have unchanged : ∀ other, ((inner.joined plan node flushComplete).tasks other).unsatisfiedDependencies =
      (inner.tasks other).unsatisfiedDependencies ∧
      ((inner.joined plan node flushComplete).tasks other).scheduled = (inner.tasks other).scheduled := by
    intro other
    rw [joined_task]
    split
    case isTrue same => simp [same]
    case isFalse => simp
  constructor
  case counted =>
    intro other known
    rw [(unchanged other).1, seen_joined, book.counted other known]
    exact (pending_report plan.dependencies incomplete other).symm
  case scheduled =>
    intro other known
    rw [(unchanged other).2]
    exact book.scheduled other known
  case eager =>
    intro other known zero ready
    rw [(unchanged other).1] at zero
    refine book.eager other known zero ?_
    rw [joined_task] at ready
    split at ready
    case isTrue same =>
      subst same
      exact ((Bool.and_eq_true _ _).mp ready).1
    case isFalse => exact ready
  case waiting_nodup => exact nodup_nil
  case waiting_spawnable => simp
  case evaluated_mem => exact book.evaluated_mem
  case satisfied =>
    intro other done
    rw [(unchanged other).1]
    exact book.satisfied other done
  case completed_evaluated => exact forall_mem_cons.mpr ⟨evaluated, book.completed_evaluated⟩
  case completed_nodup => exact nodup_cons.mpr ⟨incomplete, book.completed_nodup⟩
  case running =>
    intro other
    rw [running_joined, book.running, seen_joined]
    simp only [mem_cons, not_or]
    tauto
  case handles_nodup =>
    exact (book.handles_nodup.sublist (List.Sublist.map _ filter_sublist))
  case prompt =>
    intro commits other done unflushed
    rw [committing_joined] at commits
    obtain ⟨earlier, before, unreported⟩ := book.prompt commits other done unflushed
    refine ⟨earlier, before, ?_⟩
    rw [seen_joined]
    split
    · rintro (_ | ⟨_, old⟩)
      -- The joined node precedes no evaluated one: those have completed predecessors.
      · exact incomplete ((book.settled (book.evaluated_mem other done)
          (book.satisfied other done)).2 _ before)
      · exact unreported old
    · exact unreported

theorem Sound.listening_joined :
    Listening plan operators [] (inner.joined plan node flushComplete) := by
  have listening := sound.listening
  have running : inner.Running node := mem_map.mpr ⟨_, finished, rfl⟩
  constructor
  case synchronous =>
    intro other known sync
    rw [joined_task]
    split
    case isTrue same => simp [← same, sync, same ▸ listening.running node running]
    case isFalse => exact listening.synchronous other known sync
  case known =>
    intro other known async out ready
    rw [joined_task] at ready
    split at ready
    case isTrue same => simp [← same, async] at ready
    case isFalse different =>
      exact listening.known other known async
        (fun still => out ((running_joined _ _ _ _ _).mpr ⟨still, different⟩)) ready
  case unconsumed =>
    intro other async handle
    exact listening.unconsumed other async ((mem_joined_handles _ _ _ _ _).mp handle).1
  case running =>
    intro other still
    obtain ⟨old, different⟩ := (running_joined _ _ _ _ _).mp still
    rw [joined_task, if_neg different]
    exact listening.running other old
  case announced =>
    intro other known async ready
    rw [running_joined, mem_joined_handles, joined_task]
    by_cases same : other = node
    · subst same
      refine (listening.announced other known async ready).imp_right (.imp_right ?_)
      rintro (⟨out, -⟩ | handle)
      · exact absurd running out
      · cases sound.bookkeeping.handle_unique finished handle
    · rw [if_neg same]
      exact (listening.announced other known async ready).imp_right (.imp_right (.imp
        (fun ⟨out, flag⟩ => ⟨fun still => out still.1, flag⟩) fun handle => ⟨handle, same⟩))
  case heard_mem => exact listening.heard_mem
  case permitted => exact listening.permitted

omit finished in
/-- A flush that has not become complete leaves the accounts as they are. -/
theorem Sound.flushing_joined_false : Flushing plan [] (inner.joined plan node false) := by
  have flushing := sound.flushing
  rw [ite_self] at flushing
  exact flushing.congr (observe_update Task.flushState rfl) rfl rfl rfl rfl

/-- A flush that has become complete is owed to all successors. -/
theorem Sound.flushing_joined_true (started : (inner.tasks node).flushState = .started) :
    Flushing plan (plan.successors node) (inner.joined plan node true) ∧
      ∃ unflushed, inner.transactionPhase = .committing (unflushed + 1) ∧
        node ∈ inner.seen.flushed ∧ node ∉ inner.seen.flushCompleted := by
  obtain ⟨-, -, member⟩ := sound.evaluated_of_finished finished
  have flushing := sound.flushing
  rw [ite_self] at flushing
  have account := flushing.account node member
  rw [started] at account
  obtain ⟨flushed, incomplete, settled⟩ := account
  have commits := flushing.begun node member started
  have phase := flushing.phase
  have counted : plan.nodes.countP (fun other => other ∉ inner.seen.flushCompleted) =
      plan.nodes.countP (fun other => other ∉ node :: inner.seen.flushCompleted) + 1 := by
    rw [countP_report plan.nodes incomplete, count_eq_one_of_mem plan.nodup member]
  unfold committing at commits
  split at commits
  · rename_i unflushed state
    rw [state] at phase
    obtain ⟨observed, rfl⟩ := phase
    rw [counted] at state
    refine ⟨⟨?_, ?_, ?_⟩, _, state, flushed, incomplete⟩
    · intro other known
      have accountOther := flushing.account other known
      have same := pending_report plan.dependencies incomplete other
      rw [joined_task, seen_joined]
      by_cases equal : other = node
      · subst equal
        simp only [if_true, FlushAccount]
        exact ⟨flushed, mem_cons_self, same.trans settled⟩
      · rw [if_neg equal]
        cases stateOther : (inner.tasks other).flushState <;> rw [stateOther] at accountOther <;>
          simpa only [FlushAccount, if_true, Plan.successors, same, mem_cons, equal, false_or]
            using accountOther
    · rw [seen_joined]
      simp only [joined, state]
      exact ⟨observed, rfl⟩
    · intro other known
      rw [committing_joined, joined_task]
      split
      · intro impossible
        cases impossible
      · exact flushing.begun other known
  · cases commits

/-- Joining a finished task succeeds; what it owes to its successors is its completion, and
the completion of its flush if that has happened. -/
theorem Sound.joined (isFlushComplete : Bool) : ∃ accounted flushComplete,
      (inner.remove plan node).accountFlush node isFlushComplete = some (accounted, flushComplete) ∧
      { accounted with history := .completed node flushComplete :: accounted.history } =
        inner.joined plan node flushComplete ∧
      Sound plan operators [] flushComplete (plan.successors node) []
        (inner.joined plan node flushComplete) := by
  obtain ⟨evaluated, incomplete, member⟩ := sound.evaluated_of_finished finished
  have state : ((inner.remove plan node).tasks node).flushState = (inner.tasks node).flushState := by
    simp [remove]
  unfold Inner.accountFlush
  simp only [state]
  by_cases condition : (inner.tasks node).flushState = .started ∧ isFlushComplete = true
  · obtain ⟨flushing, unflushed, phase, flushed, fresh⟩ :=
      sound.flushing_joined_true finished condition.1
    have phaseRemoved : (inner.remove plan node).transactionPhase = .committing (unflushed + 1) := phase
    rw [if_pos condition]
    simp only [phaseRemoved]
    refine ⟨_, true, rfl, ?_, sound.bookkeeping_joined finished true, flushing,
      sound.listening_joined finished true, ⟨evaluated, incomplete, fun _ => ⟨flushed, fresh⟩⟩,
      sound.disciplined⟩
    simp only [Inner.joined, phase]
    rfl
  · rw [if_neg condition]
    refine ⟨_, false, rfl, ?_, sound.bookkeeping_joined finished false,
      sound.flushing_joined_false, sound.listening_joined finished false,
      ⟨evaluated, incomplete, fun impossible => ?_⟩, sound.disciplined⟩
    · simp only [Inner.joined]
      rfl
    · cases impossible

end

end Inner

end OpenDera
