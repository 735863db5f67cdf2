/-
How often a task is spawned: once, and once more for each retry that was granted, as long
as its spawning marks it.  A sub-orchestration is not marked, and neither is a task whose
id is empty: these stay ready.
-/
import Zeptobeam.OrchestratorMoves

namespace Zeptobeam

open OrchestratorBehavior

/-! ## What is counted -/

def spawnsOf (id : String) (events : List OrchestratorEvent) : Nat :=
  events.countP fun
    | .spawned _ task => taskId? task = some id
    | _ => false

def retriesOf (id : String) (events : List OrchestratorEvent) : Nat :=
  events.count (.retryGranted id)

theorem spawnsOf_append (id : String) (events new : List OrchestratorEvent) :
    spawnsOf id (events ++ new) = spawnsOf id events + spawnsOf id new :=
  List.countP_append

theorem retriesOf_append (id : String) (events new : List OrchestratorEvent) :
    retriesOf id (events ++ new) = retriesOf id events + retriesOf id new :=
  List.count_append

theorem spawnsOf_spawned {task : Json} {id : String} (hid : taskId? task = some id)
    (kind : SpawnKind) (q : String) :
    spawnsOf q [.spawned kind task] = if q = id then 1 else 0 := by
  have hcount : spawnsOf q [.spawned kind task] =
      if decide (taskId? task = some q) = true then 1 else 0 :=
    List.countP_singleton
  rw [hcount, hid]
  by_cases hq : q = id
  · simp [hq]
  · simp [hq, Ne.symm hq]

theorem spawnsOf_decided (id : String) (decisions : List (String × ApprovalDecision)) :
    spawnsOf id (decisions.map fun d => .decided d.1 d.2) = 0 := by
  induction decisions with
  | nil => rfl
  | cons d rest ih => exact ih

/-- One for a task that is still to be spawned. -/
def unspawned (graph : TaskGraph) (id : String) : Nat :=
  if graph.taskStatus id = some .pending ∨ graph.taskStatus id = some .ready ∨
      graph.taskStatus id = some .awaitingApproval then 1 else 0

/-- No Spawn of such a task is one of a sub-orchestration: it is of another type, or is
stopped by the gate or the depth limit. -/
def QueuedWhenSpawned (b : OrchestratorBehavior) (task : Json) : Prop :=
  typeOf task = some "sub_orchestration" →
    (taskRequiresApproval task && b.approvalRegistry) = true ∨ b.maxDepth ≤ b.currentDepth

/-- The dispatch of such a task marks it as running, or puts it to waiting, or fails it. -/
def MarkedWhenSpawned (b : OrchestratorBehavior) (task : Json) : Prop :=
  taskId? task ≠ some "" ∧ QueuedWhenSpawned b task

/-- The tasks that a decomposition delivers. -/
def deliveredBy (goal : Json) : OrchestratorOp → List Json
  | .message (.system (.ioResponse _ result)) => extractTasks goal result
  | _ => []

def delivered (goal : Json) (ops : List OrchestratorOp) : List Json :=
  ops.flatMap (deliveredBy goal)

/-- The events of a run. -/
def eventsOf (b : OrchestratorBehavior) (s : OrchestratorState) (ops : List OrchestratorOp) :
    List OrchestratorEvent :=
  (b.run s ops).trace.drop s.trace.length

/-- A message that is taken for a goal. -/
def isGoal (payload : Json) : Bool :=
  typeOf payload ≠ some "worker_progress" && (parseWorkerResult payload).isNone

/-! ## How the task graph changes it -/

theorem unspawned_le_one (graph : TaskGraph) (id : String) : unspawned graph id ≤ 1 := by
  unfold unspawned
  split
  · exact Nat.le_refl 1
  · exact Nat.zero_le 1

theorem unspawned_of_status {graph : TaskGraph} {id : String} {status : TaskStatus}
    (hstatus : graph.taskStatus id = some status)
    (hopen : status = .pending ∨ status = .ready ∨ status = .awaitingApproval) :
    unspawned graph id = 1 := by
  unfold unspawned
  rw [hstatus]
  rcases hopen with rfl | rfl | rfl
  · rfl
  · rfl
  · rfl

theorem unspawned_congr {graph graph' : TaskGraph} {id : String}
    (h : graph'.taskStatus id = graph.taskStatus id) :
    unspawned graph' id = unspawned graph id := by
  unfold unspawned
  rw [h]

/-- A task that gets a state in which it is not to be spawned. -/
theorem unspawned_setStatus_le (graph : TaskGraph) (id q : String) (status : TaskStatus)
    (hclosed : status ≠ .pending ∧ status ≠ .ready ∧ status ≠ .awaitingApproval) :
    unspawned (graph.setStatus id status) q ≤ if q = id then 0 else unspawned graph q := by
  have hstatus := TaskGraph.taskStatus_setStatus graph id q status
  split
  · rename_i hq
    rw [if_pos hq] at hstatus
    unfold unspawned
    rw [hstatus]
    obtain ⟨hpending, hready, hwaiting⟩ := hclosed
    cases graph.taskStatus q with
    | none => exact Nat.le_refl 0
    | some found => simp [hpending, hready, hwaiting]
  · rename_i hq
    rw [if_neg hq] at hstatus
    exact (unspawned_congr hstatus).le

theorem unspawned_closes {graph graph' : TaskGraph} (h : graph.Closes graph') (q : String) :
    unspawned graph' q ≤ unspawned graph q := by
  rcases h.lookup q with hsame | ⟨status, hclosed, hlookup⟩
  · apply Nat.le_of_eq
    apply unspawned_congr
    unfold TaskGraph.taskStatus
    rw [hsame]
  · have hzero : unspawned graph' q = 0 := by
      unfold unspawned TaskGraph.taskStatus
      rw [hlookup]
      cases graph.lookup q with
      | none => rfl
      | some found =>
          rcases hclosed with rfl | rfl
          · rfl
          · rfl
    rw [hzero]
    exact Nat.zero_le _

theorem unspawned_markCompleted (graph : TaskGraph) (id q : String) :
    unspawned (graph.markCompleted id) q ≤ unspawned graph q := by
  have hcompleted := unspawned_setStatus_le graph id q .completed (by decide)
  have hle : unspawned (graph.setStatus id .completed) q ≤ unspawned graph q := by
    split at hcompleted
    · exact hcompleted.trans (Nat.zero_le _)
    · exact hcompleted
  rcases TaskGraph.lookup_markCompleted graph id q with hsame | ⟨node, hnode, hpending, _⟩
  · have hcongr : unspawned (graph.markCompleted id) q =
        unspawned (graph.setStatus id .completed) q := by
      apply unspawned_congr
      unfold TaskGraph.taskStatus
      rw [hsame]
    rw [hcongr]
    exact hle
  · have hstatus : (graph.setStatus id .completed).taskStatus q = some .pending := by
      unfold TaskGraph.taskStatus
      rw [hnode, Option.map_some, hpending]
    have hone := unspawned_of_status hstatus (.inl rfl)
    exact (unspawned_le_one _ q).trans (hone.symm.le.trans hle)

/-! ## The budget -/

/-- Every task of the graph was delivered and is of the kind that is marked; what was not
delivered was not spawned; and for each task what was spawned, and what is still to be, is
within its budget.  The events are those since the goal came in. -/
structure SpawnBudget (b : OrchestratorBehavior) (before events : List OrchestratorEvent)
    (ids : List String) (s : OrchestratorState) : Prop where
  trace : s.trace = before ++ events
  known : ∀ id node, s.taskGraph.lookup id = some node →
    id ∈ ids ∧ MarkedWhenSpawned b node.task
  fresh : ∀ id, id ∉ ids → spawnsOf id events = 0
  bound : ∀ id, spawnsOf id events + unspawned s.taskGraph id ≤ 1 + retriesOf id events

/-- Within the budget, whatever the events were. -/
def WithinBudget (b : OrchestratorBehavior) (before : List OrchestratorEvent)
    (ids : List String) (s : OrchestratorState) : Prop :=
  ∃ events, SpawnBudget b before events ids s

namespace SpawnBudget

variable {b : OrchestratorBehavior} {before events : List OrchestratorEvent}
  {ids : List String} {s s' : OrchestratorState}

/-- A change that spawns nothing and opens nothing. -/
theorem of_quiet (h : SpawnBudget b before events ids s) (new : List OrchestratorEvent)
    (htrace : s'.trace = s.trace ++ new) (hnew : ∀ id, spawnsOf id new = 0)
    (hsame : s.taskGraph.SameTasks s'.taskGraph)
    (hopen : ∀ id, unspawned s'.taskGraph id ≤ unspawned s.taskGraph id + retriesOf id new) :
    SpawnBudget b before (events ++ new) ids s' := by
  refine ⟨?_, ?_, ?_, ?_⟩
  · rw [htrace, h.trace, List.append_assoc]
  · intro id node hnode
    obtain ⟨found, hfound, htask, _⟩ := hsame.known hnode
    rw [← htask]
    exact h.known id found hfound
  · intro id hid
    have hquiet := hnew id
    have hfresh := h.fresh id hid
    rw [spawnsOf_append, hquiet, hfresh]
  · intro id
    have hquiet := hnew id
    have hbound := h.bound id
    have hopened := hopen id
    rw [spawnsOf_append, retriesOf_append, hquiet]
    omega

/-- A ready task is spawned and marked. -/
theorem spawnWorker (h : SpawnBudget b before events ids s) {id : String} {node : TaskNode}
    (hnode : s.taskGraph.lookup id = some node) (hready : node.status = .ready)
    (hgraph : s'.taskGraph = s.taskGraph.markRunning id)
    (htrace : s'.trace = s.trace ++ [.spawned .worker node.task]) :
    SpawnBudget b before (events ++ [.spawned .worker node.task]) ids s' := by
  have hid : taskId? node.task = some id := s.taskGraph.keyed id node hnode
  have hnew := spawnsOf_spawned hid .worker
  refine ⟨?_, ?_, ?_, ?_⟩
  · rw [htrace, h.trace, List.append_assoc]
  · intro q other hother
    rw [hgraph] at hother
    obtain ⟨found, hfound, htask, _⟩ :=
      (TaskGraph.sameTasks_setStatus s.taskGraph id .running).known hother
    rw [← htask]
    exact h.known q found hfound
  · intro q hq
    have hspawned := hnew q
    have hfresh := h.fresh q hq
    have hne : q ≠ id := fun heq => hq (heq ▸ (h.known id node hnode).1)
    rw [if_neg hne] at hspawned
    rw [spawnsOf_append, hfresh, hspawned]
  · intro q
    have hspawned := hnew q
    have hbound := h.bound q
    have hopened := unspawned_setStatus_le s.taskGraph id q .running (by decide)
    have hretries : retriesOf q [.spawned .worker node.task] = 0 := rfl
    rw [hgraph, TaskGraph.markRunning, spawnsOf_append, retriesOf_append, hspawned, hretries]
    by_cases hq : q = id
    · rw [if_pos hq] at hopened ⊢
      have hstatus : s.taskGraph.taskStatus q = some .ready := by
        unfold TaskGraph.taskStatus
        rw [hq, hnode, Option.map_some, hready]
      have hone := unspawned_of_status hstatus (.inr (.inl rfl))
      omega
    · rw [if_neg hq] at hopened ⊢
      omega

theorem move {touched : String → Prop} (hmove : OrchestratorMove b touched s s')
    (h : SpawnBudget b before events ids s) : WithinBudget b before ids s' := by
  have hsame := hmove.sameTasks
  cases hmove with
  | aside hgraph _ _ htrace =>
      refine ⟨_, h.of_quiet [] (by simp [htrace]) (fun _ => rfl) hsame ?_⟩
      intro id
      rw [hgraph]
      exact Nat.le_add_right _ _
  | close decisions hgraph _ _ htrace =>
      refine ⟨_, h.of_quiet _ htrace (fun id => spawnsOf_decided id decisions)
        hsame ?_⟩
      intro id
      exact (unspawned_closes hgraph id).trans (Nat.le_add_right _ _)
  | complete id =>
      refine ⟨_, h.of_quiet [] (List.append_nil _).symm (fun _ => rfl)
        hsame ?_⟩
      intro q
      exact (unspawned_markCompleted s.taskGraph id q).trans (Nat.le_add_right _ _)
  | release pid => exact ⟨events, h.trace, h.known, h.fresh, h.bound⟩
  | retry id =>
      refine ⟨_, h.of_quiet [.retryGranted id] rfl (fun _ => rfl)
        hsame ?_⟩
      intro q
      by_cases hq : q = id
      · have hgranted : retriesOf q [.retryGranted id] = 1 := by
          unfold retriesOf
          rw [hq]
          exact List.count_singleton_self
        rw [hgranted]
        exact (unspawned_le_one _ q).trans (Nat.le_add_left 1 _)
      · have hstatus := TaskGraph.taskStatus_setStatus s.taskGraph id q .ready
        rw [if_neg hq] at hstatus
        exact (unspawned_congr hstatus).le.trans (Nat.le_add_right _ _)
  | gate id node _ _ hnode hready =>
      refine ⟨_, h.of_quiet [] (List.append_nil _).symm (fun _ => rfl)
        hsame ?_⟩
      intro q
      by_cases hq : q = id
      · have hstatus : s.taskGraph.taskStatus q = some .ready := by
          unfold TaskGraph.taskStatus
          rw [hq, hnode, Option.map_some, hready]
        have hone := unspawned_of_status hstatus (.inr (.inl rfl))
        exact (unspawned_le_one _ q).trans (hone.symm.le.trans (Nat.le_add_right _ _))
      · have hstatus := TaskGraph.taskStatus_setStatus s.taskGraph id q .awaitingApproval
        rw [if_neg hq] at hstatus
        exact (unspawned_congr hstatus).le.trans (Nat.le_add_right _ _)
  | spawnUnnamed node _ hnode =>
      obtain ⟨_, hnamed, _⟩ := h.known "" node hnode
      exact absurd (s.taskGraph.keyed "" node hnode) hnamed
  | spawnSub id node _ hfree hsub hdepth _ hnode =>
      obtain ⟨_, _, hmarked⟩ := h.known id node hnode
      rcases hmarked hsub with hgated | hdeep
      · rw [hgated] at hfree
        contradiction
      · exact absurd hdepth (Nat.not_lt_of_ge hdeep)
  | spawnWorker id node _ _ _ hnode hready =>
      exact ⟨_, h.spawnWorker hnode hready rfl rfl⟩
  | finish requester =>
      exact ⟨_, h.of_quiet [.finished requester] rfl (fun _ => rfl) hsame
        fun id => Nat.le_add_right _ _⟩

theorem moves {touched : String → Prop} (hmoves : OrchestratorMoves b touched s s')
    (h : WithinBudget b before ids s) : WithinBudget b before ids s' := by
  apply OrchestratorMoves.keeps (WithinBudget b before ids) ?_ hmoves h
  rintro s s' hmove ⟨events, h⟩
  exact h.move hmove

/-- New tasks come with a budget of their own. -/
theorem addTasks (h : SpawnBudget b before events ids s) {tasks : List Json}
    (hmarked : ∀ task ∈ tasks, MarkedWhenSpawned b task)
    (hnew : ∀ id ∈ tasks.filterMap taskId?, id ∉ ids) :
    SpawnBudget b before events (ids ++ tasks.filterMap taskId?)
      { s with taskGraph := (s.taskGraph.addTasks tasks).2 } := by
  refine ⟨h.trace, ?_, ?_, ?_⟩
  · intro id node hnode
    rcases s.taskGraph.lookup_addTasks tasks id with hsame | ⟨task, htask, hid, hadded | hgone⟩
    · obtain ⟨hmem, hkept⟩ := h.known id node (hsame ▸ hnode)
      exact ⟨List.mem_append_left _ hmem, hkept⟩
    · rw [hadded] at hnode
      cases hnode
      exact ⟨List.mem_append_right _ (List.mem_filterMap.mpr ⟨task, htask, hid⟩),
        hmarked task htask⟩
    · rw [hgone] at hnode
      contradiction
  · intro id hid
    exact h.fresh id fun hmem => hid (List.mem_append_left _ hmem)
  · intro id
    rcases s.taskGraph.lookup_addTasks tasks id with hsame | ⟨task, htask, hid, _⟩
    · have hcongr : unspawned (s.taskGraph.addTasks tasks).2 id =
          unspawned s.taskGraph id := by
        apply unspawned_congr
        unfold TaskGraph.taskStatus
        rw [hsame]
      rw [hcongr]
      exact h.bound id
    · have hfresh := h.fresh id (hnew id (List.mem_filterMap.mpr ⟨task, htask, hid⟩))
      have hone := unspawned_le_one (s.taskGraph.addTasks tasks).2 id
      dsimp only
      omega

/-- A goal begins with an empty graph. -/
theorem resetFor (htrace : s.trace = before ++ events)
    (hquiet : ∀ id, spawnsOf id events = 0) (goal payload : Json) :
    SpawnBudget b before events [] (s.resetFor goal payload) := by
  refine ⟨htrace, ?_, fun id _ => hquiet id, fun id => ?_⟩
  · intro id node hnode
    contradiction
  · rw [hquiet id]
    exact Nat.zero_le _

end SpawnBudget

/-! ## Runs -/

/-- The task of a goal that was not decomposed. -/
def ownTask (goal : Json) : Json :=
  .obj [("goal", goal), ("task_id", .str "task-0")]

theorem extractTasks_cases (result : IoResult) :
    (∀ goal goal', extractTasks goal result = extractTasks goal' result) ∨
      ∀ goal, extractTasks goal result = [ownTask goal] := by
  unfold extractTasks
  dsimp only
  generalize Option.bind _ Json.toArray? = items
  cases items with
  | none => exact .inr fun _ => rfl
  | some items =>
      cases items with
      | nil => exact .inr fun _ => rfl
      | cons task rest => exact .inl fun _ _ => rfl

theorem extractTasks_ids (goal goal' : Json) (result : IoResult) :
    (extractTasks goal result).filterMap taskId? =
      (extractTasks goal' result).filterMap taskId? := by
  rcases extractTasks_cases result with hsame | hself
  · rw [hsame goal goal']
  · rw [hself goal, hself goal']
    rfl

theorem mem_extractTasks (goal : Json) {goal' : Json} {result : IoResult} {task : Json}
    (h : task ∈ extractTasks goal' result) :
    task ∈ extractTasks goal result ∨ task = ownTask goal' := by
  rcases extractTasks_cases result with hsame | hself
  · rw [hsame goal' goal] at h
    exact .inl h
  · rw [hself goal'] at h
    exact .inr (List.mem_singleton.mp h)

theorem ownTask_queued (b : OrchestratorBehavior) (goal : Json) :
    QueuedWhenSpawned b (ownTask goal) := by
  intro hsub
  have hnone : typeOf (ownTask goal) = none := rfl
  rw [hnone] at hsub
  contradiction

theorem ownTask_marked (b : OrchestratorBehavior) (goal : Json) :
    MarkedWhenSpawned b (ownTask goal) := by
  have hid : taskId? (ownTask goal) = some "task-0" := rfl
  refine ⟨?_, ownTask_queued b goal⟩
  rw [hid]
  decide

theorem not_startsGoal {s : OrchestratorState} {payload : Json}
    (h : isGoal payload = false) : startsGoal s payload = false := by
  unfold startsGoal
  unfold isGoal at h
  rw [h, Bool.false_and]

namespace WithinBudget

variable {b : OrchestratorBehavior} {before : List OrchestratorEvent} {ids : List String}
  {s : OrchestratorState}

theorem step (h : WithinBudget b before ids s) {goal : Json} {op : OrchestratorOp}
    (hnotGoal : ∀ payload, op = .message (.json payload) → isGoal payload = false)
    (hmarked : ∀ task ∈ deliveredBy goal op, MarkedWhenSpawned b task)
    (hnew : ∀ id ∈ (deliveredBy goal op).filterMap taskId?, id ∉ ids) :
    WithinBudget b before (ids ++ (deliveredBy goal op).filterMap taskId?) (b.step s op) := by
  have hless : ∀ {s : OrchestratorState}, WithinBudget b before ids s →
      WithinBudget b before (ids ++ (deliveredBy goal op).filterMap taskId?) s := by
    rintro s ⟨events, h⟩
    refine ⟨events, h.trace, fun id node hnode => ?_, fun id hid => ?_, h.bound⟩
    · obtain ⟨hmem, hkept⟩ := h.known id node hnode
      exact ⟨List.mem_append_left _ hmem, hkept⟩
    · exact h.fresh id fun hmem => hid (List.mem_append_left _ hmem)
  cases op with
  | message msg =>
      have hpoll : OrchestratorMove b (touches s msg) s (b.pollApprovalRegistry s) :=
        b.pollApprovalRegistry_move s
      obtain ⟨events, hpolled⟩ : WithinBudget b before ids (b.pollApprovalRegistry s) := by
        obtain ⟨events, h⟩ := h
        exact h.move hpoll
      rcases b.handleMessage_moves s msg with ⟨payload, rfl, hstarts, _⟩ |
        ⟨correlationId, result, rfl, hmoves⟩ | ⟨childPid, monitorRef, rfl, hmoves⟩ | hmoves
      · rw [not_startsGoal (hnotGoal payload rfl)] at hstarts
        contradiction
      · -- The ids do not depend on which goal the orchestrator has by now.
        have hids := extractTasks_ids goal (b.pollApprovalRegistry s).goal result
        have hall : ∀ task ∈ extractTasks (b.pollApprovalRegistry s).goal result,
            MarkedWhenSpawned b task := by
          intro task htask
          rcases mem_extractTasks goal htask with hmem | rfl
          · exact hmarked task hmem
          · exact ownTask_marked b _
        have hadded := hpolled.addTasks hall (hids ▸ hnew)
        rw [← hids] at hadded
        exact SpawnBudget.moves hmoves ⟨events, hadded⟩
      · have hanswered : WithinBudget b before ids
            (answered (b.pollApprovalRegistry s) childPid) := by
          have hgraph := taskGraph_answered (b.pollApprovalRegistry s) childPid
          refine ⟨_, hpolled.of_quiet [.spawnAnswered childPid] (trace_answered _ childPid)
            (fun _ => rfl) (hgraph ▸ .refl _) fun id => ?_⟩
          rw [hgraph]
          exact Nat.le_add_right _ _
        exact SpawnBudget.moves hmoves (hless hanswered)
      · exact SpawnBudget.moves hmoves (hless ⟨events, hpolled⟩)
  | exit pid reason =>
      exact SpawnBudget.moves (b.handleExit_moves s pid reason fun _ h => h) (hless h)
  | approvals | pidsDrawn =>
      obtain ⟨events, h⟩ := hless h
      exact ⟨events, h.trace, h.known, h.fresh, h.bound⟩

theorem run (h : WithinBudget b before ids s) {goal : Json} {ops : List OrchestratorOp}
    (hnotGoal : ∀ payload, .message (.json payload) ∈ ops → isGoal payload = false)
    (hmarked : ∀ task ∈ delivered goal ops, MarkedWhenSpawned b task)
    (hnew : (ids ++ (delivered goal ops).filterMap taskId?).Nodup) :
    WithinBudget b before (ids ++ (delivered goal ops).filterMap taskId?) (b.run s ops) := by
  induction ops generalizing ids s with
  | nil =>
      rw [delivered, List.flatMap_nil, List.filterMap_nil, List.append_nil]
      exact h
  | cons op rest ih =>
      have hcons : delivered goal (op :: rest) =
          deliveredBy goal op ++ delivered goal rest :=
        List.flatMap_cons
      rw [hcons, List.filterMap_append, ← List.append_assoc] at hnew ⊢
      rw [hcons] at hmarked
      have hfirst : WithinBudget b before
          (ids ++ (deliveredBy goal op).filterMap taskId?) (b.step s op) := by
        apply h.step
        · intro payload hop
          exact hnotGoal payload (hop ▸ List.mem_cons_self)
        · exact fun task htask => hmarked task (List.mem_append_left _ htask)
        · intro id hid hmem
          obtain ⟨hnodup, _, _⟩ := List.nodup_append.mp hnew
          obtain ⟨_, _, hdisjoint⟩ := List.nodup_append.mp hnodup
          exact hdisjoint id hmem id hid rfl
      exact ih hfirst (fun payload hmem => hnotGoal payload (List.mem_cons_of_mem op hmem))
        (fun task htask => hmarked task (List.mem_append_right _ htask)) hnew

end WithinBudget

/-- On a goal whose decomposition gives distinct ids, and only tasks that are marked when
they are spawned, each task is spawned at most once, and once more for each granted retry. -/
theorem spawnsOf_le_of_marked (b : OrchestratorBehavior) (s : OrchestratorState)
    (payload : Json) (hstarts : startsGoal (b.pollApprovalRegistry s) payload = true)
    (ops : List OrchestratorOp)
    (hnotGoal : ∀ payload, .message (.json payload) ∈ ops → isGoal payload = false)
    (hdistinct : ((delivered (incomingGoal payload) ops).filterMap taskId?).Nodup)
    (hmarked : ∀ task ∈ delivered (incomingGoal payload) ops, MarkedWhenSpawned b task)
    (id : String) :
    spawnsOf id (eventsOf b s (.message (.json payload) :: ops)) ≤
      1 + retriesOf id (eventsOf b s (.message (.json payload) :: ops)) := by
  obtain ⟨decisions, _, _, _, htrace⟩ := b.pollApprovalRegistry_closes s
  have hreset : WithinBudget b s.trace []
      ((b.pollApprovalRegistry s).resetFor (incomingGoal payload) payload) :=
    ⟨_, SpawnBudget.resetFor htrace (fun id => spawnsOf_decided id decisions) _ _⟩
  have hmoves : OrchestratorMoves b (fun _ => False) _ (b.step s (.message (.json payload))) :=
    b.handleJson_goal hstarts
  have hstarted : WithinBudget b s.trace [] (b.step s (.message (.json payload))) :=
    SpawnBudget.moves hmoves hreset
  obtain ⟨events, hbudget⟩ := hstarted.run hnotGoal hmarked hdistinct
  have hsince : eventsOf b s (.message (.json payload) :: ops) = events := by
    have hrun : (b.run s (.message (.json payload) :: ops)).trace = s.trace ++ events :=
      hbudget.trace
    rw [eventsOf, hrun, List.drop_left]
  rw [hsince]
  exact (Nat.le_add_right _ _).trans (hbudget.bound id)

/-! ## A sub-orchestration -/

def subTask : Json :=
  .obj [("task_id", .str "s"), ("type", .str "sub_orchestration")]

def plainWorkers (maxConcurrency : Nat) (retryStrategy : RetryStrategy) :
    OrchestratorBehavior :=
  { maxConcurrency, checkpointStore := false, retryStrategy, aggregator := none
    approvalRegistry := false, maxDepth := 5, orchId := "orch-0", currentDepth := 0 }

def idleOrchestration (b : OrchestratorBehavior) : OrchestratorState :=
  b.init .null none .new 1

def goalMessage : Json := .obj [("goal", .str "g")]

def decomposedInto (tasks : List Json) : OrchestratorOp :=
  .message (.system (.ioResponse 1 (.ok (.obj [("tasks", .arr tasks)]))))

/-- The worker of its only task crashes. -/
def crashOps : List OrchestratorOp :=
  [decomposedInto [.obj [("task_id", .str "t")]],
    .message (.system (.spawnResult 7 none)),
    .message (.system (.down 1 7 (.custom "crash")))]

/-- One retry was granted, and there are two Spawns. -/
theorem spawnsOf_le_of_marked_retry :
    spawnsOf "t" (eventsOf (plainWorkers 1 (.immediate 1))
        (idleOrchestration (plainWorkers 1 (.immediate 1)))
        (.message (.json goalMessage) :: crashOps)) = 2 ∧
      spawnsOf "t" (eventsOf (plainWorkers 1 (.immediate 1))
          (idleOrchestration (plainWorkers 1 (.immediate 1)))
          (.message (.json goalMessage) :: crashOps)) ≤
        1 + retriesOf "t" (eventsOf (plainWorkers 1 (.immediate 1))
          (idleOrchestration (plainWorkers 1 (.immediate 1)))
          (.message (.json goalMessage) :: crashOps)) := by
  refine ⟨by decide, spawnsOf_le_of_marked (plainWorkers 1 (.immediate 1))
    (idleOrchestration (plainWorkers 1 (.immediate 1))) goalMessage (by decide) crashOps ?_
    (by decide) ?_ "t"⟩
  · intro payload hmem
    simp [crashOps, decomposedInto] at hmem
  · intro task htask
    obtain rfl := List.mem_singleton.mp htask
    exact ⟨by decide, fun hsub => absurd hsub (by decide)⟩

/-- The answer to its first Spawn finds no task that waits, and the sub-orchestration, which
is still ready, is spawned again. -/
theorem subOrchestration_spawned_twice :
    spawnsOf "s" (eventsOf (plainWorkers 1 .none) (idleOrchestration (plainWorkers 1 .none))
        [.message (.json goalMessage), decomposedInto [subTask],
          .message (.system (.spawnResult 7 none))]) = 2 ∧
      retriesOf "s" (eventsOf (plainWorkers 1 .none)
        (idleOrchestration (plainWorkers 1 .none))
        [.message (.json goalMessage), decomposedInto [subTask],
          .message (.system (.spawnResult 7 none))]) = 0 := by
  decide

end Zeptobeam
