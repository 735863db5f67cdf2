/-
Approval in the orchestrator.  With a registry, no task under a proper id that requires
approval is ever spawned; and that includes the approved ones, which the gate puts back to
waiting, and which are polled only while they do not wait.
-/
import Zeptobeam.OrchestratorMoves

namespace Zeptobeam

open OrchestratorBehavior

/-! ## Safety -/

/-- Every Spawn for the task came after an approval of it. -/
def SpawnedApproved (trace : List OrchestratorEvent) (task : Json) : Prop :=
  ∀ before kind after, trace = before ++ .spawned kind task :: after →
    ∃ id, taskId? task = some id ∧ .decided id .approved ∈ before

/-- No task was spawned past the gate, but for those with the empty id. -/
def Gated (b : OrchestratorBehavior) (s : OrchestratorState) : Prop :=
  ∀ kind task, .spawned kind task ∈ s.trace → taskId? task ≠ some "" →
    (taskRequiresApproval task && b.approvalRegistry) = false

namespace Gated

variable {b : OrchestratorBehavior} {s s' : OrchestratorState}

theorem of_no_spawn (h : Gated b s) (events : List OrchestratorEvent)
    (htrace : s'.trace = s.trace ++ events)
    (hevents : ∀ kind task, .spawned kind task ∉ events) : Gated b s' := by
  intro kind task hspawned
  rw [htrace] at hspawned
  rcases List.mem_append.mp hspawned with hspawned | hnew
  · exact h kind task hspawned
  · exact absurd hnew (hevents kind task)

theorem of_spawn (h : Gated b s) {kind : SpawnKind} {task : Json}
    (htrace : s'.trace = s.trace ++ [.spawned kind task])
    (hfree : taskId? task ≠ some "" →
      (taskRequiresApproval task && b.approvalRegistry) = false) : Gated b s' := by
  intro other task' hspawned
  rw [htrace] at hspawned
  rcases List.mem_append.mp hspawned with hspawned | hnew
  · exact h other task' hspawned
  · obtain ⟨rfl, rfl⟩ := OrchestratorEvent.spawned.inj (List.mem_singleton.mp hnew)
    exact hfree

theorem move {touched : String → Prop} (hmove : OrchestratorMove b touched s s')
    (h : Gated b s) : Gated b s' := by
  cases hmove with
  | aside _ _ _ htrace => exact h.of_no_spawn [] (by simp [htrace]) (by simp)
  | close decisions _ _ _ htrace => exact h.of_no_spawn _ htrace (by simp)
  | complete id => exact h
  | release pid => exact h
  | retry id => exact h.of_no_spawn [.retryGranted id] rfl (by simp)
  | gate id => exact h
  | spawnUnnamed node _ hnode =>
      exact h.of_spawn rfl fun hne => absurd (s.taskGraph.keyed "" node hnode) hne
  | spawnSub id node _ hfree => exact h.of_spawn rfl fun _ => hfree
  | spawnWorker id node _ hfree => exact h.of_spawn rfl fun _ => hfree
  | finish requester => exact h.of_no_spawn [.finished requester] rfl (by simp)

theorem step (h : Gated b s) (op : OrchestratorOp) : Gated b (b.step s op) := by
  apply b.step_keeps (Gated b) Gated.move
  · exact fun _ _ h => h
  · exact fun _ h => h
  · intro s childPid monitorRef _ h
    exact h.of_no_spawn [.spawnAnswered childPid] (trace_answered s childPid) (by simp)
  · exact h

theorem run (h : Gated b s) (ops : List OrchestratorOp) : Gated b (b.run s ops) :=
  b.run_keeps (Gated b) (fun op h => h.step op) h ops

end Gated

/-- With an approval registry, a task under a proper id that requires approval is spawned,
as a worker or as an orchestration, only after an approval of it was taken. -/
theorem spawnedApproved_of_registry (b : OrchestratorBehavior)
    (hregistry : b.approvalRegistry = true) (args : Json) (loaded : Option Json)
    (approvals : ApprovalRegistry) (nextPid : AgentPid) (ops : List OrchestratorOp)
    (task : Json) (hrequires : taskRequiresApproval task = true)
    (hid : taskId? task ≠ some "") :
    SpawnedApproved (b.run (b.init args loaded approvals nextPid) ops).trace task := by
  intro before kind after htrace
  have hstart : Gated b (b.init args loaded approvals nextPid) := fun _ _ h => by contradiction
  have hspawned : .spawned kind task ∈
      (b.run (b.init args loaded approvals nextPid) ops).trace := by
    rw [htrace]
    exact List.mem_append_right before List.mem_cons_self
  have hfree := hstart.run ops kind task hspawned hid
  rw [hrequires, hregistry] at hfree
  contradiction

/-! ## Runs of one task -/

/-- A goal with one task under the id `t`, which requires approval. -/
def guardedTask : Json :=
  .obj [("requires_approval", .bool true), ("task_id", .str "t")]

def goalOps : List OrchestratorOp :=
  [.message (.json (.obj [("goal", .str "g")])),
    .message (.system (.ioResponse 1 (.ok (.obj [("tasks", .arr [guardedTask])]))))]

def plainOrchestrator (approvalRegistry : Bool) : OrchestratorBehavior :=
  { maxConcurrency := 1, checkpointStore := false, retryStrategy := .none, aggregator := none
    approvalRegistry, maxDepth := 5, orchId := "orch-0", currentDepth := 0 }

def plainOrchestration (approvalRegistry : Bool) : OrchestratorState :=
  (plainOrchestrator approvalRegistry).init .null none .new 1

theorem spawnedApproved_of_registry_waiting :
    ((plainOrchestrator true).run (plainOrchestration true) goalOps).taskGraph.taskStatus "t" =
        some .awaitingApproval ∧
      SpawnedApproved ((plainOrchestrator true).run (plainOrchestration true) goalOps).trace
        guardedTask := by
  refine ⟨by decide, ?_⟩
  exact spawnedApproved_of_registry (plainOrchestrator true) rfl .null none .new 1 goalOps
    guardedTask (by decide) (by decide)

/-- Without a registry the task is spawned, and nobody has approved it. -/
theorem no_registry_not_spawnedApproved :
    ¬ SpawnedApproved ((plainOrchestrator false).run (plainOrchestration false) goalOps).trace
      guardedTask := by
  have htrace : ((plainOrchestrator false).run (plainOrchestration false) goalOps).trace =
      [.spawned .worker guardedTask] := by
    decide
  intro happroved
  obtain ⟨id, _, hmem⟩ := happroved [] .worker [] htrace
  contradiction

/-! ## Progress -/

/-- A task waits for approval only because the gate put it there. -/
def WaitsAtGate (b : OrchestratorBehavior) (graph : TaskGraph) : Prop :=
  ∀ id node, graph.lookup id = some node → node.status = .awaitingApproval →
    id ≠ "" ∧ (taskRequiresApproval node.task && b.approvalRegistry) = true

namespace WaitsAtGate

variable {b : OrchestratorBehavior} {graph graph' : TaskGraph}

/-- A change of the graph that puts no task to waiting. -/
theorem of_waiting (h : WaitsAtGate b graph)
    (hwaiting : ∀ id node, graph'.lookup id = some node → node.status = .awaitingApproval →
      graph.lookup id = some node) : WaitsAtGate b graph' :=
  fun id node hnode hstatus => h id node (hwaiting id node hnode hstatus) hstatus

theorem setStatus (h : WaitsAtGate b graph) {status : TaskStatus} (id : String)
    (hstatus : status ≠ .awaitingApproval) : WaitsAtGate b (graph.setStatus id status) := by
  apply h.of_waiting
  intro q node hnode hwaits
  rw [TaskGraph.lookup_setStatus] at hnode
  split at hnode
  · obtain ⟨found, _, rfl⟩ := Option.map_eq_some_iff.mp hnode
    exact absurd hwaits hstatus
  · exact hnode

theorem markCompleted (h : WaitsAtGate b graph) (id : String) :
    WaitsAtGate b (graph.markCompleted id) := by
  have hcompleted : WaitsAtGate b (graph.setStatus id .completed) :=
    h.setStatus id (by decide)
  apply hcompleted.of_waiting
  intro q node hnode hwaits
  rcases TaskGraph.lookup_markCompleted graph id q with hsame | ⟨found, _, _, hpromoted⟩
  · rw [← hsame]
    exact hnode
  · rw [hpromoted] at hnode
    cases hnode
    contradiction

theorem closes (h : WaitsAtGate b graph) (hcloses : graph.Closes graph') :
    WaitsAtGate b graph' := by
  apply h.of_waiting
  intro q node hnode hwaits
  rcases hcloses.lookup q with hsame | ⟨status, hclosed, hlookup⟩
  · rw [← hsame]
    exact hnode
  · rw [hlookup] at hnode
    obtain ⟨found, _, rfl⟩ := Option.map_eq_some_iff.mp hnode
    rcases hclosed with rfl | rfl
    · contradiction
    · contradiction

theorem addTasks (h : WaitsAtGate b graph) (tasks : List Json) :
    WaitsAtGate b (graph.addTasks tasks).2 := by
  apply h.of_waiting
  intro q node hnode hwaits
  rcases TaskGraph.lookup_addTasks graph tasks q with hsame | ⟨task, _, _, hadded | hgone⟩
  · rw [← hsame]
    exact hnode
  · rw [hadded] at hnode
    cases hnode
    dsimp only [TaskNode.ofTask] at hwaits
    split at hwaits
    · contradiction
    · contradiction
  · rw [hgone] at hnode
    contradiction

theorem new : WaitsAtGate b .new := by
  intro id node hnode
  contradiction

theorem move {touched : String → Prop} {s s' : OrchestratorState}
    (hmove : OrchestratorMove b touched s s') (h : WaitsAtGate b s.taskGraph) :
    WaitsAtGate b s'.taskGraph := by
  cases hmove with
  | aside hgraph => exact hgraph ▸ h
  | close _ hgraph => exact h.closes hgraph
  | complete id => exact h.markCompleted id
  | release pid => exact h
  | retry id => exact h.setStatus id (by decide)
  | gate id found hid hrequires hfound =>
      intro q node hnode hwaits
      rw [TaskGraph.lookup_setStatus] at hnode
      split at hnode
      · rename_i hq
        rw [hq, hfound] at hnode
        cases hnode
        exact ⟨hq ▸ hid, hrequires⟩
      · exact h q node hnode hwaits
  | spawnUnnamed node => exact h
  | spawnSub id node => exact h
  | spawnWorker id node => exact h.setStatus id (by decide)
  | finish requester => exact h

theorem step {s : OrchestratorState} (h : WaitsAtGate b s.taskGraph) (op : OrchestratorOp) :
    WaitsAtGate b (b.step s op).taskGraph := by
  apply b.step_keeps (fun s => WaitsAtGate b s.taskGraph) WaitsAtGate.move
  · exact fun _ _ _ => WaitsAtGate.new
  · exact fun _ h => h.addTasks _
  · intro s childPid monitorRef _ h
    rw [taskGraph_answered]
    exact h
  · exact h

theorem run {s : OrchestratorState} (h : WaitsAtGate b s.taskGraph)
    (ops : List OrchestratorOp) : WaitsAtGate b (b.run s ops).taskGraph :=
  b.run_keeps (fun s => WaitsAtGate b s.taskGraph) (fun op h => h.step op) h ops

theorem init (args : Json) (loaded : Option Json) (approvals : ApprovalRegistry)
    (nextPid : AgentPid) : WaitsAtGate b (b.init args loaded approvals nextPid).taskGraph := by
  obtain ⟨tasks, hgraph⟩ := b.init_taskGraph args loaded approvals nextPid
  rw [hgraph]
  exact WaitsAtGate.new.addTasks tasks

end WaitsAtGate

/-- The events of one step. -/
def newEvents (b : OrchestratorBehavior) (s : OrchestratorState) (op : OrchestratorOp) :
    List OrchestratorEvent :=
  (b.step s op).trace.drop s.trace.length

/-- The task is ready, and when its turn comes it is spawned. -/
def Dispatchable (b : OrchestratorBehavior) (s : OrchestratorState) (task : Json) : Prop :=
  task ∈ s.taskGraph.readyTasks ∧
    ∃ kind, (b.dispatchTask s task).2.trace = s.trace ++ [.spawned kind task]

/-- The message has the task dispatched; or another takes the slot, and this one can be
dispatched later.  It does not wait any more. -/
def Progresses (b : OrchestratorBehavior) (s : OrchestratorState) (msg : Message)
    (id : String) (task : Json) : Prop :=
  ((∃ kind, .spawned kind task ∈ newEvents b s (.message msg)) ∨
    (∃ kind other, .spawned kind other ∈ newEvents b s (.message msg)) ∧
      Dispatchable b (b.step s (.message msg)) task) ∧
  (b.step s (.message msg)).taskGraph.taskStatus id ≠ some .awaitingApproval

/-- The gate stops a task that requires approval whether it was approved or not. -/
theorem not_dispatchable {b : OrchestratorBehavior} {s : OrchestratorState} {task : Json}
    {id : String} (hid : taskId? task = some id) (hne : id ≠ "")
    (hrequires : (taskRequiresApproval task && b.approvalRegistry) = true) :
    ¬ Dispatchable b s task := by
  rintro ⟨_, kind, htrace⟩
  unfold dispatchTask at htrace
  rw [hid, Option.getD_some] at htrace
  dsimp only at htrace
  rw [if_neg hne, if_pos hrequires] at htrace
  have hlength := congrArg List.length htrace
  simp at hlength

theorem Gated.not_progresses {b : OrchestratorBehavior} {s : OrchestratorState} (h : Gated b s)
    {task : Json} {id : String} (hid : taskId? task = some id) (hne : id ≠ "")
    (hrequires : (taskRequiresApproval task && b.approvalRegistry) = true) (msg : Message) :
    ¬ Progresses b s msg id task := by
  have hproper : taskId? task ≠ some "" := by
    rw [hid]
    exact fun h => hne (Option.some.inj h)
  rintro ⟨⟨kind, hspawned⟩ | ⟨_, hdispatchable⟩, _⟩
  · have hfree := h.step (.message msg) kind task (List.mem_of_mem_drop hspawned) hproper
    rw [hrequires] at hfree
    contradiction
  · exact not_dispatchable hid hne hrequires hdispatchable

/-- In no reachable state does the approval of a waiting task let the next message, whatever
it is, go on with that task. -/
theorem approved_not_progresses (b : OrchestratorBehavior) (args : Json)
    (loaded : Option Json) (approvals : ApprovalRegistry) (nextPid : AgentPid)
    (ops : List OrchestratorOp) (id : String) (node : TaskNode)
    (hnode : (b.run (b.init args loaded approvals nextPid) ops).taskGraph.lookup id =
      some node)
    (hwaits : node.status = .awaitingApproval) (msg : Message) :
    ¬ Progresses b (b.run (b.init args loaded approvals nextPid)
      (ops ++ [.approvals (.submit b.orchId id .approved)])) msg id node.task := by
  obtain ⟨hne, hrequires⟩ :=
    (WaitsAtGate.init (b := b) args loaded approvals nextPid).run ops id node hnode hwaits
  have hid : taskId? node.task = some id := TaskGraph.keyed _ id node hnode
  have hgated : Gated b (b.init args loaded approvals nextPid) := fun _ _ h => nomatch h
  exact (hgated.run _).not_progresses hid hne hrequires msg

/-- The run of `goalOps`, in which the task `t` comes to wait, and then its approval. -/
def approvedOps : List OrchestratorOp :=
  goalOps ++ [.approvals (.submit "orch-0" "t" .approved)]

/-- The slot is free and the decision is there, and `t` goes on waiting. -/
theorem approved_not_progresses_waiting :
    ((plainOrchestrator true).run (plainOrchestration true) goalOps).taskGraph.taskStatus "t" =
        some .awaitingApproval ∧
      ¬ Progresses (plainOrchestrator true)
        ((plainOrchestrator true).run (plainOrchestration true) approvedOps) (.text "") "t"
        guardedTask := by
  have hstatus : ((plainOrchestrator true).run (plainOrchestration true)
      goalOps).taskGraph.taskStatus "t" = some .awaitingApproval := by
    decide
  refine ⟨hstatus, ?_⟩
  have hnode : ((plainOrchestrator true).run (plainOrchestration true)
      goalOps).taskGraph.lookup "t" = some ⟨guardedTask, [], .awaitingApproval⟩ := rfl
  exact approved_not_progresses (plainOrchestrator true) .null none .new 1 goalOps "t" _ hnode
    rfl (.text "")

/-- The task waits, the slot is free and its approval is in the registry: the next message
neither spawns it nor anything else, and it still waits. -/
theorem approved_free_slot_not_progresses :
    ((plainOrchestrator true).run (plainOrchestration true) approvedOps).taskGraph.taskStatus
        "t" = some .awaitingApproval ∧
      ((plainOrchestrator true).run (plainOrchestration true) approvedOps).approvals.decisions.lookup
        ("orch-0", "t") = some .approved ∧
      ((plainOrchestrator true).run (plainOrchestration true)
        approvedOps).activeWorkers.entries.length +
        ((plainOrchestrator true).run (plainOrchestration true)
          approvedOps).pendingSpawnTasks.length < 1 ∧
      ¬ Progresses (plainOrchestrator true)
        ((plainOrchestrator true).run (plainOrchestration true) approvedOps) (.text "") "t"
        guardedTask := by
  refine ⟨by decide, by decide, by decide, ?_⟩
  have hevents : newEvents (plainOrchestrator true)
      ((plainOrchestrator true).run (plainOrchestration true) approvedOps)
      (.message (.text "")) = [] := by
    decide
  rintro ⟨⟨kind, hspawned⟩ | ⟨⟨kind, other, hspawned⟩, _⟩, _⟩
  · rw [hevents] at hspawned
    contradiction
  · rw [hevents] at hspawned
    contradiction

end Zeptobeam
