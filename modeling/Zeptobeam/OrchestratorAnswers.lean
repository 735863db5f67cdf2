/-
Which task a new child is given.  The orchestrator takes the oldest task of its queue for
the one that was spawned, and that is right as long as the queue is what is in flight: no
goal empties it meanwhile, and no sub-orchestration is spawned past it.
-/
import Zeptobeam.OrchestratorSpawns
import Zeptobeam.Lib.GuardedRun

namespace Zeptobeam

open OrchestratorBehavior

/-- The tasks whose Spawn was not answered yet; the answers come in the order of the
Spawns. -/
def inFlight (events : List OrchestratorEvent) : List Json :=
  events.foldl (fun tasks event =>
    match event with
    | .spawned _ task => tasks ++ [task]
    | .spawnAnswered _ => tasks.tail
    | _ => tasks) []

/-- The child is told to run the task, and is registered under the id of that task. -/
def AnswersWith (b : OrchestratorBehavior) (s : OrchestratorState) (childPid : AgentPid)
    (monitorRef : Option MonitorRef) (task : Json) : Prop :=
  ∃ id, taskId? task = some id ∧
    (b.handleMessage s (.system (.spawnResult childPid monitorRef))).1 =
      .send childPid (.json (runTask childPid monitorRef id task)) ∧
    (b.handleMessage s (.system (.spawnResult childPid monitorRef))).2.activeWorkers.lookup
      childPid = some id

/-- A goal comes when nothing is in flight, a decomposition has no sub-orchestration to be
spawned, and a Spawn is answered that was emitted. -/
def KeepsOrder (b : OrchestratorBehavior) (s : OrchestratorState) : OrchestratorOp → Prop
  | .message (.json payload) =>
      startsGoal (b.pollApprovalRegistry s) payload = true → inFlight s.trace = []
  | .message (.system (.ioResponse _ result)) =>
      ∀ task ∈ extractTasks s.goal result, QueuedWhenSpawned b task
  | .message (.system (.spawnResult _ _)) => inFlight s.trace ≠ []
  | _ => True

theorem inFlight_append (events new : List OrchestratorEvent) :
    inFlight (events ++ new) = new.foldl (fun tasks event =>
      match event with
      | .spawned _ task => tasks ++ [task]
      | .spawnAnswered _ => tasks.tail
      | _ => tasks) (inFlight events) :=
  List.foldl_append

theorem inFlight_decided (events : List OrchestratorEvent)
    (decisions : List (String × ApprovalDecision)) :
    inFlight (events ++ decisions.map fun d => .decided d.1 d.2) = inFlight events := by
  rw [inFlight_append]
  generalize inFlight events = tasks
  induction decisions with
  | nil => rfl
  | cons d rest ih => exact ih

/-- The oldest task of the queue is the one the child is given. -/
theorem handleSpawnResult_first {b : OrchestratorBehavior} {s : OrchestratorState}
    {task : Json} {rest : List Json} {id : String} (hid : taskId? task = some id)
    (hpending : s.pendingSpawnTasks = task :: rest) (childPid : AgentPid)
    (monitorRef : Option MonitorRef) :
    (b.handleSpawnResult s childPid monitorRef).1 =
        .send childPid (.json (runTask childPid monitorRef id task)) ∧
      (b.handleSpawnResult s childPid monitorRef).2.activeWorkers.lookup childPid =
        some id := by
  have hextract : extractTaskId task s!"task-{childPid}" = id := by
    rw [extractTaskId, hid, Option.getD_some]
  unfold handleSpawnResult
  dsimp only [OrchestratorState.log]
  rw [hpending]
  dsimp only
  rw [hextract]
  refine ⟨rfl, ?_⟩
  unfold persistCheckpoint
  split
  · exact AList.lookup_insert _
  · exact AList.lookup_insert _

/-- The queue is what is in flight, each under an id, and no task of the graph will be
spawned past it. -/
structure QueueInFlight (b : OrchestratorBehavior) (s : OrchestratorState) : Prop where
  queue : s.pendingSpawnTasks = inFlight s.trace
  named : ∀ task ∈ s.pendingSpawnTasks, ∃ id, taskId? task = some id
  queued : ∀ id node, s.taskGraph.lookup id = some node → QueuedWhenSpawned b node.task

namespace QueueInFlight

variable {b : OrchestratorBehavior} {s s' : OrchestratorState}

/-- A change that leaves the queue alone, and the tasks of the graph. -/
theorem of_quiet (h : QueueInFlight b s)
    (hpending : s'.pendingSpawnTasks = s.pendingSpawnTasks)
    (htrace : inFlight s'.trace = inFlight s.trace)
    (hsame : s.taskGraph.SameTasks s'.taskGraph) :
    QueueInFlight b s' := by
  refine ⟨?_, ?_, ?_⟩
  · rw [hpending, htrace]
    exact h.queue
  · rw [hpending]
    exact h.named
  · intro id node hnode
    obtain ⟨found, hfound, htask, _⟩ := hsame.known hnode
    rw [← htask]
    exact h.queued id found hfound

/-- A task of the graph is spawned, and goes to the end of the queue. -/
theorem of_spawn (h : QueueInFlight b s) {kind : SpawnKind} {id : String} {node : TaskNode}
    (hnode : s.taskGraph.lookup id = some node)
    (hpending : s'.pendingSpawnTasks = s.pendingSpawnTasks ++ [node.task])
    (htrace : s'.trace = s.trace ++ [.spawned kind node.task])
    (hsame : s.taskGraph.SameTasks s'.taskGraph) :
    QueueInFlight b s' := by
  refine ⟨?_, ?_, ?_⟩
  · rw [hpending, htrace, h.queue, inFlight_append]
    rfl
  · intro task htask
    rw [hpending] at htask
    rcases List.mem_append.mp htask with hold | hnew
    · exact h.named task hold
    · obtain rfl := List.mem_singleton.mp hnew
      exact ⟨id, s.taskGraph.keyed id node hnode⟩
  · intro q other hother
    obtain ⟨found, hfound, htask, _⟩ := hsame.known hother
    rw [← htask]
    exact h.queued q found hfound

theorem move {touched : String → Prop} (hmove : OrchestratorMove b touched s s')
    (h : QueueInFlight b s) : QueueInFlight b s' := by
  have hsame := hmove.sameTasks
  cases hmove with
  | aside hgraph hpending _ htrace =>
      exact h.of_quiet hpending (congrArg inFlight htrace) hsame
  | close decisions hgraph hpending _ htrace =>
      apply h.of_quiet hpending ?_ hsame
      rw [htrace]
      exact inFlight_decided s.trace decisions
  | complete id =>
      exact h.of_quiet rfl rfl hsame
  | release pid => exact h.of_quiet rfl rfl hsame
  | retry id =>
      exact h.of_quiet rfl (inFlight_append s.trace [.retryGranted id]) hsame
  | gate id =>
      exact h.of_quiet rfl rfl hsame
  | spawnUnnamed node _ hnode => exact h.of_spawn hnode rfl rfl hsame
  | spawnSub id node _ hfree hsub hdepth _ hnode =>
      rcases h.queued id node hnode hsub with hgated | hdeep
      · rw [hgated] at hfree
        contradiction
      · exact absurd hdepth (Nat.not_lt_of_ge hdeep)
  | spawnWorker id node _ _ _ hnode =>
      exact h.of_spawn hnode rfl rfl hsame
  | finish requester =>
      exact h.of_quiet rfl (inFlight_append s.trace [.finished requester]) hsame

theorem addTasks (h : QueueInFlight b s) {tasks : List Json}
    (htasks : ∀ task ∈ tasks, QueuedWhenSpawned b task) :
    QueueInFlight b { s with taskGraph := (s.taskGraph.addTasks tasks).2 } := by
  refine ⟨h.queue, h.named, fun id node hnode => ?_⟩
  rcases s.taskGraph.lookup_addTasks tasks id with hsame | ⟨task, htask, _, hadded | hgone⟩
  · exact h.queued id node (hsame ▸ hnode)
  · rw [hadded] at hnode
    cases hnode
    exact htasks task htask
  · rw [hgone] at hnode
    contradiction

/-- The answer takes the first of the queue, which is the oldest in flight. -/
theorem answered (h : QueueInFlight b s) (childPid : AgentPid)
    (hflight : inFlight s.trace ≠ []) :
    QueueInFlight b (OrchestratorBehavior.answered s childPid) := by
  have hqueue := h.queue
  have hnamed := h.named
  unfold OrchestratorBehavior.answered
  split
  · rename_i hnone
    exact absurd (hqueue.symm.trans hnone) hflight
  · rename_i task rest hpending
    rw [hpending] at hqueue hnamed
    refine ⟨?_, fun other hother => hnamed other (List.mem_cons_of_mem task hother), h.queued⟩
    rw [OrchestratorState.log]
    dsimp only
    rw [inFlight_append, ← hqueue]
    rfl

theorem step (h : QueueInFlight b s) {op : OrchestratorOp} (horder : KeepsOrder b s op) :
    QueueInFlight b (b.step s op) := by
  cases op with
  | message msg =>
      have hpoll : OrchestratorMove b (touches s msg) s (b.pollApprovalRegistry s) :=
        b.pollApprovalRegistry_move s
      have hpolled := h.move hpoll
      have hflight : inFlight (b.pollApprovalRegistry s).trace = inFlight s.trace := by
        obtain ⟨decisions, _, _, _, htrace⟩ := b.pollApprovalRegistry_closes s
        rw [htrace]
        exact inFlight_decided s.trace decisions
      rcases b.handleMessage_moves s msg with ⟨payload, rfl, hstarts, hmoves⟩ |
        ⟨correlationId, result, rfl, hmoves⟩ | ⟨childPid, monitorRef, rfl, hmoves⟩ | hmoves
      · apply OrchestratorMoves.keeps (QueueInFlight b) QueueInFlight.move hmoves
        refine ⟨(hflight.trans (horder hstarts)).symm, ?_, ?_⟩
        · intro task htask
          contradiction
        · intro id node hnode
          contradiction
      · apply OrchestratorMoves.keeps (QueueInFlight b) QueueInFlight.move hmoves
        apply hpolled.addTasks
        intro task htask
        rcases mem_extractTasks s.goal htask with hmem | rfl
        · exact horder task hmem
        · exact ownTask_queued b _
      · apply OrchestratorMoves.keeps (QueueInFlight b) QueueInFlight.move hmoves
        exact hpolled.answered childPid (hflight ▸ horder)
      · exact OrchestratorMoves.keeps (QueueInFlight b) QueueInFlight.move hmoves hpolled
  | exit pid reason =>
      exact OrchestratorMoves.keeps (QueueInFlight b) QueueInFlight.move
        (b.handleExit_moves s pid reason fun _ h => h) h
  | approvals op => exact ⟨h.queue, h.named, h.queued⟩
  | pidsDrawn pids => exact ⟨h.queue, h.named, h.queued⟩

/-- Then the next answer goes to the task it is for. -/
theorem answersWith (h : QueueInFlight b s) {task : Json} {rest : List Json}
    (hflight : inFlight s.trace = task :: rest) (childPid : AgentPid)
    (monitorRef : Option MonitorRef) : AnswersWith b s childPid monitorRef task := by
  have hqueue : s.pendingSpawnTasks = task :: rest := h.queue.trans hflight
  obtain ⟨id, hid⟩ := h.named task (hqueue ▸ List.mem_cons_self)
  obtain ⟨_, _, hpending, _, _⟩ := b.pollApprovalRegistry_closes s
  exact ⟨id, hid, handleSpawnResult_first hid (hpending.trans hqueue) childPid monitorRef⟩

end QueueInFlight

/-- In a run that keeps the order, the answer to a Spawn gives the child the task that
Spawn was emitted for. -/
theorem answersWith_of_keepsOrder (b : OrchestratorBehavior) (args : Json)
    (loaded : Option Json) (approvals : ApprovalRegistry) (nextPid : AgentPid)
    (hloaded : ∀ checkpoint goal results tasks, loaded = some checkpoint →
      parseCheckpoint checkpoint = some (goal, results, tasks) →
      ∀ task ∈ tasks, QueuedWhenSpawned b task)
    (ops : List OrchestratorOp)
    (horder : GuardedRun.Guarded b.step (KeepsOrder b)
      (b.init args loaded approvals nextPid) ops)
    (task : Json) (rest : List Json)
    (hflight : inFlight (b.run (b.init args loaded approvals nextPid) ops).trace =
      task :: rest)
    (childPid : AgentPid) (monitorRef : Option MonitorRef) :
    AnswersWith b (b.run (b.init args loaded approvals nextPid) ops) childPid monitorRef
      task := by
  have hempty : QueueInFlight b
      { b.init args loaded approvals nextPid with taskGraph := .new } := by
    refine ⟨rfl, fun _ h => by contradiction, fun _ _ h => by contradiction⟩
  have hstart : QueueInFlight b (b.init args loaded approvals nextPid) := by
    unfold OrchestratorBehavior.init
    dsimp only
    cases hresumed : (if b.checkpointStore then loaded.bind parseCheckpoint else none) with
    | none => exact ⟨rfl, hempty.named, hempty.queued⟩
    | some checkpoint =>
        obtain ⟨goal, results, tasks⟩ := checkpoint
        have htasks : ∀ task ∈ tasks, QueuedWhenSpawned b task := by
          split at hresumed
          · obtain ⟨value, hvalue, hparsed⟩ := Option.bind_eq_some_iff.mp hresumed
            exact hloaded value goal results tasks hvalue hparsed
          · contradiction
        have hadded := hempty.addTasks htasks
        exact ⟨rfl, hadded.named, hadded.queued⟩
  have hrun : QueueInFlight b (b.run (b.init args loaded approvals nextPid) ops) :=
    horder.keeps hstart fun s op h => h.step
  exact hrun.answersWith hflight childPid monitorRef

/-! ## Two goals -/

def namedTask (id : String) : Json := .obj [("task_id", .str id)]

theorem answersWith_of_keepsOrder_one :
    AnswersWith (plainWorkers 1 .none)
      ((plainWorkers 1 .none).run (idleOrchestration (plainWorkers 1 .none))
        [.message (.json goalMessage), decomposedInto [namedTask "p"]]) 7 none
      (namedTask "p") := by
  apply answersWith_of_keepsOrder (plainWorkers 1 .none) .null none .new 1 ?_
    [.message (.json goalMessage), decomposedInto [namedTask "p"]] ?_ (namedTask "p") [] rfl
  · intro checkpoint goal results tasks hnone
    contradiction
  · apply GuardedRun.Guarded.cons
    · exact fun _ => rfl
    · apply GuardedRun.Guarded.cons
      · intro task htask
        obtain rfl := List.mem_singleton.mp htask
        exact fun hsub => absurd hsub (by decide)
      · exact GuardedRun.Guarded.nil

/-- The second goal empties the queue while the Spawn for `p` is in flight, and the child of
`p` is given the task `q`. -/
theorem second_goal_not_answersWith :
    inFlight ((plainWorkers 1 .none).run (idleOrchestration (plainWorkers 1 .none))
        [.message (.json goalMessage), decomposedInto [namedTask "p"],
          .message (.json goalMessage), decomposedInto [namedTask "q"]]).trace =
        [namedTask "p", namedTask "q"] ∧
      ¬ AnswersWith (plainWorkers 1 .none)
        ((plainWorkers 1 .none).run (idleOrchestration (plainWorkers 1 .none))
          [.message (.json goalMessage), decomposedInto [namedTask "p"],
            .message (.json goalMessage), decomposedInto [namedTask "q"]]) 7 none
        (namedTask "p") := by
  refine ⟨by decide, ?_⟩
  rintro ⟨id, hid, _, hworker⟩
  have hregistered : ((plainWorkers 1 .none).handleMessage
      ((plainWorkers 1 .none).run (idleOrchestration (plainWorkers 1 .none))
        [.message (.json goalMessage), decomposedInto [namedTask "p"],
          .message (.json goalMessage), decomposedInto [namedTask "q"]])
      (.system (.spawnResult 7 none))).2.activeWorkers.lookup 7 = some "q" := by
    decide
  rw [hregistered] at hworker
  obtain rfl := Option.some.inj hworker
  exact absurd hid (by decide)

end Zeptobeam
