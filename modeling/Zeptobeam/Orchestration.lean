/-
The orchestrator: a behaviour that has a goal decomposed into tasks, spawns a worker for
each, and collects their results.  What it shares with others (the approval registry, the
pid counter, the checkpoint store) stands in its state; the store is seen by the calls made
on it.  The budget is left out, since it is written and never read.
-/
import Zeptobeam.Process
import Zeptobeam.TaskGraph
import Zeptobeam.ApprovalGate
import Zeptobeam.RetryPolicy

namespace Zeptobeam

def decomposeKind : String := "decompose_goal"

def defaultCheckpointKey : String := "orchestrator-default"

structure OrchestratorBehavior where
  maxConcurrency : Nat
  /-- Is there a checkpoint store? -/
  checkpointStore : Bool
  retryStrategy : RetryStrategy
  aggregator : Option (List Json → Json)
  /-- Is there an approval registry? -/
  approvalRegistry : Bool
  maxDepth : Nat
  orchId : String
  currentDepth : Nat

/-- The behaviours an orchestrator spawns. -/
inductive OrchestratedBehavior where
  | worker
  | orchestrator (behavior : OrchestratorBehavior)

inductive CheckpointCall where
  | save (key : String) (checkpoint : Json)
  | delete (key : String)

/-- Which branch of the dispatch emits a Spawn. -/
inductive SpawnKind where
  | unnamed
  | subOrchestration
  | worker
deriving DecidableEq, Repr

/-- What the trace of an orchestrator records. -/
inductive OrchestratorEvent where
  /-- A Spawn action was emitted for a task. -/
  | spawned (kind : SpawnKind) (task : Json)
  /-- A decision was taken from the approval registry. -/
  | decided (taskId : String) (decision : ApprovalDecision)
  | retryGranted (taskId : String)
  /-- The answer to a Spawn came in. -/
  | spawnAnswered (childPid : AgentPid)
  /-- The orchestration ended: it tells the requester, or stops. -/
  | finished (requester : Option AgentPid)
deriving DecidableEq

structure OrchestratorState where
  taskGraph : TaskGraph
  pendingSpawnTasks : List Json
  activeWorkers : AList fun _ : AgentPid => String
  workerMonitors : AList fun _ : AgentPid => MonitorRef
  inflightTasks : AList fun _ : String => Json
  results : List Json
  partialResults : AList fun _ : String => List Json
  requester : Option AgentPid
  goal : Json
  selfPid : Option AgentPid
  checkpointKey : String
  resumedFromCheckpoint : Bool
  awaitingDecomposition : Bool
  decompositionDone : Bool
  retryTracker : RetryTracker
  approvals : ApprovalRegistry
  nextPid : AgentPid
  checkpointCalls : List CheckpointCall
  /-- No field of the source. -/
  trace : List OrchestratorEvent

def orchestrationTypes : AgentTypes :=
  ⟨OrchestratedBehavior, OrchestratorState, Unit, Unit⟩

/-! ## Reading and writing JSON -/

def parsePid (value : Option Json) : Option AgentPid :=
  value.bind Json.toNat?

def extractTaskId (task : Json) (fallback : String) : String :=
  (taskId? task).getD fallback

/-- `payload.get("type").and_then(|v| v.as_str())`. -/
def typeOf (payload : Json) : Option String :=
  (payload.get? "type").bind Json.toString?

/-- The tasks of a decomposition; the goal itself is the only one when there are none. -/
def extractTasks (goal : Json) (result : IoResult) : List Json :=
  let tasksValue := match result with
    | .ok value => (value.get? "tasks").orElse fun _ =>
        (value.get? "payload").bind (·.get? "tasks")
    | _ => none
  match tasksValue.bind Json.toArray? with
  | some (task :: rest) => task :: rest
  | _ => [.obj [("goal", goal), ("task_id", .str "task-0")]]

def reasonToValue : Reason → Json
  | .normal => .str "normal"
  | .shutdown => .str "shutdown"
  | .custom text => .str text

/-- `serde_json::json!` of an optional number. -/
def optionNat (value : Option Nat) : Json :=
  value.elim .null Json.ofNat

structure WorkerResult where
  workerPid : Option AgentPid
  taskId : Option String
  asJson : Json

def parseWorkerResult (payload : Json) : Option WorkerResult :=
  if typeOf payload = some "worker_result" then
    some {
      workerPid := (payload.get? "worker_pid").bind Json.toNat?
      taskId := taskId? payload
      asJson := payload }
  else none

def runTask (childPid : AgentPid) (monitorRef : Option MonitorRef) (taskId : String)
    (task : Json) : Json :=
  .obj [("monitor_ref", optionNat monitorRef), ("task", task), ("task_id", .str taskId),
    ("type", .str "run_task"), ("worker_pid", .ofNat childPid)]

namespace OrchestratorState

def log (s : OrchestratorState) (event : OrchestratorEvent) : OrchestratorState :=
  { s with trace := s.trace ++ [event] }

def canSpawnMore (s : OrchestratorState) (maxConcurrency : Nat) : Bool :=
  s.decompositionDone && !s.awaitingDecomposition && !s.taskGraph.readyTasks.isEmpty &&
    s.activeWorkers.entries.length + s.pendingSpawnTasks.length < max maxConcurrency 1

def isComplete (s : OrchestratorState) : Bool :=
  s.decompositionDone && !s.awaitingDecomposition && s.taskGraph.isComplete &&
    s.pendingSpawnTasks.isEmpty && s.activeWorkers.entries.isEmpty

/-- `self_pid.unwrap_or_default()`; the default is a pid of its own. -/
def parentPid (s : OrchestratorState) : AgentPid × OrchestratorState :=
  match s.selfPid with
  | some pid => (pid, s)
  | none => (s.nextPid, { s with nextPid := s.nextPid + 1 })

/-- A Spawn action, monitored and not linked, for a task. -/
def spawn (s : OrchestratorState) (kind : SpawnKind) (task : Json)
    (behavior : OrchestratedBehavior) (args : Json) :
    Action orchestrationTypes × OrchestratorState :=
  (.spawn behavior args false true, s.log (.spawned kind task))

def spawnWorker (s : OrchestratorState) (kind : SpawnKind) (task : Json) (taskId : String) :
    Action orchestrationTypes × OrchestratorState :=
  let (parentPid, s) := s.parentPid
  s.spawn kind task .worker
    (.obj [("parent_pid", .ofNat parentPid), ("task_id", .str taskId)])

/-- What a decision means for its task. -/
def applyDecision (s : OrchestratorState) (decided : String × ApprovalDecision) :
    OrchestratorState :=
  let graph := match decided.2 with
    | .approved => s.taskGraph.setStatus decided.1 .ready
    | .rejected _ => (s.taskGraph.markFailed decided.1).failDependents decided.1
  { s with taskGraph := graph }.log (.decided decided.1 decided.2)

/-- A new goal begins with nothing. -/
def resetFor (s : OrchestratorState) (goal payload : Json) : OrchestratorState :=
  { s with
    requester := (parsePid (payload.get? "requester_pid")).or s.requester
    selfPid := (parsePid (payload.get? "self_pid")).or s.selfPid
    goal
    taskGraph := .new
    pendingSpawnTasks := []
    activeWorkers := ∅
    workerMonitors := ∅
    inflightTasks := ∅
    results := []
    partialResults := ∅
    resumedFromCheckpoint := false
    awaitingDecomposition := true
    decompositionDone := false }

end OrchestratorState

namespace OrchestratorBehavior

variable (b : OrchestratorBehavior)

/-! ## Checkpoints -/

/-- The checkpoint's goal, results and tasks, when it has a goal. -/
def parseCheckpoint (value : Json) : Option (Json × List Json × List Json) := do
  let goal ← value.get? "goal"
  let items := fun key => ((value.get? key).bind Json.toArray?).getD []
  some (goal, items "completed_results", items "pending_tasks")

def persistCheckpoint (s : OrchestratorState) : OrchestratorState :=
  if b.checkpointStore then
    let pendingTasks := s.taskGraph.readyTasks ++ s.pendingSpawnTasks ++
      s.inflightTasks.entries.map Sigma.snd
    let checkpoint := Json.obj [("completed_results", .arr s.results), ("goal", s.goal),
      ("pending_tasks", .arr pendingTasks)]
    { s with checkpointCalls := s.checkpointCalls ++ [.save s.checkpointKey checkpoint] }
  else s

def clearCheckpoint (s : OrchestratorState) : OrchestratorState :=
  if b.checkpointStore then
    { s with checkpointCalls := s.checkpointCalls ++ [.delete s.checkpointKey] }
  else s

/-- `init`, with what the checkpoint store has under the key, the registry as it is, and
the pid counter. -/
def init (args : Json) (loaded : Option Json) (approvals : ApprovalRegistry)
    (nextPid : AgentPid) : OrchestratorState :=
  let resumed := if b.checkpointStore then loaded.bind parseCheckpoint else none
  { taskGraph := match resumed with
      | some (_, _, pendingTasks) => (TaskGraph.new.addTasks pendingTasks).2
      | none => .new
    pendingSpawnTasks := []
    activeWorkers := ∅
    workerMonitors := ∅
    inflightTasks := ∅
    results := resumed.elim [] (·.2.1)
    partialResults := ∅
    requester := parsePid (args.get? "requester_pid")
    goal := match resumed with
      | some (goal, _, _) => goal
      | none => (args.get? "goal").getD .null
    selfPid := parsePid (args.get? "self_pid")
    checkpointKey := ((args.get? "checkpoint_key").bind Json.toString?).getD
      defaultCheckpointKey
    resumedFromCheckpoint := resumed.isSome
    awaitingDecomposition := false
    decompositionDone := resumed.isSome
    retryTracker := .new b.retryStrategy
    approvals, nextPid
    checkpointCalls := []
    trace := [] }

/-! ## Dispatch -/

/-- Take the decisions there are for ready tasks that require approval. -/
def takeDecisions :
    List Json → ApprovalRegistry → List (String × ApprovalDecision) × ApprovalRegistry
  | [], approvals => ([], approvals)
  | task :: rest, approvals =>
      match taskId? task with
      | none => takeDecisions rest approvals
      | some taskId =>
          if taskRequiresApproval task then
            match approvals.takeDecision b.orchId taskId with
            | (none, approvals) => takeDecisions rest approvals
            | (some decision, approvals) =>
                let (decisions, approvals) := takeDecisions rest approvals
                ((taskId, decision) :: decisions, approvals)
          else takeDecisions rest approvals

def pollApprovalRegistry (s : OrchestratorState) : OrchestratorState :=
  if b.approvalRegistry then
    let (decisions, approvals) := b.takeDecisions s.taskGraph.readyTasks s.approvals
    decisions.foldl OrchestratorState.applyDecision { s with approvals }
  else s

/-- The behaviour of a sub-orchestration. -/
def subOrchestrator (task : Json) (taskId : String) : OrchestratorBehavior :=
  { b with
    maxConcurrency :=
      ((task.get? "max_concurrency").bind Json.toNat?).getD b.maxConcurrency
    orchId := s!"{b.orchId}-{taskId}"
    currentDepth := b.currentDepth + 1 }

def finalize (s : OrchestratorState) : Action orchestrationTypes × OrchestratorState :=
  let s := (b.clearCheckpoint s).log (.finished s.requester)
  let finalResult := match b.aggregator with
    | some aggregate => aggregate s.results
    | none => .arr s.results
  let summary := Json.obj [("goal", s.goal), ("results", finalResult),
    ("type", .str "orchestration_complete")]
  match s.requester with
  | some requester => (.send requester (.json summary), s)
  | none => (.stop .normal, s)

/-- The first ready task.  A sub-orchestration beyond the depth limit fails, and the next
task is looked for: then there is no action. -/
def dispatchTask (s : OrchestratorState) (task : Json) :
    Option (Action orchestrationTypes) × OrchestratorState :=
  let taskId := (taskId? task).getD ""
  if taskId = "" then
    let fallback := s!"task-{s.activeWorkers.entries.length + s.pendingSpawnTasks.length}"
    let s := b.persistCheckpoint { s with pendingSpawnTasks := s.pendingSpawnTasks ++ [task] }
    let (action, s) := s.spawnWorker .unnamed task (extractTaskId task fallback)
    (some action, s)
  else if taskRequiresApproval task && b.approvalRegistry then
    (some .continue,
      { s with
        taskGraph := s.taskGraph.setStatus taskId .awaitingApproval
        approvals := s.approvals.requestApproval b.orchId taskId (approvalMessage task) task })
  else if typeOf task = some "sub_orchestration" then
    if b.currentDepth ≥ b.maxDepth then
      let result := Json.obj [("task_id", .str taskId),
        ("type", .str "sub_orchestration_depth_exceeded")]
      (none, { s with
        taskGraph := s.taskGraph.markFailed taskId
        results := s.results ++ [result] })
    else
      let (action, s) := s.spawn .subOrchestration task
        (.orchestrator (b.subOrchestrator task taskId))
        (.obj [("goal", (task.get? "goal").getD .null), ("parent_pid", optionNat s.selfPid)])
      (some action, s)
  else
    let s := b.persistCheckpoint { s with
      taskGraph := s.taskGraph.markRunning taskId
      pendingSpawnTasks := s.pendingSpawnTasks ++ [task] }
    let (action, s) := s.spawnWorker .worker task taskId
    (some action, s)

/-- The recursion of `next_or_finalize`, which each task that is beyond the depth limit
takes once. -/
def nextFrom : Nat → OrchestratorState → Action orchestrationTypes × OrchestratorState
  | 0, s => (.continue, s)
  | fuel + 1, s =>
      let s := b.pollApprovalRegistry s
      if s.canSpawnMore b.maxConcurrency then
        match s.taskGraph.readyTasks with
        | [] => (.continue, s)
        | task :: _ =>
            match b.dispatchTask s task with
            | (some action, s) => (action, s)
            | (none, s) => nextFrom fuel s
      else if s.isComplete then b.finalize s
      else (.continue, s)

def nextOrFinalize (s : OrchestratorState) : Action orchestrationTypes × OrchestratorState :=
  b.nextFrom (s.taskGraph.readyTasks.length + 1) s

/-! ## Messages -/

/-- A worker is gone: unless it ended normally its task is tried again, or fails with all
that depend on it. -/
def releaseWorker (s : OrchestratorState) (pid : AgentPid) (reason : Reason) :
    OrchestratorState :=
  match s.activeWorkers.lookup pid with
  | none => s
  | some taskId =>
      let s := { s with
        activeWorkers := s.activeWorkers.erase pid
        inflightTasks := s.inflightTasks.erase taskId }
      if reason = .normal then s
      else
        match s.retryTracker.shouldRetry taskId with
        | (some _, retryTracker) =>
            { s with
              retryTracker
              taskGraph := s.taskGraph.setStatus taskId .ready }.log (.retryGranted taskId)
        | (none, retryTracker) =>
            let result := Json.obj [("reason", reasonToValue reason),
              ("task_id", .str taskId), ("type", .str "worker_error"),
              ("worker_pid", .ofNat pid)]
            { s with
              retryTracker
              taskGraph := (s.taskGraph.markFailed taskId).failDependents taskId
              results := s.results ++ [result] }

def handleProgress (s : OrchestratorState) (payload : Json) :
    Action orchestrationTypes × OrchestratorState :=
  let partialResults := match taskId? payload with
    | some taskId => s.partialResults.insert taskId
        ((s.partialResults.lookup taskId).getD [] ++ [payload])
    | none => s.partialResults
  let s := { s with partialResults }
  match s.requester with
  | some requester => (.send requester (.json payload), s)
  | none => (.continue, s)

def handleResult (s : OrchestratorState) (result : WorkerResult) :
    Action orchestrationTypes × OrchestratorState :=
  let s := match result.taskId with
    | some taskId => { s with
        taskGraph := s.taskGraph.markCompleted taskId
        inflightTasks := s.inflightTasks.erase taskId }
    | none => s
  let s := b.persistCheckpoint { s with results := s.results ++ [result.asJson] }
  match result.workerPid with
  | some workerPid =>
      (.send workerPid (.json (.obj [("type", .str "shutdown_worker")])), s)
  | none => b.nextOrFinalize s

def incomingGoal (payload : Json) : Json :=
  (payload.get? "goal").getD payload

/-- The goal of a checkpoint that was resumed, told again without asking for a restart. -/
def resumes (s : OrchestratorState) (payload : Json) : Bool :=
  s.resumedFromCheckpoint && incomingGoal payload = s.goal &&
    (payload.get? "restart").bind Json.toBool? ≠ some true

def handleGoal (s : OrchestratorState) (payload : Json) :
    Action orchestrationTypes × OrchestratorState :=
  if resumes s payload then
    b.nextOrFinalize (b.persistCheckpoint { s with
      requester := (parsePid (payload.get? "requester_pid")).or s.requester
      selfPid := (parsePid (payload.get? "self_pid")).or s.selfPid
      resumedFromCheckpoint := false })
  else
    let goal := incomingGoal payload
    (.ioRequest (.custom decomposeKind (.obj [("goal", goal)])),
      b.persistCheckpoint (s.resetFor goal payload))

def handleJson (s : OrchestratorState) (payload : Json) :
    Action orchestrationTypes × OrchestratorState :=
  if typeOf payload = some "worker_progress" then handleProgress s payload
  else
    match parseWorkerResult payload with
    | some result => b.handleResult s result
    | none => b.handleGoal s payload

def handleIoResponse (s : OrchestratorState) (result : IoResult) :
    Action orchestrationTypes × OrchestratorState :=
  let tasks := extractTasks s.goal result
  match s.taskGraph.addTasks tasks with
  | (.error text, taskGraph) =>
      let failure := Json.obj [("error", .str s!"cycle detected: {text}")]
      (.continue, { s with
        awaitingDecomposition := false
        decompositionDone := true
        taskGraph
        results := s.results ++ [failure] })
  | (.ok _, taskGraph) =>
      b.nextOrFinalize (b.persistCheckpoint { s with
        awaitingDecomposition := false
        decompositionDone := true
        taskGraph })

/-- The oldest task that waits for its worker is taken to be the one this worker was
spawned for. -/
def handleSpawnResult (s : OrchestratorState) (childPid : AgentPid)
    (monitorRef : Option MonitorRef) : Action orchestrationTypes × OrchestratorState :=
  let s := s.log (.spawnAnswered childPid)
  match s.pendingSpawnTasks with
  | [] => b.nextOrFinalize s
  | task :: rest =>
      let taskId := extractTaskId task s!"task-{childPid}"
      let s := b.persistCheckpoint { s with
        pendingSpawnTasks := rest
        activeWorkers := s.activeWorkers.insert childPid taskId
        inflightTasks := s.inflightTasks.insert taskId task
        workerMonitors := match monitorRef with
          | some monitorRef => s.workerMonitors.insert childPid monitorRef
          | none => s.workerMonitors }
      (.send childPid (.json (runTask childPid monitorRef taskId task)), s)

def handleDown (s : OrchestratorState) (pid : AgentPid) (reason : Reason) :
    Action orchestrationTypes × OrchestratorState :=
  b.nextOrFinalize (b.persistCheckpoint
    { releaseWorker s pid reason with workerMonitors := s.workerMonitors.erase pid })

def handleMessage (s : OrchestratorState) (msg : Message) :
    Action orchestrationTypes × OrchestratorState :=
  let s := b.pollApprovalRegistry s
  match msg with
  | .json payload => b.handleJson s payload
  | .system (.ioResponse _ result) => b.handleIoResponse s result
  | .system (.spawnResult childPid monitorRef) => b.handleSpawnResult s childPid monitorRef
  | .system (.down _ pid reason) => b.handleDown s pid reason
  | _ => (.continue, s)

def handleExit (s : OrchestratorState) (pid : AgentPid) (reason : Reason) :
    Action orchestrationTypes × OrchestratorState :=
  b.nextOrFinalize (b.persistCheckpoint (releaseWorker s pid reason))

end OrchestratorBehavior

/-! ## Runs -/

/-- What anybody does with the approval registry. -/
inductive ApprovalOp where
  | request (orchId taskId message : String) (task : Json)
  | submit (orchId taskId : String) (decision : ApprovalDecision)
  | take (orchId taskId : String)

def ApprovalOp.perform (registry : ApprovalRegistry) : ApprovalOp → ApprovalRegistry
  | .request orchId taskId message task => registry.requestApproval orchId taskId message task
  | .submit orchId taskId decision => (registry.submitDecision orchId taskId decision).2
  | .take orchId taskId => (registry.takeDecision orchId taskId).2

/-- A step of an orchestrator's run: it handles something, or others use what it shares
with them. -/
inductive OrchestratorOp where
  | message (msg : Message)
  | exit (pid : AgentPid) (reason : Reason)
  | approvals (op : ApprovalOp)
  | pidsDrawn (pids : Nat)

namespace OrchestratorBehavior

variable (b : OrchestratorBehavior)

def step (s : OrchestratorState) : OrchestratorOp → OrchestratorState
  | .message msg => (b.handleMessage s msg).2
  | .exit pid reason => (b.handleExit s pid reason).2
  | .approvals op => { s with approvals := op.perform s.approvals }
  | .pidsDrawn pids => { s with nextPid := s.nextPid + pids }

def run (s : OrchestratorState) (ops : List OrchestratorOp) : OrchestratorState :=
  ops.foldl b.step s

end OrchestratorBehavior

end Zeptobeam
