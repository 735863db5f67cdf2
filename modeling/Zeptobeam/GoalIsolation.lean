/-
Goal isolation: messages that an earlier goal left behind make no difference when nobody
waits for what they bring, and there is nothing to be dispatched when they come.
-/
import Zeptobeam.OrchestratorAlike
import Zeptobeam.OrchestratorSpawns
import Zeptobeam.TaskGraphReload
import Zeptobeam.Lib.Unwinding

namespace Zeptobeam

open OrchestratorBehavior GuardedRun Unwinding

/-- Something that comes in, and whether an earlier goal is where it comes from. -/
structure SentOp where
  op : OrchestratorOp
  stale : Bool

namespace OrchestratorBehavior

variable (b : OrchestratorBehavior)

def stepSent (s : OrchestratorState) (sent : SentOp) : OrchestratorState :=
  b.step s sent.op

/-- What the orchestrator does about it. -/
def effect (s : OrchestratorState) (op : OrchestratorOp) : List (Action orchestrationTypes) :=
  let action := match op with
    | .message msg => (b.handleMessage s msg).1
    | .exit pid reason => (b.handleExit s pid reason).1
    | .approvals _ => .continue
    | .pidsDrawn _ => .continue
  match action with
  | .continue => []
  | action => [action]

/-- Everything that it does in a run: tells the requester about the completion, for one. -/
def effects (s : OrchestratorState) (ops : List SentOp) : List (Action orchestrationTypes) :=
  allAnswers b.stepSent (fun s sent => b.effect s sent.op) s ops

/-- No decision can be taken for a ready task. -/
def undecided (s : OrchestratorState) : Bool :=
  !b.approvalRegistry || s.taskGraph.readyTasks.all fun task =>
    !taskRequiresApproval task || ((taskId? task).bind fun taskId =>
      s.approvals.decisions.lookup (b.orchId, taskId)).isNone

/-- There is nothing for `next_or_finalize` to do. -/
def settled (s : OrchestratorState) : Bool :=
  b.undecided s && !s.canSpawnMore b.maxConcurrency && !s.isComplete

/-- The end of a process that is no worker, or the answer to a Spawn that nothing waits for,
with nothing else to do. -/
def harmless (s : OrchestratorState) : OrchestratorOp → Bool
  | .message (.system (.down _ pid _)) => (s.activeWorkers.lookup pid).isNone && b.settled s
  | .message (.system (.spawnResult _ _)) => s.pendingSpawnTasks.isEmpty && b.settled s
  | .exit pid _ => (s.activeWorkers.lookup pid).isNone && b.settled s
  | _ => false

end OrchestratorBehavior

/-- What is there without the messages of earlier goals. -/
def ownOps (ops : List SentOp) : List SentOp :=
  ops.filter fun sent => !sent.stale

/-- Two runs show the same for the goal. -/
structure SameForGoal (b : OrchestratorBehavior) (s : OrchestratorState)
    (ops ops' : List SentOp) : Prop where
  taskGraph : (ops.foldl b.stepSent s).taskGraph = (ops'.foldl b.stepSent s).taskGraph
  results : (ops.foldl b.stepSent s).results = (ops'.foldl b.stepSent s).results
  retryTracker : (ops.foldl b.stepSent s).retryTracker = (ops'.foldl b.stepSent s).retryTracker
  effects : b.effects s ops = b.effects s ops'

/-! ## Nothing to do -/

variable {b : OrchestratorBehavior} {s s' : OrchestratorState}

theorem takeDecisions_of_undecided {tasks : List Json} {approvals : ApprovalRegistry}
    (hundecided : ∀ task ∈ tasks, taskRequiresApproval task → ∀ id, taskId? task = some id →
      approvals.decisions.lookup (b.orchId, id) = none) :
    b.takeDecisions tasks approvals = ([], approvals) := by
  induction tasks with
  | nil => rfl
  | cons task rest ih =>
      have hrest := ih fun other hother => hundecided other (List.mem_cons_of_mem task hother)
      unfold takeDecisions
      split
      · exact hrest
      · rename_i id hid
        split
        · rename_i hrequires
          have hnone := hundecided task List.mem_cons_self hrequires id hid
          have hsame : approvals.takeDecision b.orchId id = (none, approvals) := by
            have habsent : approvals.decisions.erase (b.orchId, id) = approvals.decisions := by
              apply AList.ext
              exact List.kerase_of_notMem_keys (AList.lookup_eq_none.mp hnone)
            unfold ApprovalRegistry.takeDecision
            rw [hnone, habsent]
          rw [hsame]
          exact hrest
        · exact hrest

theorem poll_of_undecided (h : b.undecided s = true) : b.pollApprovalRegistry s = s := by
  unfold pollApprovalRegistry
  split
  · rename_i hregistry
    have htaken : b.takeDecisions s.taskGraph.readyTasks s.approvals = ([], s.approvals) := by
      apply takeDecisions_of_undecided
      intro task htask hrequires id hid
      simp only [undecided, hregistry, Bool.not_true, Bool.false_or, List.all_eq_true] at h
      simpa [hrequires, hid] using h task htask
    rw [htaken]
    rfl
  · rfl

theorem nextOrFinalize_of_settled (h : b.settled s = true) :
    b.nextOrFinalize s = (.continue, s) := by
  simp only [settled, Bool.and_eq_true, Bool.not_eq_true'] at h
  obtain ⟨⟨hundecided, hfull⟩, hunfinished⟩ := h
  unfold nextOrFinalize nextFrom
  rw [poll_of_undecided hundecided]
  dsimp only
  rw [hfull, hunfinished]
  rfl

/-- What only touches what is never read leaves a settled state as it is. -/
theorem nextOrFinalize_alike (hsettled : b.settled s = true) (h : Alike s s') :
    (b.nextOrFinalize s').1 = .continue ∧ Alike s (b.nextOrFinalize s').2 := by
  obtain ⟨haction, hstate⟩ := h.nextOrFinalize (b := b)
  rw [nextOrFinalize_of_settled hsettled] at haction hstate
  exact ⟨haction.symm, hstate⟩

theorem releaseWorker_of_none {pid : AgentPid} {reason : Reason}
    (h : s.activeWorkers.lookup pid = none) : releaseWorker s pid reason = s := by
  unfold releaseWorker
  rw [h]

theorem poll_of_settled (h : b.settled s = true) : b.pollApprovalRegistry s = s := by
  simp only [settled, Bool.and_eq_true] at h
  exact poll_of_undecided h.1.1

/-- The end of somebody who is no worker. -/
theorem handleMessage_down (hsettled : b.settled s = true) {pid : AgentPid}
    (hnobody : s.activeWorkers.lookup pid = none) (monitorRef : MonitorRef)
    (reason : Reason) :
    b.handleMessage s (.system (.down monitorRef pid reason)) = b.nextOrFinalize
      (b.persistCheckpoint { s with workerMonitors := s.workerMonitors.erase pid }) := by
  unfold handleMessage
  rw [poll_of_settled hsettled]
  dsimp only
  unfold handleDown
  rw [releaseWorker_of_none hnobody]

theorem handleExit_of_none {pid : AgentPid} (hnobody : s.activeWorkers.lookup pid = none)
    (reason : Reason) :
    b.handleExit s pid reason = b.nextOrFinalize (b.persistCheckpoint s) := by
  unfold handleExit
  rw [releaseWorker_of_none hnobody]

/-- An answer that nobody waits for. -/
theorem handleMessage_spawnResult (hsettled : b.settled s = true)
    (hnobody : s.pendingSpawnTasks = []) (childPid : AgentPid)
    (monitorRef : Option MonitorRef) :
    b.handleMessage s (.system (.spawnResult childPid monitorRef)) =
      b.nextOrFinalize (s.log (.spawnAnswered childPid)) := by
  unfold handleMessage
  rw [poll_of_settled hsettled]
  dsimp only
  unfold handleSpawnResult
  dsimp only [OrchestratorState.log]
  rw [hnobody]

theorem harmless_alike {op : OrchestratorOp} (h : b.harmless s op = true) :
    b.effect s op = [] ∧ Alike s (b.step s op) := by
  unfold harmless at h
  unfold effect step
  split at h
  · rename_i monitorRef pid reason
    simp only [Bool.and_eq_true, Option.isNone_iff_eq_none] at h
    obtain ⟨hnobody, hsettled⟩ := h
    obtain ⟨haction, hstate⟩ := nextOrFinalize_alike hsettled
      (Alike.trans ⟨s.workerMonitors.erase pid, _, _, rfl⟩ (alike_persistCheckpoint b _))
    dsimp only
    rw [handleMessage_down hsettled hnobody, haction]
    exact ⟨rfl, hstate⟩
  · rename_i childPid monitorRef
    simp only [Bool.and_eq_true, List.isEmpty_iff] at h
    obtain ⟨hnobody, hsettled⟩ := h
    have hlogged : Alike s (s.log (.spawnAnswered childPid)) := ⟨_, _, _, rfl⟩
    obtain ⟨haction, hstate⟩ := nextOrFinalize_alike hsettled hlogged
    dsimp only
    rw [handleMessage_spawnResult hsettled hnobody, haction]
    exact ⟨rfl, hstate⟩
  · rename_i pid reason
    simp only [Bool.and_eq_true, Option.isNone_iff_eq_none] at h
    obtain ⟨hnobody, hsettled⟩ := h
    obtain ⟨haction, hstate⟩ := nextOrFinalize_alike hsettled (alike_persistCheckpoint b s)
    dsimp only
    rw [handleExit_of_none hnobody, haction]
    exact ⟨rfl, hstate⟩
  · contradiction

theorem step_alike (h : Alike s s') (op : OrchestratorOp) :
    b.effect s op = b.effect s' op ∧ Alike (b.step s op) (b.step s' op) := by
  cases op with
  | message msg =>
      obtain ⟨haction, hstate⟩ := h.handleMessage (b := b) msg
      refine ⟨?_, hstate⟩
      unfold effect
      dsimp only
      rw [haction]
  | exit pid reason =>
      obtain ⟨haction, hstate⟩ := h.handleExit (b := b) pid reason
      refine ⟨?_, hstate⟩
      unfold effect
      dsimp only
      rw [haction]
  | approvals op =>
      obtain ⟨_, _, _, rfl⟩ := h
      exact ⟨rfl, _, _, _, rfl⟩
  | pidsDrawn pids =>
      obtain ⟨_, _, _, rfl⟩ := h
      exact ⟨rfl, _, _, _, rfl⟩

/-! ## Runs -/

theorem unwinds (b : OrchestratorBehavior) :
    Unwinds b.stepSent (fun s sent => b.effect s sent.op)
      (fun s sent => sent.stale && b.harmless s sent.op) Alike where
  equivalence := alike_equivalence
  hides := fun h => (harmless_alike (Bool.and_eq_true_iff.mp h).2).2
  answers := fun h _ => (step_alike h _).1
  keeps := fun h _ => (step_alike h _).2

/-- In every run, from any state, so from the arrival of any goal on: as long as each message
of an earlier goal is harmless when it comes, the graph, the results, the retries and all
that the orchestrator does are at any time as they are without these messages. -/
theorem stale_messages_ignored (b : OrchestratorBehavior) (s : OrchestratorState)
    (ops : List SentOp)
    (hharmless : Guarded b.stepSent
      (fun s sent => sent.stale = true → b.harmless s sent.op = true) s ops)
    (pre : List SentOp) (hpre : pre <+: ops) : SameForGoal b s pre (ownOps pre) := by
  have hpurge : purge b.stepSent (fun s sent => sent.stale && b.harmless s sent.op) s pre =
      ownOps pre := by
    apply purge_eq_filter
    intro first sent hfirst
    have hsent := hharmless first sent (hfirst.trans hpre)
    cases hstale : sent.stale with
    | true => simp [hsent hstale]
    | false => rfl
  obtain ⟨heffects, hagree⟩ := (unwinds b).purged
    (fun h => (harmless_alike (Bool.and_eq_true_iff.mp h).2).1) (Alike.refl s) pre
  rw [hpurge] at heffects hagree
  obtain ⟨_, _, _, hlast⟩ := hagree.symm
  refine ⟨?_, ?_, ?_, heffects⟩
  · rw [hlast]
  · rw [hlast]
  · rw [hlast]

/-- A goal whose worker is at work, and then another one. -/
def supersededOps : List OrchestratorOp :=
  [.message (.json goalMessage), decomposedInto [.obj [("task_id", .str "t")]],
    .message (.system (.spawnResult 6 none)), .message (.json goalMessage)]

def superseded : OrchestratorState :=
  (plainWorkers 1 .none).run (idleOrchestration (plainWorkers 1 .none)) supersededOps

/-- The worker of the first goal crashes, and then the second one is decomposed. -/
theorem stale_messages_ignored_crash :
    SameForGoal (plainWorkers 1 .none) superseded
      [⟨.message (.system (.down 1 6 (.custom "crash"))), true⟩,
        ⟨decomposedInto [.obj [("task_id", .str "u")]], false⟩]
      (ownOps [⟨.message (.system (.down 1 6 (.custom "crash"))), true⟩,
        ⟨decomposedInto [.obj [("task_id", .str "u")]], false⟩]) := by
  refine stale_messages_ignored (plainWorkers 1 .none) superseded
    [⟨.message (.system (.down 1 6 (.custom "crash"))), true⟩,
      ⟨decomposedInto [.obj [("task_id", .str "u")]], false⟩] ?_ _ List.prefix_rfl
  refine Guarded.cons (fun _ => ?_) (Guarded.cons (fun hstale => by contradiction) Guarded.nil)
  decide

/-- The result of that worker is counted for the second goal, the decomposition of the first
goal becomes that of the second one, and the worker takes the task that another one is
spawned for. -/
theorem late_messages_count :
    ¬ SameForGoal (plainWorkers 1 .none) superseded
        [⟨.message (.json (.obj [("task_id", .str "t"), ("type", .str "worker_result"),
          ("worker_pid", .ofNat 6)])), true⟩] [] ∧
      ¬ SameForGoal (plainWorkers 1 .none) superseded
        [⟨decomposedInto [.obj [("task_id", .str "t")]], true⟩] [] ∧
      ¬ SameForGoal (plainWorkers 1 .none) superseded
        [⟨decomposedInto [.obj [("task_id", .str "u")]], false⟩,
          ⟨.message (.system (.spawnResult 6 none)), true⟩,
          ⟨.message (.system (.spawnResult 7 none)), false⟩,
          ⟨.message (.system (.down 1 7 (.custom "crash"))), false⟩]
        [⟨decomposedInto [.obj [("task_id", .str "u")]], false⟩,
          ⟨.message (.system (.spawnResult 7 none)), false⟩,
          ⟨.message (.system (.down 1 7 (.custom "crash"))), false⟩] := by
  refine ⟨fun hsame => ?_, fun hsame => ?_, fun hsame => ?_⟩
  · exact absurd hsame.results (by decide)
  · exact absurd (congrArg (fun graph => graph.taskStatus "t") hsame.taskGraph) (by decide)
  · exact absurd (congrArg (fun graph => graph.taskStatus "u") hsame.taskGraph) (by decide)

end Zeptobeam
