/-
Every step of an orchestrator, in three parts: it polls the approval registry, or does not;
it takes in what the step brings; and it dispatches.
-/
import Zeptobeam.OrchestratorMoves

namespace Zeptobeam

open OrchestratorBehavior

/-- The process whose end a step reports. -/
def reportsEnd : OrchestratorOp → Option (AgentPid × Reason)
  | .message (.system (.down _ pid reason)) => some (pid, reason)
  | .exit pid reason => some (pid, reason)
  | _ => none

/-- The end of a process, with everything that changes by it: it had no task, or it ended
normally, or its task is tried again or fails. -/
inductive Released (s : OrchestratorState) (pid : AgentPid) (reason : Reason) :
    OrchestratorState → Prop where
  | nobody (hnone : s.activeWorkers.lookup pid = none) : Released s pid reason s
  | normal (id : String) (hworker : s.activeWorkers.lookup pid = some id)
      (hreason : reason = .normal) :
      Released s pid reason { s with
        activeWorkers := s.activeWorkers.erase pid
        inflightTasks := s.inflightTasks.erase id }
  | retried (id : String) (retryTracker : RetryTracker)
      (hworker : s.activeWorkers.lookup pid = some id) (hreason : reason ≠ .normal) :
      Released s pid reason ({ s with
        activeWorkers := s.activeWorkers.erase pid
        inflightTasks := s.inflightTasks.erase id
        retryTracker
        taskGraph := s.taskGraph.setStatus id .ready }.log (.retryGranted id))
  | failed (id : String) (retryTracker : RetryTracker) (result : Json)
      (hworker : s.activeWorkers.lookup pid = some id) (hreason : reason ≠ .normal) :
      Released s pid reason { s with
        activeWorkers := s.activeWorkers.erase pid
        inflightTasks := s.inflightTasks.erase id
        retryTracker
        taskGraph := (s.taskGraph.markFailed id).failDependents id
        results := s.results ++ [result] }

/-- What a step does by itself, with everything that changes by it. -/
inductive Intake (s : OrchestratorState) : OrchestratorOp → OrchestratorState → Prop where
  | aside (op : OrchestratorOp) (partialResults : AList fun _ : String => List Json)
      (approvals : ApprovalRegistry) (nextPid : AgentPid) :
      Intake s op { s with partialResults, approvals, nextPid }
  | result (payload : Json) (result : WorkerResult)
      (hresult : parseWorkerResult payload = some result)
      (checkpointCalls : List CheckpointCall) :
      Intake s (.message (.json payload)) { s with
        taskGraph := result.taskId.elim s.taskGraph s.taskGraph.markCompleted
        inflightTasks := result.taskId.elim s.inflightTasks fun id => s.inflightTasks.erase id
        results := s.results ++ [result.asJson]
        checkpointCalls }
  | goal (payload : Json) (hstarts : startsGoal s payload = true)
      (checkpointCalls : List CheckpointCall) :
      Intake s (.message (.json payload)) { s.resetFor (incomingGoal payload) payload with
        checkpointCalls }
  | resume (payload : Json) (hresumes : resumes s payload = true)
      (requester selfPid : Option AgentPid) (checkpointCalls : List CheckpointCall) :
      Intake s (.message (.json payload)) { s with
        requester, selfPid
        resumedFromCheckpoint := false
        checkpointCalls }
  | tasks (correlationId : Nat) (result : IoResult) (failures : List Json)
      (checkpointCalls : List CheckpointCall) :
      Intake s (.message (.system (.ioResponse correlationId result))) { s with
        awaitingDecomposition := false
        decompositionDone := true
        taskGraph := (s.taskGraph.addTasks (extractTasks s.goal result)).2
        results := s.results ++ failures
        checkpointCalls }
  | answerNobody (childPid : AgentPid) (monitorRef : Option MonitorRef)
      (hnone : s.pendingSpawnTasks = []) :
      Intake s (.message (.system (.spawnResult childPid monitorRef)))
        (s.log (.spawnAnswered childPid))
  | answer (childPid : AgentPid) (monitorRef : Option MonitorRef) (task : Json)
      (rest : List Json) (hpending : s.pendingSpawnTasks = task :: rest)
      (workerMonitors : AList fun _ : AgentPid => MonitorRef)
      (checkpointCalls : List CheckpointCall) :
      Intake s (.message (.system (.spawnResult childPid monitorRef))) ({ s with
        pendingSpawnTasks := rest
        activeWorkers := s.activeWorkers.insert childPid
          (extractTaskId task s!"task-{childPid}")
        inflightTasks := s.inflightTasks.insert
          (extractTaskId task s!"task-{childPid}") task
        workerMonitors, checkpointCalls }.log (.spawnAnswered childPid))
  | gone (op : OrchestratorOp) (pid : AgentPid) (reason : Reason)
      (hreports : reportsEnd op = some (pid, reason)) (released : OrchestratorState)
      (hreleased : Released s pid reason released)
      (workerMonitors : AList fun _ : AgentPid => MonitorRef)
      (checkpointCalls : List CheckpointCall) :
      Intake s op { released with workerMonitors, checkpointCalls }

namespace OrchestratorBehavior

variable (b : OrchestratorBehavior)

/-- A state that takes something in, keeps a checkpoint of it, and dispatches. -/
theorem dispatches_persisted (s : OrchestratorState) :
    ∃ checkpointCalls, Dispatches b { s with checkpointCalls }
      (b.nextOrFinalize (b.persistCheckpoint s)).2 := by
  obtain ⟨checkpointCalls, hsaved⟩ := b.persistCheckpoint_eq s
  rw [hsaved]
  exact ⟨checkpointCalls, b.nextOrFinalize_dispatches _⟩

theorem handleProgress_eq (s : OrchestratorState) (payload : Json) :
    ∃ partialResults, (handleProgress s payload).2 = { s with partialResults } := by
  unfold handleProgress
  dsimp only
  split
  · exact ⟨_, rfl⟩
  · exact ⟨_, rfl⟩

theorem handleJson_intake (s : OrchestratorState) (payload : Json) :
    ∃ s', Intake s (.message (.json payload)) s' ∧ Dispatches b s' (b.handleJson s payload).2 := by
  unfold handleJson
  split
  · obtain ⟨partialResults, hprogress⟩ := handleProgress_eq s payload
    rw [hprogress]
    exact ⟨_, .aside _ partialResults s.approvals s.nextPid, .refl⟩
  · rename_i hprogress
    split
    · rename_i result hresult
      obtain ⟨workerPid, taskId, asJson⟩ := result
      have hended : ∀ completed : OrchestratorState, ∃ checkpointCalls, Dispatches b
          { completed with results := completed.results ++ [asJson], checkpointCalls }
          (b.handleResult completed ⟨workerPid, none, asJson⟩).2 := by
        intro completed
        unfold handleResult
        dsimp only
        split
        · obtain ⟨checkpointCalls, hsaved⟩ := b.persistCheckpoint_eq { completed with
            results := completed.results ++ [asJson] }
          rw [hsaved]
          exact ⟨checkpointCalls, .refl⟩
        · exact b.dispatches_persisted { completed with
            results := completed.results ++ [asJson] }
      cases taskId with
      | none =>
          obtain ⟨checkpointCalls, hdispatches⟩ := hended s
          exact ⟨_, .result payload _ hresult checkpointCalls, hdispatches⟩
      | some id =>
          obtain ⟨checkpointCalls, hdispatches⟩ := hended { s with
            taskGraph := s.taskGraph.markCompleted id
            inflightTasks := s.inflightTasks.erase id }
          exact ⟨_, .result payload _ hresult checkpointCalls, hdispatches⟩
    · rename_i hresult
      unfold handleGoal
      split
      · rename_i hresumes
        obtain ⟨checkpointCalls, hdispatches⟩ := b.dispatches_persisted { s with
          requester := (parsePid (payload.get? "requester_pid")).or s.requester
          selfPid := (parsePid (payload.get? "self_pid")).or s.selfPid
          resumedFromCheckpoint := false }
        exact ⟨_, .resume payload hresumes _ _ checkpointCalls, hdispatches⟩
      · rename_i hresumes
        have hstarts : startsGoal s payload = true := by
          simp [startsGoal, hprogress, hresult, hresumes]
        obtain ⟨checkpointCalls, hsaved⟩ :=
          b.persistCheckpoint_eq (s.resetFor (incomingGoal payload) payload)
        refine ⟨_, .goal payload hstarts checkpointCalls, ?_⟩
        dsimp only
        rw [hsaved]
        exact .refl

theorem handleIoResponse_intake (s : OrchestratorState) (correlationId : Nat)
    (result : IoResult) :
    ∃ s', Intake s (.message (.system (.ioResponse correlationId result))) s' ∧
      Dispatches b s' (b.handleIoResponse s result).2 := by
  have htasks := Intake.tasks (s := s) correlationId result
  unfold handleIoResponse
  dsimp only
  cases hadded : s.taskGraph.addTasks (extractTasks s.goal result) with
  | mk answer taskGraph =>
      rw [hadded] at htasks
      cases answer with
      | error text =>
          exact ⟨_, htasks [.obj [("error", .str s!"cycle detected: {text}")]]
            s.checkpointCalls, .refl⟩
      | ok =>
          obtain ⟨checkpointCalls, hdispatches⟩ := b.dispatches_persisted { s with
            awaitingDecomposition := false
            decompositionDone := true
            taskGraph }
          refine ⟨_, htasks [] checkpointCalls, ?_⟩
          rw [List.append_nil]
          exact hdispatches

theorem handleSpawnResult_intake (s : OrchestratorState) (childPid : AgentPid)
    (monitorRef : Option MonitorRef) :
    ∃ s', Intake s (.message (.system (.spawnResult childPid monitorRef))) s' ∧
      Dispatches b s' (b.handleSpawnResult s childPid monitorRef).2 := by
  unfold handleSpawnResult
  dsimp only [OrchestratorState.log]
  split
  · rename_i hpending
    exact ⟨_, .answerNobody childPid monitorRef hpending, b.nextOrFinalize_dispatches _⟩
  · rename_i task rest hpending
    have hanswered : ∀ workerMonitors : AList fun _ : AgentPid => MonitorRef, ∃ s',
        Intake s (.message (.system (.spawnResult childPid monitorRef))) s' ∧
        Dispatches b s' (b.persistCheckpoint { s with
          pendingSpawnTasks := rest
          activeWorkers := s.activeWorkers.insert childPid
            (extractTaskId task s!"task-{childPid}")
          inflightTasks := s.inflightTasks.insert
            (extractTaskId task s!"task-{childPid}") task
          workerMonitors
          trace := s.trace ++ [.spawnAnswered childPid] }) := by
      intro workerMonitors
      have htaken := Intake.answer (s := s) childPid monitorRef task rest hpending
        workerMonitors
      obtain ⟨checkpointCalls, hsaved⟩ := b.persistCheckpoint_eq { s with
        pendingSpawnTasks := rest
        activeWorkers := s.activeWorkers.insert childPid
          (extractTaskId task s!"task-{childPid}")
        inflightTasks := s.inflightTasks.insert
          (extractTaskId task s!"task-{childPid}") task
        workerMonitors
        trace := s.trace ++ [.spawnAnswered childPid] }
      rw [hsaved]
      exact ⟨_, htaken checkpointCalls, .refl⟩
    cases monitorRef with
    | none => exact hanswered s.workerMonitors
    | some monitorRef => exact hanswered (s.workerMonitors.insert childPid monitorRef)

theorem releaseWorker_released (s : OrchestratorState) (pid : AgentPid) (reason : Reason) :
    Released s pid reason (releaseWorker s pid reason) := by
  unfold releaseWorker
  split
  · rename_i hnone
    exact .nobody hnone
  · rename_i id hworker
    dsimp only
    split
    · rename_i hnormal
      exact .normal id hworker hnormal
    · rename_i habnormal
      split
      · exact .retried id _ hworker habnormal
      · exact .failed id _ _ hworker habnormal

theorem step_intake (s : OrchestratorState) (op : OrchestratorOp) :
    ∃ polled taken, Polled s polled ∧ Intake polled op taken ∧
      Dispatches b taken (b.step s op) := by
  cases op with
  | message msg =>
      refine ⟨b.pollApprovalRegistry s, ?_⟩
      have hpolled := b.pollApprovalRegistry_polled s
      unfold step handleMessage
      generalize b.pollApprovalRegistry s = polled at hpolled
      dsimp only
      split
      · rename_i payload
        obtain ⟨taken, htaken, hdispatches⟩ := b.handleJson_intake polled payload
        exact ⟨taken, hpolled, htaken, hdispatches⟩
      · rename_i correlationId result
        obtain ⟨taken, htaken, hdispatches⟩ :=
          b.handleIoResponse_intake polled correlationId result
        exact ⟨taken, hpolled, htaken, hdispatches⟩
      · rename_i childPid monitorRef
        obtain ⟨taken, htaken, hdispatches⟩ :=
          b.handleSpawnResult_intake polled childPid monitorRef
        exact ⟨taken, hpolled, htaken, hdispatches⟩
      · rename_i monitorRef pid reason
        obtain ⟨checkpointCalls, hdispatches⟩ := b.dispatches_persisted
          { releaseWorker polled pid reason with
            workerMonitors := polled.workerMonitors.erase pid }
        exact ⟨_, hpolled, .gone _ pid reason rfl _ (releaseWorker_released polled pid reason) _
          checkpointCalls, hdispatches⟩
      · exact ⟨_, hpolled, .aside _ polled.partialResults polled.approvals polled.nextPid, .refl⟩
  | exit pid reason =>
      obtain ⟨checkpointCalls, hdispatches⟩ := b.dispatches_persisted (releaseWorker s pid reason)
      exact ⟨s, _, .refl s, .gone _ pid reason rfl _ (releaseWorker_released s pid reason) _
        checkpointCalls, hdispatches⟩
  | approvals op =>
      exact ⟨s, _, .refl s, .aside _ s.partialResults (op.perform s.approvals) s.nextPid, .refl⟩
  | pidsDrawn pids =>
      exact ⟨s, _, .refl s, .aside _ s.partialResults s.approvals (s.nextPid + pids), .refl⟩

/-- What dispatching keeps, and what a step takes in keeps, is kept by every step. -/
theorem step_keeps_of_intake (Inv : OrchestratorState → Prop)
    (hdispatch : ∀ {s s'}, DispatchMove b s s' → Inv s → Inv s')
    (hfinish : ∀ {s s'}, Finishes b s s' → Inv s → Inv s')
    {s : OrchestratorState} {op : OrchestratorOp}
    (hintake : ∀ {polled taken}, Polled s polled → Intake polled op taken → Inv polled →
      Inv taken) (hs : Inv s) : Inv (b.step s op) := by
  obtain ⟨polled, taken, hpolled, htaken, hdispatches⟩ := b.step_intake s op
  have hbefore : Inv polled := hdispatch (.poll hpolled) hs
  exact Dispatches.keeps Inv hdispatch hfinish hdispatches (hintake hpolled htaken hbefore)

end OrchestratorBehavior

end Zeptobeam
