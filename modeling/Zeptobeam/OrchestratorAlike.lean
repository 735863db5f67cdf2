/-
What an orchestrator never reads: the monitors of its workers, the calls that it made on the
checkpoint store, and the trace.  States that differ in these only are answered alike.
-/
import Zeptobeam.OrchestratorDispatch

namespace Zeptobeam

open OrchestratorBehavior

/-- The same but for what is never read. -/
def Alike (s s' : OrchestratorState) : Prop :=
  ∃ workerMonitors checkpointCalls trace,
    s' = { s with workerMonitors, checkpointCalls, trace }

namespace Alike

variable {s s' s'' : OrchestratorState}

theorem refl (s : OrchestratorState) : Alike s s :=
  ⟨s.workerMonitors, s.checkpointCalls, s.trace, rfl⟩

theorem symm (h : Alike s s') : Alike s' s := by
  obtain ⟨_, _, _, rfl⟩ := h
  exact ⟨s.workerMonitors, s.checkpointCalls, s.trace, rfl⟩

theorem trans (h : Alike s s') (h' : Alike s' s'') : Alike s s'' := by
  obtain ⟨_, _, _, rfl⟩ := h
  obtain ⟨workerMonitors, checkpointCalls, trace, rfl⟩ := h'
  exact ⟨workerMonitors, checkpointCalls, trace, rfl⟩

theorem log (h : Alike s s') (event : OrchestratorEvent) :
    Alike (s.log event) (s'.log event) := by
  obtain ⟨workerMonitors, checkpointCalls, trace, rfl⟩ := h
  exact ⟨workerMonitors, checkpointCalls, trace ++ [event], rfl⟩

end Alike

theorem alike_equivalence : Equivalence Alike :=
  ⟨Alike.refl, Alike.symm, Alike.trans⟩

/-- The same answer, and states that are alike. -/
def AnswersAlike {R : Type} (x y : R × OrchestratorState) : Prop :=
  x.1 = y.1 ∧ Alike x.2 y.2

variable {b : OrchestratorBehavior} {s s' : OrchestratorState}

theorem alike_persistCheckpoint (b : OrchestratorBehavior) (s : OrchestratorState) :
    Alike s (b.persistCheckpoint s) := by
  obtain ⟨checkpointCalls, hsaved⟩ := b.persistCheckpoint_eq s
  rw [hsaved]
  exact ⟨s.workerMonitors, checkpointCalls, s.trace, rfl⟩

namespace Alike

theorem persistCheckpoint (h : Alike s s') :
    Alike (b.persistCheckpoint s) (b.persistCheckpoint s') :=
  ((alike_persistCheckpoint b s).symm.trans h).trans (alike_persistCheckpoint b s')

theorem clearCheckpoint (h : Alike s s') :
    Alike (b.clearCheckpoint s) (b.clearCheckpoint s') := by
  obtain ⟨workerMonitors, checkpointCalls, trace, rfl⟩ := h
  unfold OrchestratorBehavior.clearCheckpoint
  split
  · exact ⟨_, _, _, rfl⟩
  · exact ⟨_, _, _, rfl⟩

/-! ## Dispatch -/

theorem applyDecisions (h : Alike s s') (decisions : List (String × ApprovalDecision)) :
    Alike (decisions.foldl OrchestratorState.applyDecision s)
      (decisions.foldl OrchestratorState.applyDecision s') := by
  induction decisions generalizing s s' with
  | nil => exact h
  | cons d rest ih =>
      apply ih
      obtain ⟨workerMonitors, checkpointCalls, trace, rfl⟩ := h
      exact ⟨workerMonitors, checkpointCalls, trace ++ [.decided d.1 d.2], rfl⟩

theorem pollApprovalRegistry (h : Alike s s') :
    Alike (b.pollApprovalRegistry s) (b.pollApprovalRegistry s') := by
  obtain ⟨workerMonitors, checkpointCalls, trace, rfl⟩ := h
  unfold OrchestratorBehavior.pollApprovalRegistry
  split
  · exact applyDecisions ⟨workerMonitors, checkpointCalls, trace, rfl⟩ _
  · exact ⟨workerMonitors, checkpointCalls, trace, rfl⟩

theorem parentPid (h : Alike s s') : AnswersAlike s.parentPid s'.parentPid := by
  obtain ⟨workerMonitors, checkpointCalls, trace, rfl⟩ := h
  unfold OrchestratorState.parentPid
  dsimp only
  split
  · exact ⟨rfl, _, _, _, rfl⟩
  · exact ⟨rfl, _, _, _, rfl⟩

theorem spawnWorker (h : Alike s s') (kind : SpawnKind) (task : Json) (taskId : String) :
    AnswersAlike (s.spawnWorker kind task taskId) (s'.spawnWorker kind task taskId) := by
  obtain ⟨hpid, hstate⟩ := h.parentPid
  unfold OrchestratorState.spawnWorker OrchestratorState.spawn
  dsimp only
  rw [hpid]
  exact ⟨rfl, hstate.log _⟩

theorem dispatchTask (h : Alike s s') (task : Json) :
    AnswersAlike (b.dispatchTask s task) (b.dispatchTask s' task) := by
  obtain ⟨workerMonitors, checkpointCalls, trace, rfl⟩ := h
  have hspawned : ∀ {s s' : OrchestratorState} (kind : SpawnKind) (taskId : String),
      Alike s s' →
      AnswersAlike (some ((b.persistCheckpoint s).spawnWorker kind task taskId).1,
          ((b.persistCheckpoint s).spawnWorker kind task taskId).2)
        (some ((b.persistCheckpoint s').spawnWorker kind task taskId).1,
          ((b.persistCheckpoint s').spawnWorker kind task taskId).2) := by
    intro s s' kind taskId h
    obtain ⟨haction, hstate⟩ := spawnWorker (h.persistCheckpoint (b := b)) kind task taskId
    exact ⟨congrArg some haction, hstate⟩
  unfold OrchestratorBehavior.dispatchTask
  dsimp only
  split
  · exact hspawned .unnamed _ ⟨_, _, _, rfl⟩
  · split
    · exact ⟨rfl, _, _, _, rfl⟩
    · split
      · split
        · exact ⟨rfl, _, _, _, rfl⟩
        · exact ⟨rfl, _, _, _, rfl⟩
      · exact hspawned .worker _ ⟨_, _, _, rfl⟩

theorem finalize (h : Alike s s') : AnswersAlike (b.finalize s) (b.finalize s') := by
  have hended : Alike ((b.clearCheckpoint s).log (.finished s.requester))
      ((b.clearCheckpoint s').log (.finished s'.requester)) := by
    obtain ⟨workerMonitors, checkpointCalls, trace, rfl⟩ := h
    exact (clearCheckpoint ⟨_, _, _, rfl⟩).log _
  unfold OrchestratorBehavior.finalize
  dsimp only
  obtain ⟨_, _, _, hsame⟩ := hended
  rw [hsame]
  dsimp only
  split
  · exact ⟨rfl, _, _, _, rfl⟩
  · exact ⟨rfl, _, _, _, rfl⟩

theorem nextFrom (fuel : Nat) (h : Alike s s') :
    AnswersAlike (b.nextFrom fuel s) (b.nextFrom fuel s') := by
  induction fuel generalizing s s' with
  | zero => exact ⟨rfl, h⟩
  | succ fuel ih =>
      unfold OrchestratorBehavior.nextFrom
      have hpolled : Alike (b.pollApprovalRegistry s) (b.pollApprovalRegistry s') :=
        h.pollApprovalRegistry
      generalize b.pollApprovalRegistry s = polled at hpolled
      generalize b.pollApprovalRegistry s' = polled' at hpolled
      have hcan : polled'.canSpawnMore = polled.canSpawnMore := by
        obtain ⟨_, _, _, rfl⟩ := hpolled
        rfl
      have hcomplete : polled'.isComplete = polled.isComplete := by
        obtain ⟨_, _, _, rfl⟩ := hpolled
        rfl
      have hready : polled'.taskGraph.readyTasks = polled.taskGraph.readyTasks := by
        obtain ⟨_, _, _, rfl⟩ := hpolled
        rfl
      dsimp only
      rw [hcan, hcomplete, hready]
      split
      · cases polled.taskGraph.readyTasks with
        | nil => exact ⟨rfl, hpolled⟩
        | cons task rest =>
            obtain ⟨haction, hstate⟩ := hpolled.dispatchTask (b := b) task
            dsimp only
            generalize b.dispatchTask polled task = dispatched at haction hstate
            generalize b.dispatchTask polled' task = dispatched' at haction hstate
            obtain ⟨action, next⟩ := dispatched
            obtain ⟨action', next'⟩ := dispatched'
            obtain rfl : action = action' := haction
            cases action with
            | some action => exact ⟨rfl, hstate⟩
            | none => exact ih hstate
      · split
        · exact hpolled.finalize
        · exact ⟨rfl, hpolled⟩

theorem nextOrFinalize (h : Alike s s') :
    AnswersAlike (b.nextOrFinalize s) (b.nextOrFinalize s') := by
  have hready : s'.taskGraph.readyTasks = s.taskGraph.readyTasks := by
    obtain ⟨_, _, _, rfl⟩ := h
    rfl
  unfold OrchestratorBehavior.nextOrFinalize
  rw [hready]
  exact h.nextFrom _

/-! ## Messages -/

theorem releaseWorker (h : Alike s s') (pid : AgentPid) (reason : Reason) :
    Alike (releaseWorker s pid reason) (releaseWorker s' pid reason) := by
  obtain ⟨workerMonitors, checkpointCalls, trace, rfl⟩ := h
  unfold OrchestratorBehavior.releaseWorker
  dsimp only
  cases s.activeWorkers.lookup pid with
  | none => exact ⟨_, _, _, rfl⟩
  | some taskId =>
      dsimp only
      split
      · exact ⟨_, _, _, rfl⟩
      · cases s.retryTracker.shouldRetry taskId with
        | mk delay retryTracker =>
            cases delay with
            | some _ => exact ⟨_, _, _, rfl⟩
            | none => exact ⟨_, _, _, rfl⟩

theorem handleResult (h : Alike s s') (result : WorkerResult) :
    AnswersAlike (b.handleResult s result) (b.handleResult s' result) := by
  obtain ⟨workerPid, taskId, asJson⟩ := result
  have hended : ∀ {s s' : OrchestratorState}, Alike s s' →
      AnswersAlike (b.handleResult s ⟨workerPid, none, asJson⟩)
        (b.handleResult s' ⟨workerPid, none, asJson⟩) := by
    rintro s s' ⟨workerMonitors, checkpointCalls, trace, rfl⟩
    unfold OrchestratorBehavior.handleResult
    cases workerPid with
    | some workerPid => exact ⟨rfl, persistCheckpoint ⟨_, _, _, rfl⟩⟩
    | none => exact (persistCheckpoint ⟨_, _, _, rfl⟩).nextOrFinalize
  cases taskId with
  | none => exact hended h
  | some id =>
      obtain ⟨workerMonitors, checkpointCalls, trace, rfl⟩ := h
      exact hended (s := { s with
        taskGraph := s.taskGraph.markCompleted id
        inflightTasks := s.inflightTasks.erase id }) ⟨_, _, _, rfl⟩

theorem handleProgress (h : Alike s s') (payload : Json) :
    AnswersAlike (handleProgress s payload) (handleProgress s' payload) := by
  obtain ⟨workerMonitors, checkpointCalls, trace, rfl⟩ := h
  unfold OrchestratorBehavior.handleProgress
  dsimp only
  cases s.requester with
  | some requester => exact ⟨rfl, _, _, _, rfl⟩
  | none => exact ⟨rfl, _, _, _, rfl⟩

theorem handleGoal (h : Alike s s') (payload : Json) :
    AnswersAlike (b.handleGoal s payload) (b.handleGoal s' payload) := by
  obtain ⟨workerMonitors, checkpointCalls, trace, rfl⟩ := h
  unfold OrchestratorBehavior.handleGoal
  have hresumes : resumes { s with workerMonitors, checkpointCalls, trace } payload =
      resumes s payload := rfl
  rw [hresumes]
  split
  · exact (persistCheckpoint ⟨_, _, _, rfl⟩).nextOrFinalize
  · exact ⟨rfl, persistCheckpoint ⟨_, _, _, rfl⟩⟩

theorem handleJson (h : Alike s s') (payload : Json) :
    AnswersAlike (b.handleJson s payload) (b.handleJson s' payload) := by
  unfold OrchestratorBehavior.handleJson
  split
  · exact h.handleProgress payload
  · cases parseWorkerResult payload with
    | some result => exact h.handleResult result
    | none => exact h.handleGoal payload

theorem handleIoResponse (h : Alike s s') (result : IoResult) :
    AnswersAlike (b.handleIoResponse s result) (b.handleIoResponse s' result) := by
  obtain ⟨workerMonitors, checkpointCalls, trace, rfl⟩ := h
  unfold OrchestratorBehavior.handleIoResponse
  dsimp only
  cases s.taskGraph.addTasks (extractTasks s.goal result) with
  | mk answer taskGraph =>
      cases answer with
      | error text => exact ⟨rfl, _, _, _, rfl⟩
      | ok => exact (persistCheckpoint ⟨_, _, _, rfl⟩).nextOrFinalize

theorem handleSpawnResult (h : Alike s s') (childPid : AgentPid)
    (monitorRef : Option MonitorRef) :
    AnswersAlike (b.handleSpawnResult s childPid monitorRef)
      (b.handleSpawnResult s' childPid monitorRef) := by
  obtain ⟨workerMonitors, checkpointCalls, trace, rfl⟩ := h
  unfold OrchestratorBehavior.handleSpawnResult
  dsimp only [OrchestratorState.log]
  cases s.pendingSpawnTasks with
  | nil => exact nextOrFinalize ⟨_, _, _, rfl⟩
  | cons task rest => exact ⟨rfl, persistCheckpoint ⟨_, _, _, rfl⟩⟩

theorem handleDown (h : Alike s s') (pid : AgentPid) (reason : Reason) :
    AnswersAlike (b.handleDown s pid reason) (b.handleDown s' pid reason) := by
  unfold OrchestratorBehavior.handleDown
  obtain ⟨_, _, _, hreleased⟩ := h.releaseWorker pid reason
  rw [hreleased]
  exact (persistCheckpoint ⟨_, _, _, rfl⟩).nextOrFinalize

theorem handleMessage (h : Alike s s') (msg : Message) :
    AnswersAlike (b.handleMessage s msg) (b.handleMessage s' msg) := by
  have hpolled : Alike (b.pollApprovalRegistry s) (b.pollApprovalRegistry s') :=
    h.pollApprovalRegistry
  unfold OrchestratorBehavior.handleMessage
  dsimp only
  split
  · exact hpolled.handleJson _
  · exact hpolled.handleIoResponse _
  · exact hpolled.handleSpawnResult _ _
  · exact hpolled.handleDown _ _
  · exact ⟨rfl, hpolled⟩

theorem handleExit (h : Alike s s') (pid : AgentPid) (reason : Reason) :
    AnswersAlike (b.handleExit s pid reason) (b.handleExit s' pid reason) :=
  ((h.releaseWorker pid reason).persistCheckpoint).nextOrFinalize

end Alike

end Zeptobeam
