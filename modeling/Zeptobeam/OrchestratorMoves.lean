/-
What an orchestrator can do, once: each message it handles is a sequence of moves, so that
a property that every move keeps is kept by every message.
-/
import Zeptobeam.OrchestratorDispatch

namespace Zeptobeam

/-- The moves: a new goal, a decomposition and the answer to a Spawn apart.  Only a task
that is touched, by its result or by the end of its worker, is completed or tried again. -/
inductive OrchestratorMove (b : OrchestratorBehavior) (touched : String → Prop) :
    OrchestratorState → OrchestratorState → Prop where
  | aside {s s' : OrchestratorState} (hgraph : s'.taskGraph = s.taskGraph)
      (hpending : s'.pendingSpawnTasks = s.pendingSpawnTasks)
      (hworkers : s'.activeWorkers = s.activeWorkers) (htrace : s'.trace = s.trace) :
      OrchestratorMove b touched s s'
  | close {s s' : OrchestratorState} (decisions : List (String × ApprovalDecision))
      (hgraph : s.taskGraph.Closes s'.taskGraph)
      (hpending : s'.pendingSpawnTasks = s.pendingSpawnTasks)
      (hworkers : s'.activeWorkers = s.activeWorkers)
      (htrace : s'.trace = s.trace ++ decisions.map fun d => .decided d.1 d.2) :
      OrchestratorMove b touched s s'
  | complete (s : OrchestratorState) (id : String) (htouched : touched id) :
      OrchestratorMove b touched s { s with taskGraph := s.taskGraph.markCompleted id }
  | release (s : OrchestratorState) (pid : AgentPid) :
      OrchestratorMove b touched s { s with activeWorkers := s.activeWorkers.erase pid }
  | retry (s : OrchestratorState) (id : String) (htouched : touched id) :
      OrchestratorMove b touched s ({ s with taskGraph := s.taskGraph.setStatus id .ready }.log
        (.retryGranted id))
  | gate (s : OrchestratorState) (id : String) (node : TaskNode) (hid : id ≠ "")
      (hrequires : (taskRequiresApproval node.task && b.approvalRegistry) = true)
      (hnode : s.taskGraph.lookup id = some node) (hready : node.status = .ready) :
      OrchestratorMove b touched s { s with taskGraph := s.taskGraph.setStatus id .awaitingApproval }
  | spawnUnnamed (s : OrchestratorState) (node : TaskNode)
      (hroom : s.canSpawnMore b.maxConcurrency)
      (hnode : s.taskGraph.lookup "" = some node) (hready : node.status = .ready) :
      OrchestratorMove b touched s ({ s with
        pendingSpawnTasks := s.pendingSpawnTasks ++ [node.task] }.log
        (.spawned .unnamed node.task))
  | spawnSub (s : OrchestratorState) (id : String) (node : TaskNode) (hid : id ≠ "")
      (hfree : (taskRequiresApproval node.task && b.approvalRegistry) = false)
      (hsub : typeOf node.task = some "sub_orchestration")
      (hdepth : b.currentDepth < b.maxDepth)
      (hroom : s.canSpawnMore b.maxConcurrency)
      (hnode : s.taskGraph.lookup id = some node) (hready : node.status = .ready) :
      OrchestratorMove b touched s (s.log (.spawned .subOrchestration node.task))
  | spawnWorker (s : OrchestratorState) (id : String) (node : TaskNode) (hid : id ≠ "")
      (hfree : (taskRequiresApproval node.task && b.approvalRegistry) = false)
      (hroom : s.canSpawnMore b.maxConcurrency)
      (hnode : s.taskGraph.lookup id = some node) (hready : node.status = .ready) :
      OrchestratorMove b touched s ({ s with
        taskGraph := s.taskGraph.markRunning id
        pendingSpawnTasks := s.pendingSpawnTasks ++ [node.task] }.log
        (.spawned .worker node.task))
  | finish (s : OrchestratorState) (requester : Option AgentPid) :
      OrchestratorMove b touched s (s.log (.finished requester))

/-- No move changes what there is to do. -/
theorem OrchestratorMove.sameTasks {b : OrchestratorBehavior} {touched : String → Prop}
    {s s' : OrchestratorState} (h : OrchestratorMove b touched s s') :
    s.taskGraph.SameTasks s'.taskGraph := by
  cases h with
  | aside hgraph => exact hgraph ▸ .refl _
  | close _ hgraph => exact hgraph.sameTasks
  | complete id => exact TaskGraph.sameTasks_markCompleted _ id
  | retry id => exact TaskGraph.sameTasks_setStatus _ id _
  | gate id => exact TaskGraph.sameTasks_setStatus _ id _
  | spawnWorker id => exact TaskGraph.sameTasks_setStatus _ id _
  | release | spawnUnnamed | spawnSub | finish => exact .refl _

/-- A sequence of moves. -/
abbrev OrchestratorMoves (b : OrchestratorBehavior) (touched : String → Prop) :
    OrchestratorState → OrchestratorState → Prop :=
  Relation.ReflTransGen (OrchestratorMove b touched)

namespace OrchestratorMoves

variable {b : OrchestratorBehavior} {touched : String → Prop} {s s' : OrchestratorState}

theorem aside (hgraph : s'.taskGraph = s.taskGraph)
    (hpending : s'.pendingSpawnTasks = s.pendingSpawnTasks)
    (hworkers : s'.activeWorkers = s.activeWorkers) (htrace : s'.trace = s.trace) :
    OrchestratorMoves b touched s s' :=
  .single (.aside hgraph hpending hworkers htrace)

/-- What every move keeps is kept by all of them. -/
theorem keeps (Inv : OrchestratorState → Prop)
    (hmove : ∀ {s s'}, OrchestratorMove b touched s s' → Inv s → Inv s')
    (h : OrchestratorMoves b touched s s') (hs : Inv s) : Inv s' := by
  induction h with
  | refl => exact hs
  | tail _ hlast ih => exact hmove hlast ih

end OrchestratorMoves

namespace OrchestratorBehavior

variable (b : OrchestratorBehavior) {touched : String → Prop}

theorem persistCheckpoint_moves {s s' : OrchestratorState} (h : OrchestratorMoves b touched s s') :
    OrchestratorMoves b touched s (b.persistCheckpoint s') := by
  obtain ⟨checkpointCalls, hsaved⟩ := b.persistCheckpoint_eq s'
  rw [hsaved]
  exact h.tail (.aside rfl rfl rfl rfl)

/-! ## Dispatching -/

/-- A decision for a task that was ready fails it, or makes it ready again. -/
theorem applyDecision_closes {graph : TaskGraph} {s : OrchestratorState}
    {d : String × ApprovalDecision} (h : graph.Closes s.taskGraph)
    (hready : ∃ node, graph.lookup d.1 = some node ∧ node.status = .ready) :
    graph.Closes (s.applyDecision d).taskGraph := by
  obtain ⟨id, decision⟩ := d
  cases decision with
  | rejected reason =>
      exact h.trans ((TaskGraph.closes_markFailed _ _).trans
        (TaskGraph.closes_failDependents _ _))
  | approved =>
      obtain ⟨node, hnode, hstatus⟩ := hready
      have happroved : (s.applyDecision (id, .approved)).taskGraph =
          s.taskGraph.setStatus id .ready := rfl
      rw [happroved]
      refine ⟨fun q => ?_, ?_⟩
      · rw [TaskGraph.lookup_setStatus]
        split
        · rename_i hq
          subst hq
          left
          have hback : ({ node with status := .ready } : TaskNode) = node := by
            rw [← hstatus]
          rcases h.lookup q with hsame | ⟨status, _, hclosed⟩
          · rw [hsame, hnode, Option.map_some, hback]
          · rw [hclosed, hnode, Option.map_some, Option.map_some]
            exact congrArg some hback
        · exact h.lookup q
      · exact (TaskGraph.insertionOrder_setStatus _ _ _).trans h.insertionOrder

theorem applyDecisions_close {graph : TaskGraph}
    {decisions : List (String × ApprovalDecision)} {s : OrchestratorState}
    (h : graph.Closes s.taskGraph)
    (hready : ∀ d ∈ decisions, ∃ node, graph.lookup d.1 = some node ∧ node.status = .ready) :
    graph.Closes (decisions.foldl OrchestratorState.applyDecision s).taskGraph := by
  induction decisions generalizing s with
  | nil => exact h
  | cons d rest ih =>
      apply ih (applyDecision_closes h (hready d List.mem_cons_self))
      exact fun other hother => hready other (List.mem_cons_of_mem d hother)

/-- A poll closes tasks, and nothing else becomes of it. -/
theorem polled_eq {s s' : OrchestratorState} (h : Polled s s') :
    ∃ (taskGraph : TaskGraph) (approvals : ApprovalRegistry)
      (decisions : List (String × ApprovalDecision)), s.taskGraph.Closes taskGraph ∧
        s' = { s with
          taskGraph, approvals
          trace := s.trace ++ decisions.map fun d => .decided d.1 d.2 } := by
  obtain ⟨decisions, approvals, hready, _, rfl⟩ := h
  have hclosed := applyDecisions_close (s := { s with approvals }) (.refl s.taskGraph) hready
  exact ⟨_, approvals, decisions, hclosed, applyDecisions_eq decisions _⟩

theorem polled_closes {s s' : OrchestratorState} (h : Polled s s') :
    ∃ decisions : List (String × ApprovalDecision),
      s.taskGraph.Closes s'.taskGraph ∧ s'.pendingSpawnTasks = s.pendingSpawnTasks ∧
      s'.activeWorkers = s.activeWorkers ∧
      s'.trace = s.trace ++ decisions.map fun d => .decided d.1 d.2 := by
  obtain ⟨_, _, decisions, hclosed, rfl⟩ := polled_eq h
  exact ⟨decisions, hclosed, rfl, rfl, rfl⟩

/-- Each thing that dispatching does is a move. -/
theorem dispatch_move {s s' : OrchestratorState} (h : DispatchMove b s s') :
    OrchestratorMoves b touched s s' := by
  have haside : ∀ {s s' : OrchestratorState} (checkpointCalls : List CheckpointCall)
      (nextPid : AgentPid), OrchestratorMove b touched s s' →
      OrchestratorMoves b touched s { s' with checkpointCalls, nextPid } :=
    fun _ _ hmove => .tail (.single hmove) (.aside rfl rfl rfl rfl)
  cases h with
  | poll hpolled =>
      obtain ⟨decisions, hgraph, hpending, hworkers, htrace⟩ := polled_closes hpolled
      exact .single (.close decisions hgraph hpending hworkers htrace)
  | gate id node approvals hid hrequires hnode hready =>
      exact .tail (.single (.gate s id node hid hrequires hnode hready)) (.aside rfl rfl rfl rfl)
  | tooDeep id node result _ _ =>
      exact .single (.close [] (TaskGraph.closes_markFailed _ _) rfl rfl
        (List.append_nil _).symm)
  | spawnUnnamed node checkpointCalls nextPid hroom hnode hready =>
      exact haside checkpointCalls nextPid (.spawnUnnamed s node hroom hnode hready)
  | spawnSub id node hid hfree hsub hdepth hroom hnode hready =>
      exact .single (.spawnSub s id node hid hfree hsub hdepth hroom hnode hready)
  | spawnWorker id node checkpointCalls nextPid hid hfree hroom hnode hready =>
      exact haside checkpointCalls nextPid
        (.spawnWorker s id node hid hfree hroom hnode hready)

theorem finishes_move {s s' : OrchestratorState} (h : Finishes b s s') :
    OrchestratorMoves b touched s s' := by
  obtain ⟨checkpointCalls⟩ := h
  exact .tail (.single (.finish s s.requester)) (.aside rfl rfl rfl rfl)

theorem nextOrFinalize_moves {s s' : OrchestratorState} (h : OrchestratorMoves b touched s s') :
    OrchestratorMoves b touched s (b.nextOrFinalize s').2 := by
  exact Dispatches.keeps (OrchestratorMoves b touched s)
    (fun hmove h => h.trans (b.dispatch_move hmove))
    (fun hend h => h.trans (b.finishes_move hend)) (b.nextOrFinalize_dispatches s') h

theorem pollApprovalRegistry_closes (s : OrchestratorState) :
    ∃ decisions : List (String × ApprovalDecision),
      s.taskGraph.Closes (b.pollApprovalRegistry s).taskGraph ∧
      (b.pollApprovalRegistry s).pendingSpawnTasks = s.pendingSpawnTasks ∧
      (b.pollApprovalRegistry s).activeWorkers = s.activeWorkers ∧
      (b.pollApprovalRegistry s).trace =
        s.trace ++ decisions.map fun d => .decided d.1 d.2 :=
  polled_closes (b.pollApprovalRegistry_polled s)

theorem pollApprovalRegistry_move (s : OrchestratorState) :
    OrchestratorMove b touched s (b.pollApprovalRegistry s) := by
  obtain ⟨decisions, hgraph, hpending, hworkers, htrace⟩ := b.pollApprovalRegistry_closes s
  exact .close decisions hgraph hpending hworkers htrace

/-! ## The recursion ends -/

theorem filterMap_sublist {α β : Type} {f g : α → Option β} (h : ∀ a, g a = f a ∨ g a = none)
    (items : List α) : (items.filterMap g).Sublist (items.filterMap f) := by
  induction items with
  | nil => exact .refl _
  | cons item rest ih =>
      cases hf : f item with
      | none =>
          have hg : g item = none := (h item).elim (fun heq => heq.trans hf) id
          rwa [List.filterMap_cons_none hf, List.filterMap_cons_none hg]
      | some value =>
          rw [List.filterMap_cons_some hf]
          rcases h item with hg | hg
          · rw [List.filterMap_cons_some (hg.trans hf)]
            exact ih.cons_cons value
          · rw [List.filterMap_cons_none hg]
            exact ih.cons value

theorem readyTasks_closes {graph graph' : TaskGraph} (h : graph.Closes graph') :
    graph'.readyTasks.Sublist graph.readyTasks := by
  unfold TaskGraph.readyTasks
  rw [h.insertionOrder]
  apply filterMap_sublist
  intro id
  rcases h.lookup id with hsame | ⟨status, hclosed, hlookup⟩
  · rw [hsame]
    exact .inl rfl
  · right
    rw [hlookup, Option.bind_map]
    apply Option.bind_eq_none_iff.mpr
    intro node _
    rcases hclosed with rfl | rfl
    · rfl
    · rfl

/-- A task beyond the depth limit is ready no more. -/
theorem dispatchTask_none {s s' : OrchestratorState} {task : Json}
    (htask : task ∈ s.taskGraph.readyTasks) (h : b.dispatchTask s task = (none, s')) :
    s'.taskGraph.readyTasks.length < s.taskGraph.readyTasks.length := by
  obtain ⟨id, node, hid, hnode, _, _⟩ := TaskGraph.mem_readyTasks htask
  have hgraph : s'.taskGraph = s.taskGraph.markFailed id := by
    unfold dispatchTask at h
    rw [hid, Option.getD_some] at h
    dsimp only at h
    split at h
    · simp at h
    · split at h
      · simp at h
      · split at h
        · split at h
          · obtain ⟨_, rfl⟩ := Prod.mk.inj h
            rfl
          · simp at h
        · simp at h
  have hsub := readyTasks_closes (TaskGraph.closes_markFailed s.taskGraph id)
  rw [hgraph]
  apply Nat.lt_of_le_of_ne hsub.length_le
  intro hlength
  rw [← hsub.eq_of_length hlength] at htask
  obtain ⟨other, failed, hother, hfailed, hready, _⟩ := TaskGraph.mem_readyTasks htask
  cases hid.symm.trans hother
  rw [TaskGraph.markFailed, TaskGraph.lookup_setStatus, if_pos rfl, hnode] at hfailed
  cases hfailed
  contradiction

theorem readyTasks_poll (s : OrchestratorState) :
    (b.pollApprovalRegistry s).taskGraph.readyTasks.length ≤
      s.taskGraph.readyTasks.length := by
  obtain ⟨_, hgraph, _⟩ := b.pollApprovalRegistry_closes s
  exact (readyTasks_closes hgraph).length_le

/-- More fuel than there are ready tasks changes nothing. -/
theorem nextFrom_succ {fuel : Nat} {s : OrchestratorState}
    (hfuel : s.taskGraph.readyTasks.length < fuel) :
    b.nextFrom (fuel + 1) s = b.nextFrom fuel s := by
  induction fuel generalizing s with
  | zero => contradiction
  | succ fuel ih =>
      have hpolled := b.readyTasks_poll s
      rw [nextFrom, nextFrom]
      generalize b.pollApprovalRegistry s = polled at hpolled
      split
      · split
        · rfl
        · rename_i task rest hready
          split
          · rfl
          · rename_i next hnext
            have hless := b.dispatchTask_none (hready ▸ List.mem_cons_self) hnext
            exact ih (by omega)
      · rfl

theorem nextFrom_eq {fuel : Nat} {s : OrchestratorState}
    (hfuel : s.taskGraph.readyTasks.length < fuel) :
    b.nextFrom fuel s = b.nextOrFinalize s := by
  obtain ⟨extra, rfl⟩ := Nat.exists_eq_add_of_lt hfuel
  induction extra with
  | zero => rfl
  | succ extra ih =>
      rw [← ih (by omega)]
      exact b.nextFrom_succ (by omega)

/-- `next_or_finalize` as the source has it, calling itself. -/
theorem nextOrFinalize_eq (s : OrchestratorState) :
    b.nextOrFinalize s =
      let s := b.pollApprovalRegistry s
      if s.canSpawnMore b.maxConcurrency then
        match s.taskGraph.readyTasks with
        | [] => (.continue, s)
        | task :: _ =>
            match b.dispatchTask s task with
            | (some action, s) => (action, s)
            | (none, s) => b.nextOrFinalize s
      else if s.isComplete then b.finalize s
      else (.continue, s) := by
  have hpolled := b.readyTasks_poll s
  rw [nextOrFinalize, nextFrom]
  generalize b.pollApprovalRegistry s = polled at hpolled
  dsimp only
  cases hready : polled.taskGraph.readyTasks with
  | nil => rfl
  | cons task rest =>
      dsimp only
      cases hnext : b.dispatchTask polled task with
      | mk action next =>
          cases action with
          | some action => rfl
          | none =>
              have hless := b.dispatchTask_none (hready ▸ List.mem_cons_self) hnext
              dsimp only
              rw [b.nextFrom_eq (Nat.lt_of_lt_of_le hless hpolled)]

/-! ## Messages -/

theorem releaseWorker_moves (s : OrchestratorState) (pid : AgentPid) (reason : Reason)
    (htouched : ∀ id, s.activeWorkers.lookup pid = some id → touched id) :
    OrchestratorMoves b touched s (releaseWorker s pid reason) := by
  unfold releaseWorker
  split
  · exact .refl
  · rename_i taskId hworker
    have hreleased : OrchestratorMoves b touched s { s with
        activeWorkers := s.activeWorkers.erase pid
        inflightTasks := s.inflightTasks.erase taskId } :=
      .tail (.single (.release s pid)) (.aside rfl rfl rfl rfl)
    dsimp only
    split
    · exact hreleased
    · split
      · rename_i retryTracker _
        have hcounted : OrchestratorMove b touched { s with
            activeWorkers := s.activeWorkers.erase pid
            inflightTasks := s.inflightTasks.erase taskId } { s with
            activeWorkers := s.activeWorkers.erase pid
            inflightTasks := s.inflightTasks.erase taskId
            retryTracker } :=
          .aside rfl rfl rfl rfl
        exact (hreleased.tail hcounted).tail (.retry _ taskId (htouched taskId hworker))
      · exact hreleased.tail (.close []
          ((TaskGraph.closes_markFailed _ _).trans (TaskGraph.closes_failDependents _ _)) rfl
          rfl (List.append_nil _).symm)

theorem handleProgress_moves (s : OrchestratorState) (payload : Json) :
    OrchestratorMoves b touched s (handleProgress s payload).2 := by
  unfold handleProgress
  dsimp only
  split
  · exact .aside rfl rfl rfl rfl
  · exact .aside rfl rfl rfl rfl

theorem handleResult_moves (s : OrchestratorState) (result : WorkerResult)
    (htouched : ∀ id, result.taskId = some id → touched id) :
    OrchestratorMoves b touched s (b.handleResult s result).2 := by
  obtain ⟨workerPid, taskId, asJson⟩ := result
  have hended : ∀ completed, OrchestratorMoves b touched s completed →
      OrchestratorMoves b touched s (b.handleResult completed ⟨workerPid, none, asJson⟩).2 := by
    intro completed hcompleted
    have hadded : OrchestratorMove b touched completed
        { completed with results := completed.results ++ [asJson] } :=
      .aside rfl rfl rfl rfl
    have hsaved := b.persistCheckpoint_moves (hcompleted.tail hadded)
    unfold handleResult
    dsimp only
    split
    · exact hsaved
    · exact b.nextOrFinalize_moves hsaved
  cases taskId with
  | none => exact hended s .refl
  | some id =>
      have hcompleted := OrchestratorMove.complete (b := b) s id (htouched id rfl)
      exact hended _ (.tail (.single hcompleted) (.aside rfl rfl rfl rfl))

theorem handleDown_moves (s : OrchestratorState) (pid : AgentPid) (reason : Reason)
    (htouched : ∀ id, s.activeWorkers.lookup pid = some id → touched id) :
    OrchestratorMoves b touched s (b.handleDown s pid reason).2 := by
  have hforgotten : OrchestratorMove b touched (releaseWorker s pid reason)
      { releaseWorker s pid reason with workerMonitors := s.workerMonitors.erase pid } :=
    .aside rfl rfl rfl rfl
  exact b.nextOrFinalize_moves (b.persistCheckpoint_moves
    ((b.releaseWorker_moves s pid reason htouched).tail hforgotten))

theorem handleExit_moves (s : OrchestratorState) (pid : AgentPid) (reason : Reason)
    (htouched : ∀ id, s.activeWorkers.lookup pid = some id → touched id) :
    OrchestratorMoves b touched s (b.handleExit s pid reason).2 :=
  b.nextOrFinalize_moves (b.persistCheckpoint_moves
    (b.releaseWorker_moves s pid reason htouched))

/-- A message that starts a new goal in the state it finds. -/
def startsGoal (s : OrchestratorState) (payload : Json) : Bool :=
  typeOf payload ≠ some "worker_progress" && (parseWorkerResult payload).isNone &&
    !resumes s payload

theorem handleJson_moves {s : OrchestratorState} {payload : Json}
    (hgoal : startsGoal s payload = false)
    (htouched : ∀ result, parseWorkerResult payload = some result →
      ∀ id, result.taskId = some id → touched id) :
    OrchestratorMoves b touched s (b.handleJson s payload).2 := by
  unfold handleJson
  split
  · exact b.handleProgress_moves s payload
  · rename_i hprogress
    split
    · rename_i result hresult
      exact b.handleResult_moves s result (htouched result hresult)
    · rename_i hresult
      have hresumes : resumes s payload := by
        simpa [startsGoal, hprogress, hresult] using hgoal
      unfold handleGoal
      rw [if_pos hresumes]
      exact b.nextOrFinalize_moves (b.persistCheckpoint_moves (.aside rfl rfl rfl rfl))

theorem handleJson_goal {s : OrchestratorState} {payload : Json}
    (hgoal : startsGoal s payload) :
    OrchestratorMoves b touched (s.resetFor (incomingGoal payload) payload)
      (b.handleJson s payload).2 := by
  simp only [startsGoal, Bool.and_eq_true, decide_eq_true_eq, Bool.not_eq_true',
    Option.isNone_iff_eq_none] at hgoal
  obtain ⟨⟨hprogress, hresult⟩, hresumes⟩ := hgoal
  unfold handleJson
  rw [if_neg hprogress, hresult]
  unfold handleGoal
  rw [hresumes]
  exact b.persistCheckpoint_moves .refl

theorem handleIoResponse_moves (s : OrchestratorState) (result : IoResult) :
    OrchestratorMoves b touched { s with
        taskGraph := (s.taskGraph.addTasks (extractTasks s.goal result)).2 }
      (b.handleIoResponse s result).2 := by
  unfold handleIoResponse
  dsimp only
  cases s.taskGraph.addTasks (extractTasks s.goal result) with
  | mk answer taskGraph =>
      cases answer with
      | error text => exact OrchestratorMoves.aside rfl rfl rfl rfl
      | ok =>
          exact b.nextOrFinalize_moves (b.persistCheckpoint_moves (.aside rfl rfl rfl rfl))

/-- The answer to a Spawn goes to the task that has waited longest. -/
def answered (s : OrchestratorState) (childPid : AgentPid) : OrchestratorState :=
  match s.pendingSpawnTasks with
  | [] => s.log (.spawnAnswered childPid)
  | task :: rest => { s with
      pendingSpawnTasks := rest
      activeWorkers := s.activeWorkers.insert childPid
        (extractTaskId task s!"task-{childPid}") }.log (.spawnAnswered childPid)

@[simp]
theorem taskGraph_answered (s : OrchestratorState) (childPid : AgentPid) :
    (answered s childPid).taskGraph = s.taskGraph := by
  unfold answered
  split
  · rfl
  · rfl

@[simp]
theorem trace_answered (s : OrchestratorState) (childPid : AgentPid) :
    (answered s childPid).trace = s.trace ++ [.spawnAnswered childPid] := by
  unfold answered
  split
  · rfl
  · rfl

theorem handleSpawnResult_moves (s : OrchestratorState) (childPid : AgentPid)
    (monitorRef : Option MonitorRef) :
    OrchestratorMoves b touched (answered s childPid)
      (b.handleSpawnResult s childPid monitorRef).2 := by
  unfold handleSpawnResult answered
  dsimp only [OrchestratorState.log]
  cases s.pendingSpawnTasks with
  | nil => exact b.nextOrFinalize_moves .refl
  | cons task rest => exact b.persistCheckpoint_moves (.aside rfl rfl rfl rfl)

/-! ## Steps -/

/-- The tasks that a message is about. -/
def touches (s : OrchestratorState) : Message → String → Prop
  | .json payload, id => ∃ result, parseWorkerResult payload = some result ∧
      result.taskId = some id
  | .system (.down _ pid _), id => s.activeWorkers.lookup pid = some id
  | _, _ => False

/-- A message, from the state after the poll: it is a new goal, a decomposition, the answer
to a Spawn, or all it does is moves. -/
theorem handleMessage_moves (s : OrchestratorState) (msg : Message) :
    (∃ payload, msg = .json payload ∧ startsGoal (b.pollApprovalRegistry s) payload ∧
      OrchestratorMoves b (touches s msg)
        ((b.pollApprovalRegistry s).resetFor (incomingGoal payload) payload)
        (b.handleMessage s msg).2) ∨
    (∃ correlationId result, msg = .system (.ioResponse correlationId result) ∧
      OrchestratorMoves b (touches s msg) { b.pollApprovalRegistry s with
          taskGraph := ((b.pollApprovalRegistry s).taskGraph.addTasks
            (extractTasks (b.pollApprovalRegistry s).goal result)).2 }
        (b.handleMessage s msg).2) ∨
    (∃ childPid monitorRef, msg = .system (.spawnResult childPid monitorRef) ∧
      OrchestratorMoves b (touches s msg) (answered (b.pollApprovalRegistry s) childPid)
        (b.handleMessage s msg).2) ∨
    OrchestratorMoves b (touches s msg) (b.pollApprovalRegistry s)
      (b.handleMessage s msg).2 := by
  obtain ⟨_, _, _, hworkers, _⟩ := b.pollApprovalRegistry_closes s
  unfold handleMessage
  generalize b.pollApprovalRegistry s = polled at hworkers
  dsimp only
  split
  · rename_i payload
    by_cases hstarts : startsGoal polled payload
    · exact .inl ⟨payload, rfl, hstarts, b.handleJson_goal hstarts⟩
    · right; right; right
      exact b.handleJson_moves (by simpa using hstarts)
        fun result hresult id hid => ⟨result, hresult, hid⟩
  · exact .inr (.inl ⟨_, _, rfl, b.handleIoResponse_moves _ _⟩)
  · exact .inr (.inr (.inl ⟨_, _, rfl, b.handleSpawnResult_moves _ _ _⟩))
  · right; right; right
    apply b.handleDown_moves
    intro id hid
    rw [hworkers] at hid
    exact hid
  · exact .inr (.inr (.inr .refl))

/-- What the moves keep, and the three steps that are no moves, is kept by every step. -/
theorem step_keeps (Inv : OrchestratorState → Prop)
    (hmove : ∀ {touched s s'}, OrchestratorMove b touched s s' → Inv s → Inv s')
    {op : OrchestratorOp}
    (hgoal : ∀ {s payload}, op = .message (.json payload) → startsGoal s payload → Inv s →
      Inv (s.resetFor (incomingGoal payload) payload))
    (htasks : ∀ {s correlationId result},
      op = .message (.system (.ioResponse correlationId result)) → Inv s →
        Inv { s with taskGraph := (s.taskGraph.addTasks (extractTasks s.goal result)).2 })
    (hanswer : ∀ {s childPid monitorRef},
      op = .message (.system (.spawnResult childPid monitorRef)) → Inv s →
        Inv (answered s childPid))
    {s : OrchestratorState} (hs : Inv s) : Inv (b.step s op) := by
  have hkeeps : ∀ {touched : String → Prop} {s s' : OrchestratorState},
      OrchestratorMoves b touched s s' → Inv s → Inv s' :=
    fun h hs => OrchestratorMoves.keeps Inv hmove h hs
  cases op with
  | message msg =>
      have hpoll : OrchestratorMove b (touches s msg) s (b.pollApprovalRegistry s) :=
        b.pollApprovalRegistry_move s
      have hpolled := hmove hpoll hs
      rcases b.handleMessage_moves s msg with ⟨payload, rfl, hstarts, h⟩ |
        ⟨correlationId, result, rfl, h⟩ | ⟨childPid, monitorRef, rfl, h⟩ | h
      · exact hkeeps h (hgoal rfl hstarts hpolled)
      · exact hkeeps h (htasks rfl hpolled)
      · exact hkeeps h (hanswer rfl hpolled)
      · exact hkeeps h hpolled
  | exit pid reason => exact hkeeps (b.handleExit_moves s pid reason fun _ h => h) hs
  | approvals op =>
      have haside : OrchestratorMove b (fun _ => False) s (b.step s (.approvals op)) :=
        .aside rfl rfl rfl rfl
      exact hmove haside hs
  | pidsDrawn pids =>
      have haside : OrchestratorMove b (fun _ => False) s (b.step s (.pidsDrawn pids)) :=
        .aside rfl rfl rfl rfl
      exact hmove haside hs

/-- What every step keeps is kept by every run. -/
theorem run_keeps (Inv : OrchestratorState → Prop)
    (hstep : ∀ {s} (op : OrchestratorOp), Inv s → Inv (b.step s op)) {s : OrchestratorState}
    (hs : Inv s) (ops : List OrchestratorOp) : Inv (b.run s ops) := by
  induction ops generalizing s with
  | nil => exact hs
  | cons op rest ih => exact ih (hstep op hs)

end OrchestratorBehavior

end Zeptobeam
