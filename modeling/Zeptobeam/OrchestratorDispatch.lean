/-
What dispatching does, once: it takes the decisions that the approval registry has, and then
deals with the first ready task, or ends the orchestration.
-/
import Zeptobeam.Orchestration
import Mathlib.Logic.Relation

namespace Zeptobeam

/-- Decisions were taken, for distinct tasks that are ready, and applied. -/
def Polled (s s' : OrchestratorState) : Prop :=
  ∃ (decisions : List (String × ApprovalDecision)) (approvals : ApprovalRegistry),
    (∀ d ∈ decisions, ∃ node, s.taskGraph.lookup d.1 = some node ∧ node.status = .ready) ∧
    (decisions.map Prod.fst).Nodup ∧
    s' = decisions.foldl OrchestratorState.applyDecision { s with approvals }

/-- One thing that `next_or_finalize` does, with everything that changes by it. -/
inductive DispatchMove (b : OrchestratorBehavior) (s : OrchestratorState) :
    OrchestratorState → Prop where
  | poll {s' : OrchestratorState} (hpolled : Polled s s') : DispatchMove b s s'
  | gate (id : String) (node : TaskNode) (approvals : ApprovalRegistry) (hid : id ≠ "")
      (hrequires : (taskRequiresApproval node.task && b.approvalRegistry) = true)
      (hnode : s.taskGraph.lookup id = some node) (hready : node.status = .ready) :
      DispatchMove b s { s with
        taskGraph := s.taskGraph.setStatus id .awaitingApproval
        approvals }
  | tooDeep (id : String) (node : TaskNode) (result : Json)
      (hnode : s.taskGraph.lookup id = some node) (hready : node.status = .ready) :
      DispatchMove b s { s with
        taskGraph := s.taskGraph.markFailed id
        results := s.results ++ [result] }
  | spawnUnnamed (node : TaskNode) (checkpointCalls : List CheckpointCall)
      (nextPid : AgentPid) (hroom : s.canSpawnMore b.maxConcurrency)
      (hnode : s.taskGraph.lookup "" = some node) (hready : node.status = .ready) :
      DispatchMove b s ({ s with
        pendingSpawnTasks := s.pendingSpawnTasks ++ [node.task]
        checkpointCalls, nextPid }.log (.spawned .unnamed node.task))
  | spawnSub (id : String) (node : TaskNode) (hid : id ≠ "")
      (hfree : (taskRequiresApproval node.task && b.approvalRegistry) = false)
      (hsub : typeOf node.task = some "sub_orchestration")
      (hdepth : b.currentDepth < b.maxDepth) (hroom : s.canSpawnMore b.maxConcurrency)
      (hnode : s.taskGraph.lookup id = some node) (hready : node.status = .ready) :
      DispatchMove b s (s.log (.spawned .subOrchestration node.task))
  | spawnWorker (id : String) (node : TaskNode) (checkpointCalls : List CheckpointCall)
      (nextPid : AgentPid) (hid : id ≠ "")
      (hfree : (taskRequiresApproval node.task && b.approvalRegistry) = false)
      (hroom : s.canSpawnMore b.maxConcurrency)
      (hnode : s.taskGraph.lookup id = some node) (hready : node.status = .ready) :
      DispatchMove b s ({ s with
        taskGraph := s.taskGraph.markRunning id
        pendingSpawnTasks := s.pendingSpawnTasks ++ [node.task]
        checkpointCalls, nextPid }.log (.spawned .worker node.task))

/-- The end of an orchestration. -/
inductive Finishes (b : OrchestratorBehavior) (s : OrchestratorState) :
    OrchestratorState → Prop where
  | finish (checkpointCalls : List CheckpointCall)
      (hidle : s.canSpawnMore b.maxConcurrency = false) (hcomplete : s.isComplete = true) :
      Finishes b s ({ s with checkpointCalls }.log (.finished s.requester))

theorem Polled.refl (s : OrchestratorState) : Polled s s :=
  ⟨[], s.approvals, fun _ hd => by contradiction, List.nodup_nil, rfl⟩

namespace OrchestratorBehavior

variable (b : OrchestratorBehavior)

theorem persistCheckpoint_eq (s : OrchestratorState) :
    ∃ checkpointCalls, b.persistCheckpoint s = { s with checkpointCalls } := by
  unfold persistCheckpoint
  split
  · exact ⟨_, rfl⟩
  · exact ⟨s.checkpointCalls, rfl⟩

/-- The graph at the start has no tasks but those of a checkpoint. -/
theorem init_taskGraph (args : Json) (loaded : Option Json) (approvals : ApprovalRegistry)
    (nextPid : AgentPid) : ∃ tasks, (b.init args loaded approvals nextPid).taskGraph =
      (TaskGraph.new.addTasks tasks).2 := by
  unfold init
  dsimp only
  split
  · exact ⟨_, rfl⟩
  · exact ⟨[], rfl⟩

/-! ## Polling the approval registry -/

/-- Decisions are taken for tasks of the list, and there is one in the registry. -/
theorem mem_takeDecisions {tasks : List Json} {approvals : ApprovalRegistry}
    {d : String × ApprovalDecision} (h : d ∈ (b.takeDecisions tasks approvals).1) :
    (∃ task ∈ tasks, taskId? task = some d.1 ∧ taskRequiresApproval task) ∧
      approvals.decisions.lookup (b.orchId, d.1) ≠ none := by
  induction tasks generalizing approvals with
  | nil => contradiction
  | cons task rest ih =>
      have hlater : ∀ {taken : ApprovalRegistry},
          d ∈ (b.takeDecisions rest taken).1 →
          (∃ task' ∈ task :: rest, taskId? task' = some d.1 ∧ taskRequiresApproval task') ∧
            taken.decisions.lookup (b.orchId, d.1) ≠ none := by
        intro taken hd
        obtain ⟨⟨other, hother, hid⟩, hdecided⟩ := ih hd
        exact ⟨⟨other, List.mem_cons_of_mem task hother, hid⟩, hdecided⟩
      unfold takeDecisions at h
      split at h
      · exact hlater h
      · rename_i id hid
        split at h
        · rename_i hrequires
          have herased : ∀ key, ((approvals.decisions.erase (b.orchId, id)).lookup key ≠ none →
              approvals.decisions.lookup key ≠ none) := by
            intro key hkey
            by_cases heq : key = (b.orchId, id)
            · rw [heq, AList.lookup_erase] at hkey
              contradiction
            · rwa [AList.lookup_erase_ne heq] at hkey
          cases hdecision : approvals.decisions.lookup (b.orchId, id) with
          | none =>
              simp only [ApprovalRegistry.takeDecision, hdecision] at h
              obtain ⟨htask, hdecided⟩ := hlater h
              exact ⟨htask, herased _ hdecided⟩
          | some decision =>
              simp only [ApprovalRegistry.takeDecision, hdecision] at h
              rcases List.mem_cons.mp h with rfl | h
              · refine ⟨⟨task, List.mem_cons_self, hid, hrequires⟩, ?_⟩
                rw [hdecision]
                exact Option.some_ne_none decision
              · obtain ⟨htask, hdecided⟩ := hlater h
                exact ⟨htask, herased _ hdecided⟩
        · exact hlater h

/-- A decision that is taken is gone, so that no task is decided twice. -/
theorem takeDecisions_distinct (tasks : List Json) (approvals : ApprovalRegistry) :
    ((b.takeDecisions tasks approvals).1.map Prod.fst).Nodup := by
  induction tasks generalizing approvals with
  | nil => exact List.nodup_nil
  | cons task rest ih =>
      unfold takeDecisions
      split
      · exact ih approvals
      · rename_i id hid
        split
        · cases hdecision : approvals.decisions.lookup (b.orchId, id) with
          | none =>
              simp only [ApprovalRegistry.takeDecision, hdecision]
              exact ih _
          | some decision =>
              simp only [ApprovalRegistry.takeDecision, hdecision]
              refine List.nodup_cons.mpr ⟨fun hmem => ?_, ih _⟩
              obtain ⟨⟨other, second⟩, hd, rfl⟩ := List.mem_map.mp hmem
              have hgone := (b.mem_takeDecisions hd).2
              exact hgone (AList.lookup_erase _ _)
        · exact ih approvals

/-- Decisions only change the graph. -/
theorem applyDecisions_eq (decisions : List (String × ApprovalDecision))
    (s : OrchestratorState) :
    decisions.foldl OrchestratorState.applyDecision s = { s with
      taskGraph := (decisions.foldl OrchestratorState.applyDecision s).taskGraph
      trace := s.trace ++ decisions.map fun d => .decided d.1 d.2 } := by
  induction decisions generalizing s with
  | nil =>
      rw [List.map_nil, List.append_nil]
      rfl
  | cons d rest ih =>
      rw [List.foldl_cons, ih, List.map_cons]
      have htrace : (s.applyDecision d).trace = s.trace ++ [.decided d.1 d.2] := rfl
      rw [htrace, List.append_assoc]
      rfl

theorem pollApprovalRegistry_polled (s : OrchestratorState) :
    Polled s (b.pollApprovalRegistry s) := by
  unfold pollApprovalRegistry
  split
  · refine ⟨_, _, fun d hd => ?_, b.takeDecisions_distinct s.taskGraph.readyTasks s.approvals,
      rfl⟩
    obtain ⟨⟨task, htask, hid, _⟩, _⟩ := b.mem_takeDecisions hd
    obtain ⟨id, node, hid', hnode, hstatus, _⟩ := TaskGraph.mem_readyTasks htask
    cases hid.symm.trans hid'
    exact ⟨node, hnode, hstatus⟩
  · exact .refl s

/-! ## Dispatch -/

theorem spawnWorker_eq (s : OrchestratorState) (kind : SpawnKind) (task : Json)
    (taskId : String) :
    ∃ nextPid, (s.spawnWorker kind task taskId).2 =
      { s with nextPid }.log (.spawned kind task) := by
  cases hself : s.selfPid with
  | none =>
      simp only [OrchestratorState.spawnWorker, OrchestratorState.parentPid, hself]
      exact ⟨s.nextPid + 1, rfl⟩
  | some pid =>
      simp only [OrchestratorState.spawnWorker, OrchestratorState.parentPid, hself]
      exact ⟨s.nextPid, by cases s; subst hself; rfl⟩

theorem dispatchTask_dispatch {s : OrchestratorState} {task : Json}
    (hroom : s.canSpawnMore b.maxConcurrency) (htask : task ∈ s.taskGraph.readyTasks) :
    DispatchMove b s (b.dispatchTask s task).2 := by
  obtain ⟨id, node, hid, hnode, hready, rfl⟩ := TaskGraph.mem_readyTasks htask
  unfold dispatchTask
  rw [hid, Option.getD_some]
  dsimp only
  split
  · rename_i hempty
    rw [hempty] at hnode
    generalize extractTaskId node.task _ = spawnedId
    obtain ⟨checkpointCalls, hsaved⟩ := b.persistCheckpoint_eq { s with
      pendingSpawnTasks := s.pendingSpawnTasks ++ [node.task] }
    obtain ⟨nextPid, hspawned⟩ := spawnWorker_eq (b.persistCheckpoint { s with
      pendingSpawnTasks := s.pendingSpawnTasks ++ [node.task] }) .unnamed node.task spawnedId
    rw [hspawned, hsaved]
    exact .spawnUnnamed node checkpointCalls nextPid hroom hnode hready
  · rename_i hnamed
    split
    · rename_i hrequires
      exact .gate id node _ hnamed hrequires hnode hready
    · rename_i hgate
      have hfree : (taskRequiresApproval node.task && b.approvalRegistry) = false := by
        simpa using hgate
      split
      · rename_i hsub
        split
        · exact .tooDeep id node _ hnode hready
        · rename_i hdepth
          exact .spawnSub id node hnamed hfree hsub (Nat.lt_of_not_ge hdepth) hroom hnode
            hready
      · obtain ⟨checkpointCalls, hsaved⟩ := b.persistCheckpoint_eq { s with
          taskGraph := s.taskGraph.markRunning id
          pendingSpawnTasks := s.pendingSpawnTasks ++ [node.task] }
        obtain ⟨nextPid, hspawned⟩ := spawnWorker_eq (b.persistCheckpoint { s with
          taskGraph := s.taskGraph.markRunning id
          pendingSpawnTasks := s.pendingSpawnTasks ++ [node.task] }) .worker node.task id
        rw [hspawned, hsaved]
        exact .spawnWorker id node checkpointCalls nextPid hnamed hfree hroom hnode hready

theorem finalize_eq (s : OrchestratorState) :
    ∃ checkpointCalls, (b.finalize s).2 =
      { s with checkpointCalls }.log (.finished s.requester) := by
  have hclear : ∃ checkpointCalls, b.clearCheckpoint s = { s with checkpointCalls } := by
    unfold clearCheckpoint
    split
    · exact ⟨_, rfl⟩
    · exact ⟨s.checkpointCalls, rfl⟩
  obtain ⟨checkpointCalls, hcleared⟩ := hclear
  refine ⟨checkpointCalls, ?_⟩
  rw [← hcleared]
  unfold finalize
  dsimp only
  split
  · rfl
  · rfl

/-- Some moves, and at most one end after them. -/
def Dispatches (s s' : OrchestratorState) : Prop :=
  ∃ next, Relation.ReflTransGen (DispatchMove b) s next ∧ (s' = next ∨ Finishes b next s')

namespace Dispatches

variable {b : OrchestratorBehavior} {s s' : OrchestratorState}

theorem refl : Dispatches b s s :=
  ⟨s, .refl, .inl rfl⟩

theorem head {first : OrchestratorState} (hmove : DispatchMove b s first)
    (h : Dispatches b first s') : Dispatches b s s' := by
  obtain ⟨next, hmoves, hlast⟩ := h
  exact ⟨next, hmoves.head hmove, hlast⟩

/-- What each move keeps, and the end, is kept by dispatching. -/
theorem keeps (Inv : OrchestratorState → Prop)
    (hmove : ∀ {s s'}, DispatchMove b s s' → Inv s → Inv s')
    (hfinish : ∀ {s s'}, Finishes b s s' → Inv s → Inv s')
    (h : Dispatches b s s') (hs : Inv s) : Inv s' := by
  obtain ⟨next, hmoves, hends⟩ := h
  have hnext : Inv next := by
    clear hends
    induction hmoves with
    | refl => exact hs
    | tail _ hlast ih => exact hmove hlast ih
  rcases hends with rfl | hend
  · exact hnext
  · exact hfinish hend hnext

end Dispatches

theorem nextFrom_dispatches (fuel : Nat) (s : OrchestratorState) :
    Dispatches b s (b.nextFrom fuel s).2 := by
  induction fuel generalizing s with
  | zero => exact .refl
  | succ fuel ih =>
      apply Dispatches.head (.poll (b.pollApprovalRegistry_polled s))
      unfold nextFrom
      generalize b.pollApprovalRegistry s = polled
      dsimp only
      split
      · rename_i hroom
        split
        · exact .refl
        · rename_i task rest hready
          have hdispatch : DispatchMove b polled (b.dispatchTask polled task).2 :=
            b.dispatchTask_dispatch hroom (hready ▸ List.mem_cons_self)
          split
          · rename_i action next hnext
            rw [hnext] at hdispatch
            exact .head hdispatch .refl
          · rename_i next hnext
            rw [hnext] at hdispatch
            exact .head hdispatch (ih next)
      · rename_i hidle
        split
        · rename_i hcomplete
          obtain ⟨checkpointCalls, hfinished⟩ := b.finalize_eq polled
          rw [hfinished]
          exact ⟨polled, .refl, .inr (.finish checkpointCalls (by simpa using hidle) hcomplete)⟩
        · exact .refl

theorem nextOrFinalize_dispatches (s : OrchestratorState) :
    Dispatches b s (b.nextOrFinalize s).2 :=
  b.nextFrom_dispatches _ s

end OrchestratorBehavior

end Zeptobeam
