/-
Completed tasks: they stay completed until the next goal, and the results stay too, as long as
no worker is taken to have failed a task that it has completed.
-/
import Zeptobeam.OrchestratorSteps
import Zeptobeam.OrchestratorSpawns
import Zeptobeam.TaskGraphAdvance

namespace Zeptobeam

open OrchestratorBehavior GuardedRun

/-- A task of the graph that waits for nothing. -/
def TaskGraph.Cleared (graph : TaskGraph) (id : String) : Prop :=
  ∃ node, graph.lookup id = some node ∧ ∀ dep ∈ node.dependsOn,
    graph.taskStatus dep = some .completed

/-- Between two states: the graph advances, and results are only added. -/
structure KeepsCompleted (s s' : OrchestratorState) : Prop where
  graph : s.taskGraph.Advances s'.taskGraph
  results : s.results <+: s'.results

/-- Only cleared tasks are queued or worked on. -/
structure WorksOnCleared (s : OrchestratorState) : Prop where
  ready : s.taskGraph.Readiness
  queued : ∀ task ∈ s.pendingSpawnTasks, ∃ id, taskId? task = some id ∧ s.taskGraph.Cleared id
  working : ∀ pid id, s.activeWorkers.lookup pid = some id → s.taskGraph.Cleared id

/-- No goal starts. -/
def SameGoal (s : OrchestratorState) (op : OrchestratorOp) : Prop :=
  ∀ payload, op = .message (.json payload) → startsGoal s payload = false

/-- A worker only ends abnormally while its task is not completed; a result is about a task
whose dependencies are done; and a decomposition brings new tasks. -/
structure SparesCompleted (s : OrchestratorState) (op : OrchestratorOp) : Prop where
  ends : ∀ pid reason id, reportsEnd op = some (pid, reason) → reason ≠ .normal →
    s.activeWorkers.lookup pid = some id → s.taskGraph.taskStatus id ≠ some .completed
  results : ∀ payload result id, op = .message (.json payload) →
    parseWorkerResult payload = some result → result.taskId = some id →
    s.taskGraph.DependenciesDone id
  tasks : ∀ correlationId result, op = .message (.system (.ioResponse correlationId result)) →
    ∀ id ∈ (extractTasks s.goal result).filterMap taskId?, s.taskGraph.lookup id = none

theorem TaskGraph.Cleared.advance {graph graph' : TaskGraph} {id : String}
    (h : graph.Cleared id) (hadvances : graph.Advances graph') : graph'.Cleared id := by
  obtain ⟨node, hnode, hdone⟩ := h
  obtain ⟨node', hnode', hdeps⟩ := hadvances.kept id node hnode
  refine ⟨node', hnode', fun dep hdep => ?_⟩
  rw [hdeps] at hdep
  exact hadvances.completed dep (hdone dep hdep)

namespace KeepsCompleted

variable {s s' s'' : OrchestratorState}

theorem refl (s : OrchestratorState) : KeepsCompleted s s :=
  ⟨.refl _, List.prefix_rfl⟩

theorem trans (h : KeepsCompleted s s') (h' : KeepsCompleted s' s'') :
    KeepsCompleted s s'' :=
  ⟨h.graph.trans h'.graph, h.results.trans h'.results⟩

end KeepsCompleted

/-! ## Polling -/

/-- A decision for a ready task leaves the other ones that are ready as they are. -/
theorem decision_advances {s : OrchestratorState} (h : s.taskGraph.Readiness)
    {d : String × ApprovalDecision} (hready : s.taskGraph.taskStatus d.1 = some .ready) :
    (s.applyDecision d).taskGraph.Readiness ∧
      s.taskGraph.Advances (s.applyDecision d).taskGraph ∧
      ∀ q, q ≠ d.1 → s.taskGraph.taskStatus q = some .ready →
        (s.applyDecision d).taskGraph.taskStatus q = some .ready := by
  obtain ⟨id, decision⟩ := d
  have hopen : s.taskGraph.taskStatus id ≠ some .completed := by
    rw [hready]
    simp
  cases decision with
  | approved =>
      refine ⟨h.setStatus (.inr hopen) fun _ => h.done hready (.inl (.inl rfl)),
        .setStatus _ (.inr hopen) (by simp), fun q hne hq => ?_⟩
      have hstatus := TaskGraph.taskStatus_setStatus s.taskGraph id q .ready
      rw [if_neg hne] at hstatus
      exact hstatus.trans hq
  | rejected reason =>
      obtain ⟨hfailed, hadvances⟩ := h.fail hopen
      exact ⟨hfailed, hadvances, fun q hne hq =>
        h.taskStatus_fail hopen hne hq (.inl (.inl rfl))⟩

theorem decisions_advance {decisions : List (String × ApprovalDecision)}
    {s : OrchestratorState} (h : s.taskGraph.Readiness)
    (hready : ∀ d ∈ decisions, s.taskGraph.taskStatus d.1 = some .ready)
    (hdistinct : (decisions.map Prod.fst).Nodup) :
    (decisions.foldl OrchestratorState.applyDecision s).taskGraph.Readiness ∧
      s.taskGraph.Advances (decisions.foldl OrchestratorState.applyDecision s).taskGraph := by
  induction decisions generalizing s with
  | nil => exact ⟨h, .refl _⟩
  | cons d rest ih =>
      obtain ⟨hfirst, hadvances, hothers⟩ := decision_advances h (hready d List.mem_cons_self)
      obtain ⟨hnew, hrest⟩ := List.nodup_cons.mp hdistinct
      have hstill : ∀ other ∈ rest,
          (s.applyDecision d).taskGraph.taskStatus other.1 = some .ready := by
        intro other hother
        apply hothers other.1 ?_ (hready other (List.mem_cons_of_mem d hother))
        intro heq
        exact hnew (heq ▸ List.mem_map_of_mem hother)
      obtain ⟨hlast, hlater⟩ := ih hfirst hstill hrest
      exact ⟨hlast, hadvances.trans hlater⟩

namespace WorksOnCleared

variable {b : OrchestratorBehavior} {s s' : OrchestratorState}

/-- The graph advances, and nothing else is taken on. -/
theorem advance (h : WorksOnCleared s) (hready : s'.taskGraph.Readiness)
    (hgraph : s.taskGraph.Advances s'.taskGraph)
    (hpending : s'.pendingSpawnTasks = s.pendingSpawnTasks)
    (hworkers : ∀ pid id, s'.activeWorkers.lookup pid = some id →
      s.activeWorkers.lookup pid = some id) : WorksOnCleared s' := by
  refine ⟨hready, fun task htask => ?_, fun pid id hworker => ?_⟩
  · rw [hpending] at htask
    obtain ⟨id, hid, hcleared⟩ := h.queued task htask
    exact ⟨id, hid, hcleared.advance hgraph⟩
  · exact (h.working pid id (hworkers pid id hworker)).advance hgraph

theorem polled (hpolled : Polled s s') (h : WorksOnCleared s) :
    WorksOnCleared s' ∧ KeepsCompleted s s' := by
  obtain ⟨decisions, approvals, hready, hdistinct, rfl⟩ := hpolled
  obtain ⟨hgraph, hadvances⟩ := decisions_advance (s := { s with approvals }) h.ready
    (fun d hd => by
      obtain ⟨node, hnode, hstatus⟩ := hready d hd
      exact Option.map_eq_some_iff.mpr ⟨node, hnode, hstatus⟩) hdistinct
  rw [applyDecisions_eq]
  exact ⟨h.advance hgraph hadvances rfl fun _ _ => id, hadvances, List.prefix_rfl⟩

theorem spawn (h : WorksOnCleared s) {id : String} {node : TaskNode}
    (hnode : s.taskGraph.lookup id = some node) (hstatus : node.status = .ready)
    (hready : s'.taskGraph.Readiness) (hgraph : s.taskGraph.Advances s'.taskGraph)
    (hpending : s'.pendingSpawnTasks = s.pendingSpawnTasks ++ [node.task])
    (hworkers : s'.activeWorkers = s.activeWorkers) : WorksOnCleared s' := by
  refine ⟨hready, fun task htask => ?_, fun pid q hworker => ?_⟩
  · rw [hpending] at htask
    rcases List.mem_append.mp htask with hold | hnew
    · obtain ⟨q, hq, hcleared⟩ := h.queued task hold
      exact ⟨q, hq, hcleared.advance hgraph⟩
    · obtain rfl := List.mem_singleton.mp hnew
      have hcleared : s.taskGraph.Cleared id :=
        ⟨node, hnode, h.ready id node hnode (.inl (.inl hstatus))⟩
      exact ⟨id, s.taskGraph.keyed id node hnode, hcleared.advance hgraph⟩
  · exact (h.working pid q (hworkers ▸ hworker)).advance hgraph

theorem dispatch (hmove : DispatchMove b s s') (h : WorksOnCleared s) :
    WorksOnCleared s' ∧ KeepsCompleted s s' := by
  have hmoved : ∀ {id node} (status : TaskStatus), s.taskGraph.lookup id = some node →
      node.status = .ready → status ≠ .skipped → (s.taskGraph.setStatus id status).Readiness ∧
        s.taskGraph.Advances (s.taskGraph.setStatus id status) := by
    intro id node status hnode hstatus hskipped
    have hready : s.taskGraph.taskStatus id = some .ready :=
      Option.map_eq_some_iff.mpr ⟨node, hnode, hstatus⟩
    have hnot : s.taskGraph.taskStatus id ≠ some .completed := by simp [hready]
    exact ⟨h.ready.setStatus (.inr hnot) fun _ => h.ready.done hready (.inl (.inl rfl)),
      .setStatus _ (.inr hnot) hskipped⟩
  cases hmove with
  | poll hpolled => exact h.polled hpolled
  | gate id node _ _ _ hnode hstatus =>
      obtain ⟨hready, hgraph⟩ := hmoved .awaitingApproval hnode hstatus (by simp)
      exact ⟨h.advance hready hgraph rfl fun _ _ hworker => hworker, hgraph, List.prefix_rfl⟩
  | tooDeep id node result hnode hstatus =>
      obtain ⟨hready, hgraph⟩ := hmoved .failed hnode hstatus (by simp)
      exact ⟨h.advance hready hgraph rfl fun _ _ hworker => hworker, hgraph, List.prefix_append _ _⟩
  | spawnUnnamed node _ _ _ hnode hstatus =>
      exact ⟨h.spawn hnode hstatus h.ready (.refl _) rfl rfl, .refl _, List.prefix_rfl⟩
  | spawnSub => exact ⟨⟨h.ready, h.queued, h.working⟩, .refl _, List.prefix_rfl⟩
  | spawnWorker id node _ _ _ _ _ hnode hstatus =>
      obtain ⟨hready, hgraph⟩ := hmoved .running hnode hstatus (by simp)
      exact ⟨h.spawn hnode hstatus hready hgraph rfl rfl, hgraph, List.prefix_rfl⟩

/-- The end of a worker whose task is not completed. -/
theorem released {pid : AgentPid} {reason : Reason} (hreleased : Released s pid reason s')
    (h : WorksOnCleared s)
    (hends : reason ≠ .normal → ∀ id, s.activeWorkers.lookup pid = some id →
      s.taskGraph.taskStatus id ≠ some .completed) :
    WorksOnCleared s' ∧ KeepsCompleted s s' := by
  have hworkers : ∀ other q, (s.activeWorkers.erase pid).lookup other = some q →
      s.activeWorkers.lookup other = some q := by
    intro other q hother
    by_cases heq : other = pid
    · rw [heq, AList.lookup_erase] at hother
      contradiction
    · rwa [AList.lookup_erase_ne heq] at hother
  cases hreleased with
  | nobody => exact ⟨h, .refl s⟩
  | normal id => exact ⟨h.advance h.ready (.refl _) rfl hworkers, .refl _, List.prefix_rfl⟩
  | retried id _ hworker hreason =>
      have hnot := hends hreason id hworker
      have hgraph := TaskGraph.Advances.setStatus s.taskGraph (.inr hnot)
        (show TaskStatus.ready ≠ .skipped by simp)
      have hdone : s.taskGraph.DependenciesDone id := by
        obtain ⟨node, hnode, hdone⟩ := h.working pid id hworker
        intro other hother
        cases hnode.symm.trans hother
        exact hdone
      exact ⟨h.advance (h.ready.setStatus (.inr hnot) fun _ => hdone) hgraph rfl hworkers,
        hgraph, List.prefix_rfl⟩
  | failed id _ _ hworker hreason =>
      obtain ⟨hready, hgraph⟩ := h.ready.fail (hends hreason id hworker)
      exact ⟨h.advance hready hgraph rfl hworkers, hgraph, List.prefix_append _ _⟩

/-- The task at the head of the queue goes to its worker. -/
theorem answer (h : WorksOnCleared s) {childPid : AgentPid} {task : Json} {rest : List Json}
    {fallback : String} (hqueue : s.pendingSpawnTasks = task :: rest)
    (hgraph : s'.taskGraph = s.taskGraph) (hpending : s'.pendingSpawnTasks = rest)
    (hworkers : s'.activeWorkers =
      s.activeWorkers.insert childPid (extractTaskId task fallback)) : WorksOnCleared s' := by
  refine ⟨hgraph ▸ h.ready, fun other hother => ?_, fun pid id hworker => ?_⟩
  · rw [hgraph]
    rw [hpending] at hother
    exact h.queued other (hqueue ▸ List.mem_cons_of_mem task hother)
  · rw [hgraph]
    rw [hworkers] at hworker
    by_cases hchild : pid = childPid
    · obtain ⟨q, hq, hcleared⟩ := h.queued task (hqueue ▸ List.mem_cons_self)
      rw [hchild, AList.lookup_insert, extractTaskId, hq, Option.getD_some] at hworker
      exact Option.some.inj hworker ▸ hcleared
    · rw [AList.lookup_insert_ne hchild] at hworker
      exact h.working pid id hworker

theorem reset (hgraph : s.taskGraph = .new) (hpending : s.pendingSpawnTasks = [])
    (hworkers : s.activeWorkers = ∅) : WorksOnCleared s := by
  refine ⟨hgraph ▸ TaskGraph.new_readiness, fun task htask => ?_, fun pid id hworker => ?_⟩
  · rw [hpending] at htask
    contradiction
  · rw [hworkers] at hworker
    contradiction

theorem intake {op : OrchestratorOp} (htaken : Intake s op s') (h : WorksOnCleared s)
    (hspares : SparesCompleted s op) :
    WorksOnCleared s' ∧ (SameGoal s op → KeepsCompleted s s') := by
  cases htaken with
  | aside | resume | answerNobody =>
      exact ⟨⟨h.ready, h.queued, h.working⟩, fun _ => ⟨.refl _, List.prefix_rfl⟩⟩
  | result payload result hresult =>
      have hgraph : (result.taskId.elim s.taskGraph s.taskGraph.markCompleted).Readiness ∧
          s.taskGraph.Advances (result.taskId.elim s.taskGraph s.taskGraph.markCompleted) := by
        cases hid : result.taskId with
        | none => exact ⟨h.ready, .refl _⟩
        | some id =>
            have hdone := hspares.results payload result id rfl hresult hid
            exact ⟨h.ready.markCompleted hdone, .markCompleted s.taskGraph id⟩
      exact ⟨h.advance hgraph.1 hgraph.2 rfl fun _ _ => id,
        fun _ => ⟨hgraph.2, List.prefix_append _ _⟩⟩
  | goal payload hstarts =>
      refine ⟨reset rfl rfl rfl, fun hsame => ?_⟩
      rw [hsame payload rfl] at hstarts
      contradiction
  | tasks correlationId result =>
      have hnew := hspares.tasks correlationId result rfl
      have hgraph := TaskGraph.Advances.addTasks hnew
      exact ⟨h.advance (h.ready.addTasks hnew) hgraph rfl fun _ _ => id,
        fun _ => ⟨hgraph, List.prefix_append _ _⟩⟩
  | answer childPid monitorRef task rest hqueue =>
      exact ⟨h.answer hqueue rfl rfl rfl, fun _ => ⟨.refl _, List.prefix_rfl⟩⟩
  | gone _ pid reason hreports released hreleased =>
      obtain ⟨hworks, hkeeps⟩ := h.released hreleased fun hreason id =>
        hspares.ends pid reason id hreports hreason
      exact ⟨⟨hworks.ready, hworks.queued, hworks.working⟩,
        fun _ => ⟨hkeeps.graph, hkeeps.results⟩⟩

/-- What a step spares it spares after the poll. -/
theorem spares_polled {op : OrchestratorOp} (h : WorksOnCleared s) (hpolled : Polled s s')
    (hspares : SparesCompleted s op) :
    SparesCompleted s' op ∧ (SameGoal s op → SameGoal s' op) := by
  obtain ⟨_, hkeeps⟩ := h.polled hpolled
  obtain ⟨_, hcloses, _, hworkers, _⟩ := polled_closes hpolled
  have hgoal : s'.goal = s.goal ∧ s'.resumedFromCheckpoint = s.resumedFromCheckpoint := by
    obtain ⟨_, _, _, _, rfl⟩ := polled_eq hpolled
    exact ⟨rfl, rfl⟩
  refine ⟨⟨?_, ?_, ?_⟩, fun hsame payload hop => ?_⟩
  · intro pid reason id hreports hreason hworker hcompleted
    rw [hworkers] at hworker
    exact hspares.ends pid reason id hreports hreason hworker
      (hcloses.taskStatus_of hcompleted (by simp))
  · intro payload result id hop hresult hid node hnode dep hdep
    obtain ⟨found, hfound, _, hdeps⟩ := hcloses.sameTasks.known hnode
    rw [← hdeps] at hdep
    exact hkeeps.graph.completed dep
      (hspares.results payload result id hop hresult hid found hfound dep hdep)
  · intro correlationId result hop id hid
    rw [hgoal.1] at hid
    have hsame := hcloses.sameTasks id
    rw [hspares.tasks correlationId result hop id hid, Option.map_none] at hsame
    exact Option.map_eq_none_iff.mp hsame
  · have hstarts := hsame payload hop
    unfold startsGoal resumes at hstarts ⊢
    rw [hgoal.1, hgoal.2]
    exact hstarts

theorem step (h : WorksOnCleared s) {op : OrchestratorOp} (hspares : SparesCompleted s op) :
    WorksOnCleared (b.step s op) ∧ (SameGoal s op → KeepsCompleted s (b.step s op)) := by
  obtain ⟨polled, taken, hpolled, htaken, hdispatches⟩ := b.step_intake s op
  obtain ⟨hspares', hsameGoal⟩ := h.spares_polled hpolled hspares
  obtain ⟨hbefore, hkept⟩ := h.polled hpolled
  obtain ⟨hworks, hkeeps⟩ := hbefore.intake htaken hspares'
  have hrest : WorksOnCleared (b.step s op) ∧ KeepsCompleted taken (b.step s op) := by
    refine hdispatches.keeps (fun next => WorksOnCleared next ∧ KeepsCompleted taken next)
      ?_ ?_ ⟨hworks, .refl taken⟩
    · rintro next next' hmove ⟨hnext, hsince⟩
      obtain ⟨hnext', hmoved⟩ := hnext.dispatch hmove
      exact ⟨hnext', hsince.trans hmoved⟩
    · rintro next next' hend ⟨hnext, hsince⟩
      cases hend with
      | finish =>
          exact ⟨⟨hnext.ready, hnext.queued, hnext.working⟩, hsince.graph, hsince.results⟩
  exact ⟨hrest.1, fun hsame => (hkept.trans (hkeeps (hsameGoal hsame))).trans hrest.2⟩

end WorksOnCleared

/-! ## Runs -/

theorem init_worksOnCleared (b : OrchestratorBehavior) (args : Json) (loaded : Option Json)
    (approvals : ApprovalRegistry) (nextPid : AgentPid) :
    WorksOnCleared (b.init args loaded approvals nextPid) := by
  refine ⟨?_, fun task htask => by contradiction, fun pid id hworker => by contradiction⟩
  obtain ⟨tasks, hgraph⟩ := b.init_taskGraph args loaded approvals nextPid
  rw [hgraph]
  exact TaskGraph.new_readiness.addTasks fun _ _ => rfl

/-- In every run that spares what is completed: as long as no goal starts, completed tasks
stay completed, a task is only skipped when it depends on something that is not completed,
and no result is removed. -/
theorem completed_absorbing (b : OrchestratorBehavior) (args : Json) (loaded : Option Json)
    (approvals : ApprovalRegistry) (nextPid : AgentPid) (ops : List OrchestratorOp)
    (hspares : Guarded b.step SparesCompleted (b.init args loaded approvals nextPid) ops)
    (pre mid : List OrchestratorOp) (hpre : pre ++ mid <+: ops)
    (hsame : Guarded b.step SameGoal (b.run (b.init args loaded approvals nextPid) pre) mid) :
    KeepsCompleted (b.run (b.init args loaded approvals nextPid) pre)
      (b.run (b.init args loaded approvals nextPid) (pre ++ mid)) := by
  have hworks : ∀ first, first <+: ops →
      WorksOnCleared (b.run (b.init args loaded approvals nextPid) first) :=
    fun first hfirst => Guarded.keeps (init_worksOnCleared b args loaded approvals nextPid)
      (fun s op h hop => (h.step hop).1) (hspares.shorten hfirst)
  induction mid using List.reverseRecOn with
  | nil =>
      rw [List.append_nil]
      exact .refl _
  | append_singleton mid op ih =>
      rw [← List.append_assoc] at hpre ⊢
      have hshort := (List.prefix_append (pre ++ mid) [op]).trans hpre
      have hbefore := ih hshort (hsame.shorten (List.prefix_append mid [op]))
      have hrun : b.run (b.init args loaded approvals nextPid) (pre ++ mid) =
          b.run (b.run (b.init args loaded approvals nextPid) pre) mid :=
        List.foldl_append
      have hlast : b.run (b.init args loaded approvals nextPid) (pre ++ mid ++ [op]) =
          b.step (b.run (b.init args loaded approvals nextPid) (pre ++ mid)) op :=
        List.foldl_concat b.step _ op (pre ++ mid)
      have hgoal : SameGoal (b.run (b.init args loaded approvals nextPid) (pre ++ mid)) op :=
        hrun ▸ hsame mid op List.prefix_rfl
      rw [hlast]
      exact hbefore.trans (((hworks (pre ++ mid) hshort).step
        (hspares (pre ++ mid) op hpre)).2 hgoal)

/-- Normal ends, and everything that is no result and no decomposition. -/
theorem SparesCompleted.of_other {s : OrchestratorState} {op : OrchestratorOp}
    (hends : ∀ pid reason, reportsEnd op = some (pid, reason) → reason = .normal)
    (hresults : ∀ payload, op = .message (.json payload) → parseWorkerResult payload = none)
    (htasks : ∀ correlationId result,
      op ≠ .message (.system (.ioResponse correlationId result))) : SparesCompleted s op := by
  refine ⟨fun pid reason id hreports hreason => ?_, fun payload result id hop hresult => ?_,
    fun correlationId result hop => absurd hop (htasks correlationId result)⟩
  · exact absurd (hends pid reason hreports) hreason
  · rw [hresults payload hop] at hresult
    contradiction

/-- Two tasks, one after the other; the first one is done. -/
def chainOps : List OrchestratorOp :=
  [.message (.json goalMessage),
    decomposedInto [.obj [("task_id", .str "t")],
      .obj [("depends_on", .arr [.str "t"]), ("task_id", .str "u")]],
    .message (.system (.spawnResult 7 none)),
    .message (.json (.obj [("task_id", .str "t"), ("type", .str "worker_result"),
      ("worker_pid", .ofNat 7)]))]

/-- The worker ends normally after its result. -/
theorem completed_absorbing_normal :
    KeepsCompleted
      ((plainWorkers 1 .none).run (idleOrchestration (plainWorkers 1 .none)) chainOps)
      ((plainWorkers 1 .none).run (idleOrchestration (plainWorkers 1 .none))
        (chainOps ++ [.message (.system (.down 1 7 .normal))])) := by
  refine completed_absorbing (plainWorkers 1 .none) .null none .new 1
    (chainOps ++ [.message (.system (.down 1 7 .normal))]) ?_ chainOps
    [.message (.system (.down 1 7 .normal))] List.prefix_rfl ?_
  · refine Guarded.cons (.of_other ?_ ?_ ?_) (Guarded.cons ⟨?_, ?_, ?_⟩
      (Guarded.cons (.of_other ?_ ?_ ?_) (Guarded.cons ⟨?_, ?_, ?_⟩
        (Guarded.cons (.of_other ?_ ?_ ?_) Guarded.nil))))
    · simp [reportsEnd]
    · rintro payload hop
      cases hop
      decide
    · simp
    · simp [reportsEnd, decomposedInto]
    · simp [decomposedInto]
    · rintro correlationId result hop id _
      cases hop
      rfl
    · simp [reportsEnd]
    · simp
    · simp
    · simp [reportsEnd]
    · rintro payload result id hop hresult hid node hnode dep hdep
      cases hop
      cases hresult
      cases hid
      cases hnode
      contradiction
    · simp
    · simp [reportsEnd]
    · simp
    · simp
  · refine Guarded.cons (fun payload hop => ?_) Guarded.nil
    simp at hop

/-- It crashes after its result: its task fails, and what waited for it is skipped. -/
theorem late_crash_undoes :
    ((plainWorkers 1 .none).run (idleOrchestration (plainWorkers 1 .none)) chainOps
        ).taskGraph.taskStatus "t" = some .completed ∧
      ((plainWorkers 1 .none).run (idleOrchestration (plainWorkers 1 .none))
        (chainOps ++ [.message (.system (.down 1 7 (.custom "crash")))])
        ).taskGraph.taskStatus "t" = some .failed ∧
      ((plainWorkers 1 .none).run (idleOrchestration (plainWorkers 1 .none))
        (chainOps ++ [.message (.system (.down 1 7 (.custom "crash")))])
        ).taskGraph.taskStatus "u" = some .skipped := by
  decide

end Zeptobeam
