/-
Workers: a task that is running waits for its worker, or a worker has it, as long as no worker
ends normally before its task does.
-/
import Zeptobeam.OrchestratorSteps
import Zeptobeam.OrchestratorSpawns
import Zeptobeam.Lib.GuardedRun

namespace Zeptobeam

open OrchestratorBehavior GuardedRun

/-- The task is queued, or a worker has it. -/
def Held (s : OrchestratorState) (id : String) : Prop :=
  (∃ task ∈ s.pendingSpawnTasks, taskId? task = some id) ∨
    ∃ pid, s.activeWorkers.lookup pid = some id

/-- No running task is orphaned. -/
def RunningHeld (s : OrchestratorState) : Prop :=
  ∀ id, s.taskGraph.taskStatus id = some .running → Held s id

/-- The task is queued, or another worker has it too. -/
def HeldWithout (s : OrchestratorState) (pid : AgentPid) (id : String) : Prop :=
  (∃ task ∈ s.pendingSpawnTasks, taskId? task = some id) ∨
    ∃ other, other ≠ pid ∧ s.activeWorkers.lookup other = some id

/-- The record of a worker is taken away: it ended normally, or another worker comes with its
pid. -/
def Forgets (s : OrchestratorState) (op : OrchestratorOp) (pid : AgentPid) : Prop :=
  reportsEnd op = some (pid, .normal) ∨
    (s.pendingSpawnTasks ≠ [] ∧
      ∃ monitorRef, op = .message (.system (.spawnResult pid monitorRef)))

/-- The task of a worker that is forgotten is not running any more, or held otherwise. -/
def ForgetsEnded (s : OrchestratorState) (op : OrchestratorOp) : Prop :=
  ∀ pid id, Forgets s op pid → s.activeWorkers.lookup pid = some id →
    s.taskGraph.taskStatus id = some .running → HeldWithout s pid id

/-! ## Which changes start a task -/

theorem running_setStatus {graph : TaskGraph} {id q : String} {status : TaskStatus}
    (hstatus : status ≠ .running)
    (h : (graph.setStatus id status).taskStatus q = some .running) :
    q ≠ id ∧ graph.taskStatus q = some .running := by
  rw [TaskGraph.taskStatus_setStatus] at h
  split at h
  · obtain ⟨_, _, rfl⟩ := Option.map_eq_some_iff.mp h
    exact absurd rfl hstatus
  · rename_i hne
    exact ⟨hne, h⟩

theorem running_markCompleted {graph : TaskGraph} {id q : String}
    (h : (graph.markCompleted id).taskStatus q = some .running) :
    graph.taskStatus q = some .running := by
  rcases graph.lookup_markCompleted id q with hsame | ⟨node, _, _, hpromoted⟩
  · unfold TaskGraph.taskStatus at h
    rw [hsame] at h
    exact (running_setStatus (by simp) h).2
  · unfold TaskGraph.taskStatus at h
    rw [hpromoted, Option.map_some] at h
    simp at h

theorem running_addTasks {graph : TaskGraph} {tasks : List Json} {q : String}
    (h : (graph.addTasks tasks).2.taskStatus q = some .running) :
    graph.taskStatus q = some .running := by
  unfold TaskGraph.taskStatus at h ⊢
  rcases graph.lookup_addTasks tasks q with hsame | ⟨task, _, _, hadded | hgone⟩
  · rwa [hsame] at h
  · rw [hadded, Option.map_some] at h
    unfold TaskNode.ofTask at h
    dsimp only at h
    split at h <;> contradiction
  · rw [hgone] at h
    contradiction

namespace RunningHeld

variable {b : OrchestratorBehavior} {s s' : OrchestratorState}

/-- Nothing starts, and nothing is taken away. -/
theorem of_quiet (h : RunningHeld s)
    (hrunning : ∀ q, s'.taskGraph.taskStatus q = some .running →
      s.taskGraph.taskStatus q = some .running)
    (hpending : s'.pendingSpawnTasks = s.pendingSpawnTasks)
    (hworkers : s'.activeWorkers = s.activeWorkers) : RunningHeld s' := by
  intro q hq
  unfold Held
  rw [hpending, hworkers]
  exact h q (hrunning q hq)

theorem queue (h : RunningHeld s) {task : Json}
    (hrunning : ∀ q, s'.taskGraph.taskStatus q = some .running →
      s.taskGraph.taskStatus q = some .running ∨ taskId? task = some q)
    (hpending : s'.pendingSpawnTasks = s.pendingSpawnTasks ++ [task])
    (hworkers : s'.activeWorkers = s.activeWorkers) : RunningHeld s' := by
  intro q hq
  unfold Held
  rw [hpending, hworkers]
  rcases hrunning q hq with hold | hnew
  · rcases h q hold with ⟨other, hother, hid⟩ | hworker
    · exact .inl ⟨other, List.mem_append_left _ hother, hid⟩
    · exact .inr hworker
  · exact .inl ⟨task, List.mem_append_right _ (List.mem_singleton_self task), hnew⟩

theorem dispatch (hmove : DispatchMove b s s') (h : RunningHeld s) : RunningHeld s' := by
  cases hmove with
  | poll hpolled =>
      obtain ⟨_, hgraph, hpending, hworkers, _⟩ := polled_closes hpolled
      exact h.of_quiet (fun q hq => hgraph.taskStatus_of hq (by simp)) hpending hworkers
  | gate id =>
      exact h.of_quiet (fun q hq => (running_setStatus (by simp) hq).2) rfl rfl
  | tooDeep id =>
      exact h.of_quiet (fun q hq => (running_setStatus (by simp) hq).2) rfl rfl
  | spawnUnnamed node => exact h.queue (fun q => .inl) rfl rfl
  | spawnSub id => exact h
  | spawnWorker id node _ _ _ _ _ hnode =>
      refine h.queue (fun q hq => ?_) rfl rfl
      by_cases hid : q = id
      · exact .inr (hid ▸ s.taskGraph.keyed id node hnode)
      · left
        have hstatus := TaskGraph.taskStatus_setStatus s.taskGraph id q .running
        rw [if_neg hid] at hstatus
        exact hstatus ▸ hq

theorem finishes (hend : Finishes b s s') (h : RunningHeld s) : RunningHeld s' := by
  cases hend with
  | finish => exact h

/-- A worker goes, and all other tasks that run are held as before. -/
theorem release (h : RunningHeld s) {pid : AgentPid} {id : String}
    (hworker : s.activeWorkers.lookup pid = some id)
    (hpending : s'.pendingSpawnTasks = s.pendingSpawnTasks)
    (hworkers : s'.activeWorkers = s.activeWorkers.erase pid)
    (hrunning : ∀ q, s'.taskGraph.taskStatus q = some .running →
      s.taskGraph.taskStatus q = some .running ∧ (q = id → HeldWithout s pid id)) :
    RunningHeld s' := by
  intro q hq
  obtain ⟨hold, hself⟩ := hrunning q hq
  have hothers : ∀ other, other ≠ pid → s.activeWorkers.lookup other = some q →
      ∃ worker, s'.activeWorkers.lookup worker = some q := by
    intro other hne hother
    rw [hworkers]
    exact ⟨other, (AList.lookup_erase_ne hne).trans hother⟩
  unfold Held
  rw [hpending]
  by_cases hid : q = id
  · subst hid
    rcases hself rfl with hqueued | ⟨other, hne, hother⟩
    · exact .inl hqueued
    · exact .inr (hothers other hne hother)
  · rcases h q hold with hqueued | ⟨other, hother⟩
    · exact .inl hqueued
    · have hne : other ≠ pid := by
        rintro rfl
        exact hid (Option.some.inj (hother.symm.trans hworker))
      exact .inr (hothers other hne hother)

theorem released {pid : AgentPid} {reason : Reason} (hreleased : Released s pid reason s')
    (h : RunningHeld s)
    (hnormal : reason = .normal → ∀ id, s.activeWorkers.lookup pid = some id →
      s.taskGraph.taskStatus id = some .running → HeldWithout s pid id) : RunningHeld s' := by
  cases hreleased with
  | nobody => exact h
  | normal id hworker hreason =>
      refine h.release hworker rfl rfl fun q hq => ⟨hq, fun heq => ?_⟩
      exact hnormal hreason id hworker (heq ▸ hq)
  | retried id _ hworker =>
      refine h.release hworker rfl rfl fun q hq => ?_
      obtain ⟨hne, hold⟩ := running_setStatus (by simp) hq
      exact ⟨hold, fun heq => absurd heq hne⟩
  | failed id _ _ hworker =>
      refine h.release hworker rfl rfl fun q hq => ?_
      have hfailed := (TaskGraph.closes_failDependents _ id).taskStatus_of hq (by simp)
      obtain ⟨hne, hold⟩ := running_setStatus (by simp) hfailed
      exact ⟨hold, fun heq => absurd heq hne⟩

/-- The task at the head of the queue goes to its worker. -/
theorem answer (h : RunningHeld s) {childPid : AgentPid} {task : Json} {rest : List Json}
    {fallback : String} (hqueue : s.pendingSpawnTasks = task :: rest)
    (hforgets : ∀ id, s.activeWorkers.lookup childPid = some id →
      s.taskGraph.taskStatus id = some .running → HeldWithout s childPid id)
    (hgraph : s'.taskGraph = s.taskGraph) (hpending : s'.pendingSpawnTasks = rest)
    (hworkers : s'.activeWorkers =
      s.activeWorkers.insert childPid (extractTaskId task fallback)) : RunningHeld s' := by
  intro q hq
  rw [hgraph] at hq
  have hqueued : (∃ other ∈ s.pendingSpawnTasks, taskId? other = some q) → Held s' q := by
    rintro ⟨other, hother, hid⟩
    rw [hqueue] at hother
    rcases List.mem_cons.mp hother with rfl | hother
    · right
      refine ⟨childPid, ?_⟩
      rw [hworkers, AList.lookup_insert, extractTaskId, hid, Option.getD_some]
    · left
      rw [hpending]
      exact ⟨other, hother, hid⟩
  have hworker : ∀ other, other ≠ childPid → s.activeWorkers.lookup other = some q →
      Held s' q := by
    intro other hne hother
    right
    rw [hworkers]
    exact ⟨other, (AList.lookup_insert_ne hne).trans hother⟩
  rcases h q hq with hold | ⟨pid, hpid⟩
  · exact hqueued hold
  · by_cases hchild : pid = childPid
    · subst hchild
      rcases hforgets q hpid hq with hold | ⟨other, hne, hother⟩
      · exact hqueued hold
      · exact hworker other hne hother
    · exact hworker pid hchild hpid

theorem intake {op : OrchestratorOp} (htaken : Intake s op s') (h : RunningHeld s)
    (hforgets : ForgetsEnded s op) : RunningHeld s' := by
  cases htaken with
  | aside => exact h
  | result payload result =>
      refine h.of_quiet (fun q hq => ?_) rfl rfl
      cases hid : result.taskId with
      | none =>
          rw [hid] at hq
          exact hq
      | some id =>
          rw [hid] at hq
          exact running_markCompleted hq
  | goal payload =>
      intro q hq
      contradiction
  | resume => exact h
  | tasks correlationId result => exact h.of_quiet (fun q => running_addTasks) rfl rfl
  | answerNobody => exact h
  | answer childPid monitorRef task rest hqueue =>
      refine h.answer hqueue (fun id => hforgets childPid id ?_) rfl rfl rfl
      exact .inr ⟨by simp [hqueue], monitorRef, rfl⟩
  | gone _ pid reason hreports released hreleased =>
      have hreleasedHeld : RunningHeld released := by
        apply RunningHeld.released hreleased h
        rintro rfl id
        exact hforgets pid id (.inl hreports)
      exact hreleasedHeld

theorem step (h : RunningHeld s) {op : OrchestratorOp} (hforgets : ForgetsEnded s op) :
    RunningHeld (b.step s op) := by
  refine b.step_keeps_of_intake RunningHeld dispatch finishes ?_ h
  intro polled taken hpolled htaken hheld
  apply hheld.intake htaken
  -- The poll starts no task, and leaves the queue and the workers as they are.
  obtain ⟨_, hgraph, hpending, hworkers, _⟩ := polled_closes hpolled
  intro pid id hforgotten hworker hrunning
  unfold Forgets at hforgotten
  unfold HeldWithout
  rw [hpending] at hforgotten ⊢
  rw [hworkers] at hworker ⊢
  exact hforgets pid id hforgotten hworker (hgraph.taskStatus_of hrunning (by simp))

end RunningHeld

/-- In every run that forgets no worker whose task is still running, every task that is
running is queued, or a worker has it. -/
theorem running_held (b : OrchestratorBehavior) (args : Json) (loaded : Option Json)
    (approvals : ApprovalRegistry) (nextPid : AgentPid) (ops : List OrchestratorOp)
    (hforgets : Guarded b.step ForgetsEnded (b.init args loaded approvals nextPid) ops) :
    Throughout b.step RunningHeld (b.init args loaded approvals nextPid) ops := by
  have hstart : RunningHeld (b.init args loaded approvals nextPid) := by
    intro q hq
    have hnew : TaskGraph.new.taskStatus q ≠ some .running := by
      intro hnew
      contradiction
    obtain ⟨tasks, hgraph⟩ := b.init_taskGraph args loaded approvals nextPid
    rw [hgraph] at hq
    exact absurd (running_addTasks hq) hnew
  intro pre hpre
  exact Guarded.keeps hstart (fun s op h hop => h.step hop) (hforgets.shorten hpre)

/-- One task, and the worker that is spawned for it. -/
def oneWorkerOps : List OrchestratorOp :=
  [.message (.json goalMessage), decomposedInto [.obj [("task_id", .str "t")]],
    .message (.system (.spawnResult 7 none))]

/-- The worker crashes, and its task is ready for another one. -/
theorem running_held_crash :
    Throughout (plainWorkers 1 (.immediate 1)).step RunningHeld
      (idleOrchestration (plainWorkers 1 (.immediate 1)))
      (oneWorkerOps ++ [.message (.system (.down 1 7 (.custom "crash")))]) := by
  apply running_held
  have hquiet : ∀ s op, (∀ pid, ¬ Forgets s op pid) → ForgetsEnded s op :=
    fun s op hnone pid id hforgets => absurd hforgets (hnone pid)
  refine Guarded.cons (hquiet _ _ fun pid => ?_) (Guarded.cons (hquiet _ _ fun pid => ?_)
    (Guarded.cons ?_ (Guarded.cons (hquiet _ _ fun pid => ?_) Guarded.nil)))
  · simp [Forgets, reportsEnd]
  · simp [Forgets, reportsEnd, decomposedInto]
  · intro pid id _ hworker
    contradiction
  · simp [Forgets, reportsEnd]

/-- The worker ends normally without a result: its task stays as it is, and nobody has it. -/
theorem normal_end_not_held :
    ¬ Throughout (plainWorkers 1 (.immediate 1)).step RunningHeld
      (idleOrchestration (plainWorkers 1 (.immediate 1)))
      (oneWorkerOps ++ [.message (.system (.down 1 7 .normal))]) := by
  intro hheld
  rcases hheld _ List.prefix_rfl "t" (by decide) with ⟨task, htask, _⟩ | ⟨pid, hpid⟩
  · exact List.not_mem_nil htask
  · contradiction

end Zeptobeam
