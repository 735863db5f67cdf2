/-
Checkpoints: an orchestrator that is started from the checkpoint of another one has the work
that was left, exactly when all of it was ready or under way and nothing depended on anything.
-/
import Zeptobeam.OrchestratorSteps
import Zeptobeam.OrchestratorSpawns
import Zeptobeam.TaskGraphReload

namespace Zeptobeam

open OrchestratorBehavior

/-- A task that nothing is left to be done for. -/
def TaskStatus.Ended (status : TaskStatus) : Prop :=
  status = .completed ∨ status = .failed ∨ status = .skipped

instance (status : TaskStatus) : Decidable status.Ended :=
  inferInstanceAs (Decidable (_ ∨ _ ∨ _))

/-- The tasks that have not ended. -/
def remaining (s : OrchestratorState) (id : String) : Option TaskNode :=
  (s.taskGraph.lookup id).filter fun node => ¬ node.status.Ended

/-- What a worker has, or is spawned for, under an id. -/
def underWay (s : OrchestratorState) (id : String) : Option Json :=
  (s.inflightTasks.lookup id).or (TaskGraph.lastTask s.pendingSpawnTasks id)

/-- What a store has under a key after these calls. -/
def storedUnder (key : String) (calls : List CheckpointCall) : Option Json :=
  calls.foldl (fun stored call => match call with
    | .save other checkpoint => if other = key then some checkpoint else stored
    | .delete other => if other = key then none else stored) none

/-- An orchestrator that starts after another one has kept its checkpoint, with the same
key. -/
def OrchestratorBehavior.resumed (b : OrchestratorBehavior) (s : OrchestratorState)
    (args : Json) (approvals : ApprovalRegistry) (nextPid : AgentPid) : OrchestratorState :=
  b.init args (storedUnder s.checkpointKey (b.persistCheckpoint s).checkpointCalls) approvals
    nextPid

/-- The work that was left is left, and can be dispatched. -/
structure PreservesWork (s resumed : OrchestratorState) : Prop where
  tasks : ∀ id, (resumed.taskGraph.lookup id).map (fun node => (node.task, node.dependsOn)) =
    (remaining s id).map fun node => (node.task, node.dependsOn)
  ready : ∀ id, resumed.taskGraph.taskStatus id = some .ready ↔
    s.taskGraph.taskStatus id = some .ready ∨ (underWay s id).isSome
  waiting : ∀ id node, resumed.taskGraph.lookup id = some node → node.status ≠ .ready →
    ∀ dep ∈ node.dependsOn, (resumed.taskGraph.lookup dep).isSome
  dispatching : resumed.decompositionDone = true ∧ resumed.awaitingDecomposition = false
  goal : resumed.goal = s.goal
  results : resumed.results = s.results

/-- All that is left is ready or under way, and depends on nothing; and what is under way is
left. -/
structure Checkpointable (s : OrchestratorState) : Prop where
  begun : ∀ id node, remaining s id = some node →
    node.status = .ready ∨ (underWay s id).isSome
  free : ∀ id node, remaining s id = some node → node.dependsOn = []
  known : ∀ id task, underWay s id = some task →
    ∃ node, remaining s id = some node ∧ node.task = task

/-! ## Bookkeeping -/

/-- The graph is in order, and what is under way has its id. -/
structure Booked (s : OrchestratorState) : Prop where
  filed : s.taskGraph.Filed
  queued : ∀ task ∈ s.pendingSpawnTasks, taskId? task ≠ none
  working : ∀ id task, s.inflightTasks.lookup id = some task → taskId? task = some id

namespace Booked

variable {b : OrchestratorBehavior} {s s' : OrchestratorState}

theorem polled (hpolled : Polled s s') (h : Booked s) : Booked s' := by
  obtain ⟨taskGraph, approvals, decisions, hclosed, rfl⟩ := polled_eq hpolled
  exact ⟨h.filed.of_sameTasks hclosed.sameTasks hclosed.insertionOrder, h.queued, h.working⟩

theorem spawn (h : Booked s) {id : String} {node : TaskNode}
    (hnode : s.taskGraph.lookup id = some node) (hfiled : s'.taskGraph.Filed)
    (hpending : s'.pendingSpawnTasks = s.pendingSpawnTasks ++ [node.task])
    (hinflight : s'.inflightTasks = s.inflightTasks) : Booked s' := by
  refine ⟨hfiled, fun task htask => ?_, fun q task hworker => ?_⟩
  · rw [hpending] at htask
    rcases List.mem_append.mp htask with hold | hnew
    · exact h.queued task hold
    · obtain rfl := List.mem_singleton.mp hnew
      rw [s.taskGraph.keyed id node hnode]
      exact Option.some_ne_none id
  · rw [hinflight] at hworker
    exact h.working q task hworker

theorem dispatch (hmove : DispatchMove b s s') (h : Booked s) : Booked s' := by
  cases hmove with
  | poll hpolled => exact h.polled hpolled
  | gate => exact ⟨h.filed.setStatus _ _, h.queued, h.working⟩
  | tooDeep => exact ⟨h.filed.setStatus _ _, h.queued, h.working⟩
  | spawnUnnamed node _ _ _ hnode => exact h.spawn hnode h.filed rfl rfl
  | spawnSub => exact ⟨h.filed, h.queued, h.working⟩
  | spawnWorker id node _ _ _ _ _ hnode => exact h.spawn hnode (h.filed.setStatus _ _) rfl rfl

theorem finishes (hend : Finishes b s s') (h : Booked s) : Booked s' := by
  cases hend with
  | finish => exact ⟨h.filed, h.queued, h.working⟩

/-- Some entry of the tasks in flight is gone. -/
theorem working_erase (h : Booked s) (gone id : String) (task : Json)
    (hworker : (s.inflightTasks.erase gone).lookup id = some task) :
    taskId? task = some id := by
  by_cases heq : id = gone
  · rw [heq, AList.lookup_erase] at hworker
    contradiction
  · rw [AList.lookup_erase_ne heq] at hworker
    exact h.working id task hworker

theorem released {pid : AgentPid} {reason : Reason} (hreleased : Released s pid reason s')
    (h : Booked s) : Booked s' := by
  cases hreleased with
  | nobody => exact h
  | normal id => exact ⟨h.filed, h.queued, h.working_erase id⟩
  | retried id => exact ⟨h.filed.setStatus _ _, h.queued, h.working_erase id⟩
  | failed id =>
      have hclosed := (TaskGraph.closes_markFailed s.taskGraph id).trans
        (TaskGraph.closes_failDependents _ id)
      exact ⟨h.filed.of_sameTasks hclosed.sameTasks hclosed.insertionOrder, h.queued,
        h.working_erase id⟩

theorem intake {op : OrchestratorOp} (htaken : Intake s op s') (h : Booked s) : Booked s' := by
  cases htaken with
  | aside => exact ⟨h.filed, h.queued, h.working⟩
  | result payload result =>
      cases hid : result.taskId with
      | none => exact ⟨h.filed, h.queued, h.working⟩
      | some id => exact ⟨h.filed.markCompleted id, h.queued, h.working_erase id⟩
  | goal =>
      exact ⟨.new, fun task htask => by contradiction, fun id task hworker => by contradiction⟩
  | resume => exact ⟨h.filed, h.queued, h.working⟩
  | tasks => exact ⟨h.filed.addTasks _, h.queued, h.working⟩
  | answerNobody => exact ⟨h.filed, h.queued, h.working⟩
  | answer childPid monitorRef task rest hqueue =>
      have hnamed := h.queued task (hqueue ▸ List.mem_cons_self)
      obtain ⟨taskId, hid⟩ := Option.ne_none_iff_exists'.mp hnamed
      refine ⟨h.filed, fun other hother => ?_, fun id other hworker => ?_⟩
      · exact h.queued other (hqueue ▸ List.mem_cons_of_mem task hother)
      · dsimp only [OrchestratorState.log] at hworker
        rw [extractTaskId, hid, Option.getD_some] at hworker
        by_cases heq : id = taskId
        · rw [heq, AList.lookup_insert] at hworker
          rw [← Option.some.inj hworker, heq]
          exact hid
        · rw [AList.lookup_insert_ne heq] at hworker
          exact h.working id other hworker
  | gone _ pid reason hreports released hreleased =>
      have hbooked : Booked released := h.released hreleased
      exact ⟨hbooked.filed, hbooked.queued, hbooked.working⟩

theorem step (h : Booked s) (op : OrchestratorOp) : Booked (b.step s op) :=
  b.step_keeps_of_intake Booked dispatch finishes (fun _ htaken => intake htaken) h

theorem run (b : OrchestratorBehavior) (args : Json) (loaded : Option Json)
    (approvals : ApprovalRegistry) (nextPid : AgentPid) (ops : List OrchestratorOp) :
    Booked (b.run (b.init args loaded approvals nextPid) ops) := by
  have hstart : Booked (b.init args loaded approvals nextPid) := by
    refine ⟨?_, fun task htask => by contradiction, fun id task hworker => by contradiction⟩
    obtain ⟨tasks, hgraph⟩ := b.init_taskGraph args loaded approvals nextPid
    rw [hgraph]
    exact TaskGraph.Filed.new.addTasks tasks
  exact b.run_keeps Booked (fun op h => h.step op) hstart ops

end Booked

/-! ## The checkpoint -/

/-- The tasks that a checkpoint has. -/
def checkpointTasks (s : OrchestratorState) : List Json :=
  s.taskGraph.readyTasks ++ s.pendingSpawnTasks ++ s.inflightTasks.entries.map Sigma.snd

section

variable {b : OrchestratorBehavior} {s : OrchestratorState}

theorem storedUnder_persistCheckpoint (hstore : b.checkpointStore = true) :
    storedUnder s.checkpointKey (b.persistCheckpoint s).checkpointCalls =
      some (.obj [("completed_results", .arr s.results), ("goal", s.goal),
        ("pending_tasks", .arr (checkpointTasks s))]) := by
  unfold persistCheckpoint storedUnder
  rw [if_pos hstore, List.foldl_concat]
  exact if_pos rfl

theorem resumed_eq (hstore : b.checkpointStore = true) (args : Json)
    (approvals : ApprovalRegistry) (nextPid : AgentPid) :
    (b.resumed s args approvals nextPid).taskGraph =
        (TaskGraph.new.addTasks (checkpointTasks s)).2 ∧
      ((b.resumed s args approvals nextPid).decompositionDone = true ∧
        (b.resumed s args approvals nextPid).awaitingDecomposition = false) ∧
      (b.resumed s args approvals nextPid).goal = s.goal ∧
      (b.resumed s args approvals nextPid).results = s.results := by
  unfold resumed
  rw [storedUnder_persistCheckpoint hstore]
  unfold init
  rw [if_pos hstore]
  exact ⟨rfl, ⟨rfl, rfl⟩, rfl, rfl⟩

namespace Booked

theorem lastTask_inflight (h : Booked s) (id : String) :
    TaskGraph.lastTask (s.inflightTasks.entries.map Sigma.snd) id =
      s.inflightTasks.lookup id := by
  have hentry : ∀ task ∈ s.inflightTasks.entries.map Sigma.snd, taskId? task = some id →
      s.inflightTasks.lookup id = some task := by
    intro task htask hid
    obtain ⟨⟨key, _⟩, hmem, rfl⟩ := List.mem_map.mp htask
    have hkey := AList.mem_lookup_iff.mpr hmem
    cases hid.symm.trans (h.working key _ hkey)
    exact hkey
  cases hlookup : s.inflightTasks.lookup id with
  | some task =>
      apply TaskGraph.lastTask_eq_some (List.mem_map_of_mem (AList.mem_lookup_iff.mp hlookup))
        (h.working id task hlookup)
      intro other hother hid
      exact Option.some.inj ((hentry other hother hid).symm.trans hlookup)
  | none =>
      apply TaskGraph.lastTask_eq_none.mpr
      intro hmem
      obtain ⟨task, htask, hid⟩ := List.mem_filterMap.mp hmem
      rw [hentry task htask hid] at hlookup
      contradiction

/-- What is under way comes after what is ready. -/
theorem lastTask_checkpoint (h : Booked s) (id : String) :
    TaskGraph.lastTask (checkpointTasks s) id =
      (underWay s id).or (TaskGraph.lastTask s.taskGraph.readyTasks id) := by
  unfold checkpointTasks underWay
  rw [TaskGraph.lastTask_append, TaskGraph.lastTask_append, h.lastTask_inflight,
    Option.or_assoc]

theorem lastTask_ready (h : Booked s) {id : String} {task : Json} :
    TaskGraph.lastTask s.taskGraph.readyTasks id = some task ↔
      ∃ node, s.taskGraph.lookup id = some node ∧ node.status = .ready ∧ node.task = task := by
  have hready : ∀ other ∈ s.taskGraph.readyTasks, taskId? other = some id →
      ∃ node, s.taskGraph.lookup id = some node ∧ node.status = .ready ∧ node.task = other := by
    intro other hother hid
    obtain ⟨q, node, hq, hnode⟩ := TaskGraph.mem_readyTasks hother
    cases hid.symm.trans hq
    exact ⟨node, hnode⟩
  constructor
  · intro hlast
    obtain ⟨hmem, hid⟩ := TaskGraph.lastTask_mem hlast
    exact hready task hmem hid
  · rintro ⟨node, hnode, hstatus, rfl⟩
    apply TaskGraph.lastTask_eq_some
      (h.filed.mem_readyTasks_iff.mpr ⟨id, node, hnode, hstatus, rfl⟩)
      (s.taskGraph.keyed id node hnode)
    intro other hother hid
    obtain ⟨found, hfound, _, rfl⟩ := hready other hother hid
    rw [Option.some.inj (hfound.symm.trans hnode)]

theorem isSome_lastTask (h : Booked s) (id : String) :
    (TaskGraph.lastTask (checkpointTasks s) id).isSome ↔
      s.taskGraph.taskStatus id = some .ready ∨ (underWay s id).isSome := by
  rw [h.lastTask_checkpoint, Option.isSome_or, Bool.or_eq_true, or_comm]
  apply or_congr_left
  rw [Option.isSome_iff_exists]
  constructor
  · rintro ⟨task, htask⟩
    obtain ⟨node, hnode, hready, _⟩ := h.lastTask_ready.mp htask
    exact Option.map_eq_some_iff.mpr ⟨node, hnode, hready⟩
  · intro hstatus
    obtain ⟨node, hnode, hready⟩ := Option.map_eq_some_iff.mp hstatus
    exact ⟨node.task, h.lastTask_ready.mpr ⟨node, hnode, hready, rfl⟩⟩

theorem named (h : Booked s) (task : Json) (htask : task ∈ checkpointTasks s) :
    taskId? task ≠ none := by
  rcases List.mem_append.mp htask with htask | hworking
  · rcases List.mem_append.mp htask with hready | hqueued
    · obtain ⟨id, _, hid, _⟩ := TaskGraph.mem_readyTasks hready
      rw [hid]
      exact Option.some_ne_none id
    · exact h.queued task hqueued
  · obtain ⟨⟨id, _⟩, hmem, rfl⟩ := List.mem_map.mp hworking
    rw [h.working id _ (AList.mem_lookup_iff.mpr hmem)]
    exact Option.some_ne_none id

/-! ## Resuming -/

theorem checkpointable (h : Booked s) (hstore : b.checkpointStore = true) {args : Json}
    {approvals : ApprovalRegistry} {nextPid : AgentPid}
    (hpreserves : PreservesWork s (b.resumed s args approvals nextPid)) : Checkpointable s := by
  have hloaded : ∀ id found, (b.resumed s args approvals nextPid).taskGraph.lookup id =
      some found → (TaskGraph.lastTask (checkpointTasks s) id).map .ofTask = some found := by
    intro id found hfound
    rw [(resumed_eq hstore args approvals nextPid).1] at hfound
    rcases TaskGraph.lookup_load h.named with hnone | hall
    · rw [hnone id] at hfound
      contradiction
    · rw [← hall id]
      exact hfound
  -- Whatever the checkpoint has last under an id is ready when it is resumed.
  have hlast : ∀ id task, TaskGraph.lastTask (checkpointTasks s) id = some task →
      ∃ node, remaining s id = some node ∧ node.task = task ∧ node.dependsOn = [] := by
    intro id task htask
    have hsome := (h.isSome_lastTask id).mp (htask ▸ rfl)
    obtain ⟨found, hfound, hready⟩ :=
      Option.map_eq_some_iff.mp ((hpreserves.ready id).mpr hsome)
    have htasks := hpreserves.tasks id
    have hofTask := hloaded id found hfound
    rw [htask] at hofTask
    cases hofTask
    rw [hfound] at htasks
    obtain ⟨node, hnode, heq⟩ := Option.map_eq_some_iff.mp htasks.symm
    obtain ⟨hnodeTask, hdeps⟩ := Prod.mk.inj heq
    exact ⟨node, hnode, hnodeTask, hdeps.trans (TaskGraph.ready_ofTask.mp hready)⟩
  have hleft : ∀ id node, remaining s id = some node →
      ∃ task, TaskGraph.lastTask (checkpointTasks s) id = some task := by
    intro id node hnode
    have htasks := hpreserves.tasks id
    rw [hnode] at htasks
    obtain ⟨found, hfound, _⟩ := Option.map_eq_some_iff.mp htasks
    obtain ⟨task, htask, _⟩ := Option.map_eq_some_iff.mp (hloaded id found hfound)
    exact ⟨task, htask⟩
  refine ⟨fun id node hnode => ?_, fun id node hnode => ?_, fun id task htask => ?_⟩
  · obtain ⟨task, htask⟩ := hleft id node hnode
    apply ((h.isSome_lastTask id).mp (htask ▸ rfl)).imp_left
    intro hstatus
    obtain ⟨found, hfound, hready⟩ := Option.map_eq_some_iff.mp hstatus
    obtain ⟨hlookup, _⟩ := Option.filter_eq_some_iff.mp hnode
    rwa [Option.some.inj (hlookup.symm.trans hfound)]
  · obtain ⟨task, htask⟩ := hleft id node hnode
    obtain ⟨found, hfound, _, hdeps⟩ := hlast id task htask
    rwa [Option.some.inj (hnode.symm.trans hfound)]
  · have hcheckpoint := h.lastTask_checkpoint id
    rw [htask, Option.some_or] at hcheckpoint
    obtain ⟨node, hnode, heq, _⟩ := hlast id task hcheckpoint
    exact ⟨node, hnode, heq⟩

/-- What the checkpoint has under an id is a task that is left, and free. -/
theorem left_of_lastTask (h : Booked s) (hwhole : Checkpointable s) {id : String} {task : Json}
    (htask : TaskGraph.lastTask (checkpointTasks s) id = some task) :
    ∃ node, remaining s id = some node ∧ node.task = task ∧ parseDependsOn task = [] := by
  have hknown : ∃ node, remaining s id = some node ∧ node.task = task := by
    rw [h.lastTask_checkpoint] at htask
    cases hway : underWay s id with
    | some other =>
        rw [hway, Option.some_or] at htask
        exact hwhole.known id task (hway.trans htask)
    | none =>
        rw [hway, Option.none_or] at htask
        obtain ⟨node, hnode, hready, heq⟩ := h.lastTask_ready.mp htask
        refine ⟨node, Option.filter_eq_some_iff.mpr ⟨hnode, ?_⟩, heq⟩
        simp [TaskStatus.Ended, hready]
  obtain ⟨node, hnode, rfl⟩ := hknown
  refine ⟨node, hnode, rfl, ?_⟩
  rw [← h.filed.parsed id node (Option.filter_eq_some_iff.mp hnode).1]
  exact hwhole.free id node hnode

theorem lookup_resumed (h : Booked s) (hstore : b.checkpointStore = true)
    (hwhole : Checkpointable s) (args : Json) (approvals : ApprovalRegistry)
    (nextPid : AgentPid) (id : String) :
    (b.resumed s args approvals nextPid).taskGraph.lookup id =
      (TaskGraph.lastTask (checkpointTasks s) id).map .ofTask := by
  rw [(resumed_eq hstore args approvals nextPid).1]
  apply TaskGraph.lookup_load_of_free h.named
  intro q task htask
  obtain ⟨_, _, _, hfree⟩ := h.left_of_lastTask hwhole htask
  exact hfree

theorem tasks_resumed (h : Booked s) (hwhole : Checkpointable s) (id : String) :
    ((TaskGraph.lastTask (checkpointTasks s) id).map TaskNode.ofTask).map
        (fun node => (node.task, node.dependsOn)) =
      (remaining s id).map fun node => (node.task, node.dependsOn) := by
  cases htask : TaskGraph.lastTask (checkpointTasks s) id with
  | some task =>
      obtain ⟨node, hnode, rfl, hfree⟩ := h.left_of_lastTask hwhole htask
      rw [hnode, Option.map_some, Option.map_some, Option.map_some, hwhole.free id node hnode]
      exact congrArg some (Prod.ext rfl hfree)
  | none =>
      cases hnode : remaining s id with
      | none => rfl
      | some node =>
          have hbegun : s.taskGraph.taskStatus id = some .ready ∨ (underWay s id).isSome := by
            apply (hwhole.begun id node hnode).imp_left
            intro hstatus
            exact Option.map_eq_some_iff.mpr
              ⟨node, (Option.filter_eq_some_iff.mp hnode).1, hstatus⟩
          have hsome := (h.isSome_lastTask id).mpr hbegun
          rw [htask] at hsome
          contradiction

theorem preservesWork (h : Booked s) (hstore : b.checkpointStore = true)
    (hwhole : Checkpointable s) (args : Json) (approvals : ApprovalRegistry)
    (nextPid : AgentPid) : PreservesWork s (b.resumed s args approvals nextPid) := by
  obtain ⟨_, hdispatching, hgoal, hresults⟩ :=
    resumed_eq (s := s) hstore args approvals nextPid
  have hlookup := h.lookup_resumed hstore hwhole args approvals nextPid
  have hready : ∀ id node, (b.resumed s args approvals nextPid).taskGraph.lookup id = some node →
      node.status = .ready := by
    intro id node hnode
    rw [hlookup] at hnode
    obtain ⟨task, htask, rfl⟩ := Option.map_eq_some_iff.mp hnode
    obtain ⟨_, _, _, hfree⟩ := h.left_of_lastTask hwhole htask
    exact TaskGraph.ready_ofTask.mpr hfree
  refine ⟨fun id => ?_, fun id => ?_, fun id node hnode hwaits => ?_, ?_, ?_, ?_⟩
  · rw [hlookup]
    exact h.tasks_resumed hwhole id
  · rw [← h.isSome_lastTask]
    constructor
    · intro hstatus
      obtain ⟨node, hnode, _⟩ := Option.map_eq_some_iff.mp hstatus
      rw [hlookup] at hnode
      rw [← Option.isSome_map, hnode]
      rfl
    · intro hsome
      obtain ⟨task, htask⟩ := Option.isSome_iff_exists.mp hsome
      have hnode := hlookup id
      rw [htask, Option.map_some] at hnode
      exact Option.map_eq_some_iff.mpr ⟨_, hnode, hready id _ hnode⟩
  · exact absurd (hready id node hnode) hwaits
  · exact hdispatching
  · exact hgoal
  · exact hresults

end Booked

end

/-- In every state that a run reaches, the work that is left survives a restart from the
checkpoint exactly when all of it is ready or under way, and depends on nothing. -/
theorem resumed_preserves_iff (b : OrchestratorBehavior) (hstore : b.checkpointStore = true)
    (args : Json) (loaded : Option Json) (approvals : ApprovalRegistry) (nextPid : AgentPid)
    (ops : List OrchestratorOp) (args' : Json) (approvals' : ApprovalRegistry)
    (nextPid' : AgentPid) :
    PreservesWork (b.run (b.init args loaded approvals nextPid) ops)
        (b.resumed (b.run (b.init args loaded approvals nextPid) ops) args' approvals'
          nextPid') ↔
      Checkpointable (b.run (b.init args loaded approvals nextPid) ops) := by
  have hbooked := Booked.run b args loaded approvals nextPid ops
  exact ⟨hbooked.checkpointable hstore,
    fun hwhole => hbooked.preservesWork hstore hwhole args' approvals' nextPid'⟩

/-- Workers whose orchestrator keeps checkpoints. -/
def storedWorkers : OrchestratorBehavior :=
  { plainWorkers 1 .none with checkpointStore := true }

def twoFreeOps : List OrchestratorOp :=
  [.message (.json goalMessage),
    decomposedInto [.obj [("task_id", .str "t")], .obj [("task_id", .str "u")]],
    .message (.system (.spawnResult 7 none))]

/-- A task that its worker has, and another one that is ready. -/
theorem resumed_preserves_two :
    PreservesWork (storedWorkers.run (idleOrchestration storedWorkers) twoFreeOps)
      (storedWorkers.resumed (storedWorkers.run (idleOrchestration storedWorkers) twoFreeOps)
        .null .new 1) := by
  apply (resumed_preserves_iff storedWorkers rfl .null none .new 1 twoFreeOps .null .new 1).mpr
  have hids : ∀ id node, remaining
      (storedWorkers.run (storedWorkers.init .null none .new 1) twoFreeOps) id = some node →
      id = "t" ∨ id = "u" := by
    intro id node hnode
    have hentry := AList.mem_lookup_iff.mp (Option.filter_eq_some_iff.mp hnode).1
    have hid := List.mem_map_of_mem (f := Sigma.fst) hentry
    have hkeys : (storedWorkers.run (storedWorkers.init .null none .new 1)
        twoFreeOps).taskGraph.tasks.entries.map Sigma.fst = ["t", "u"] := by
      decide
    rw [hkeys] at hid
    simpa using hid
  refine ⟨fun id node hnode => ?_, fun id node hnode => ?_, fun id task htask => ?_⟩
  · rcases hids id node hnode with rfl | rfl
    · exact .inr rfl
    · left
      cases hnode
      rfl
  · rcases hids id node hnode with rfl | rfl
    · cases hnode
      rfl
    · cases hnode
      rfl
  · by_cases hid : id = "t"
    · subst hid
      cases htask
      exact ⟨_, rfl, rfl⟩
    · have hinflight : (storedWorkers.run (storedWorkers.init .null none .new 1)
          twoFreeOps).inflightTasks = AList.insert "t" (.obj [("task_id", .str "t")]) ∅ := rfl
      unfold underWay at htask
      rw [hinflight, AList.lookup_insert_ne hid] at htask
      contradiction

/-- A task that waits for another one is lost. -/
theorem waiting_lost :
    ¬ PreservesWork
      (storedWorkers.run (idleOrchestration storedWorkers)
        [.message (.json goalMessage),
          decomposedInto [.obj [("task_id", .str "t")],
            .obj [("depends_on", .arr [.str "t"]), ("task_id", .str "u")]]])
      (storedWorkers.resumed
        (storedWorkers.run (idleOrchestration storedWorkers)
          [.message (.json goalMessage),
            decomposedInto [.obj [("task_id", .str "t")],
              .obj [("depends_on", .arr [.str "t"]), ("task_id", .str "u")]]])
        .null .new 1) := by
  intro hpreserves
  have hlost := hpreserves.tasks "u"
  contradiction

end Zeptobeam
