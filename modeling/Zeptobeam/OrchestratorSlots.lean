/-
Slots: an orchestrator has never more workers than its concurrency allows, those whose Spawn
has not been answered yet included.
-/
import Zeptobeam.OrchestratorMoves

namespace Zeptobeam

open OrchestratorBehavior

namespace OrchestratorState

/-- The workers there are, and those that are on the way. -/
def slotsInUse (s : OrchestratorState) : Nat :=
  s.activeWorkers.entries.length + s.pendingSpawnTasks.length

/-- The cap; a concurrency of nothing still allows one worker. -/
def WithinSlots (b : OrchestratorBehavior) (s : OrchestratorState) : Prop :=
  s.slotsInUse ≤ max 1 b.maxConcurrency

variable {b : OrchestratorBehavior} {s s' : OrchestratorState}

theorem slotsInUse_congr (hworkers : s'.activeWorkers = s.activeWorkers)
    (hpending : s'.pendingSpawnTasks = s.pendingSpawnTasks) :
    s'.slotsInUse = s.slotsInUse := by
  unfold slotsInUse
  rw [hworkers, hpending]

/-- There is a slot for whoever may spawn. -/
theorem slot_free (hroom : s.canSpawnMore b.maxConcurrency) :
    s.slotsInUse < max 1 b.maxConcurrency := by
  unfold canSpawnMore at hroom
  rw [Bool.and_eq_true, decide_eq_true_eq, max_comm] at hroom
  exact hroom.2

/-- A Spawn takes a slot. -/
theorem WithinSlots.queue (hroom : s.canSpawnMore b.maxConcurrency) {task : Json}
    (hworkers : s'.activeWorkers = s.activeWorkers)
    (hpending : s'.pendingSpawnTasks = s.pendingSpawnTasks ++ [task]) :
    WithinSlots b s' := by
  have hfree := slot_free hroom
  have hlength : s'.pendingSpawnTasks.length = s.pendingSpawnTasks.length + 1 := by
    rw [hpending, List.length_append, List.length_singleton]
  unfold WithinSlots slotsInUse
  unfold slotsInUse at hfree
  rw [hworkers, hlength]
  omega

/-- A worker that is gone gives its slot back. -/
theorem slotsInUse_erase (s : OrchestratorState) (pid : AgentPid) :
    { s with activeWorkers := s.activeWorkers.erase pid }.slotsInUse ≤ s.slotsInUse := by
  have hle : (s.activeWorkers.erase pid).entries.length ≤ s.activeWorkers.entries.length :=
    (List.kerase_sublist pid s.activeWorkers.entries).length_le
  exact Nat.add_le_add_right hle s.pendingSpawnTasks.length

/-- The answer to a Spawn hands the slot of the task over to its worker. -/
theorem slotsInUse_answered (s : OrchestratorState) (childPid : AgentPid) :
    (answered s childPid).slotsInUse ≤ s.slotsInUse := by
  unfold answered
  cases hpending : s.pendingSpawnTasks with
  | nil => exact (slotsInUse_congr rfl rfl).le
  | cons task rest =>
      have hinsert : ∀ taskId, (s.activeWorkers.insert childPid taskId).entries.length ≤
          s.activeWorkers.entries.length + 1 :=
        fun taskId => Nat.succ_le_succ
          (List.kerase_sublist childPid s.activeWorkers.entries).length_le
      have hactive := hinsert (extractTaskId task s!"task-{childPid}")
      unfold slotsInUse
      rw [hpending, List.length_cons]
      dsimp only [log]
      omega

theorem WithinSlots.move {touched : String → Prop} (hmove : OrchestratorMove b touched s s')
    (h : WithinSlots b s) : WithinSlots b s' := by
  cases hmove with
  | aside _ hpending hworkers _ => exact (slotsInUse_congr hworkers hpending).trans_le h
  | close _ _ hpending hworkers _ => exact (slotsInUse_congr hworkers hpending).trans_le h
  | release pid => exact (slotsInUse_erase s pid).trans h
  | spawnUnnamed node hroom => exact .queue hroom rfl rfl
  | spawnWorker id node _ _ hroom => exact .queue hroom rfl rfl
  | complete | retry | gate | spawnSub | finish => exact h

theorem WithinSlots.step (h : WithinSlots b s) (op : OrchestratorOp) :
    WithinSlots b (b.step s op) := by
  refine b.step_keeps (WithinSlots b) WithinSlots.move ?_ ?_ ?_ h
  · intro s payload _ _ _
    exact Nat.zero_le _
  · exact fun _ h => h
  · intro s childPid _ _ h
    exact (slotsInUse_answered s childPid).trans h

end OrchestratorState

/-- In every state that an orchestrator reaches, its workers and the tasks that wait for one
are no more than its concurrency, or one. -/
theorem active_add_pending_le (b : OrchestratorBehavior) (args : Json) (loaded : Option Json)
    (approvals : ApprovalRegistry) (nextPid : AgentPid) (ops : List OrchestratorOp) :
    (b.run (b.init args loaded approvals nextPid) ops).activeWorkers.entries.length +
      (b.run (b.init args loaded approvals nextPid) ops).pendingSpawnTasks.length ≤
      max 1 b.maxConcurrency := by
  have hstart : (b.init args loaded approvals nextPid).WithinSlots b := Nat.zero_le _
  exact b.run_keeps (OrchestratorState.WithinSlots b) (fun op h => h.step op) hstart ops

end Zeptobeam
