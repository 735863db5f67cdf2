/-
Completion: an orchestration is announced to be complete only when all of it has ended, and
once, as long as nothing that dispatches comes after the announcement.
-/
import Zeptobeam.OrchestratorSteps
import Zeptobeam.OrchestratorSpawns
import Mathlib.Data.List.Infix

namespace Zeptobeam

open OrchestratorBehavior

/-- How often the requester was told that the orchestration is complete. -/
def announcements (events : List OrchestratorEvent) : Nat :=
  events.countP fun
    | .finished (some _) => true
    | _ => false

/-- Every task has ended, and no worker is there or on the way. -/
structure AllEnded (s : OrchestratorState) : Prop where
  tasks : ∀ id status, s.taskGraph.taskStatus id = some status →
    status = .completed ∨ status = .failed ∨ status = .skipped
  spawns : s.pendingSpawnTasks = []
  workers : s.activeWorkers.entries = []

/-- A step that does not dispatch: the progress of a worker, the result of one that is told
to shut down, and what the orchestrator does not handle. -/
def Quiet : OrchestratorOp → Prop
  | .message (.json payload) => typeOf payload = some "worker_progress" ∨
      ∃ result, parseWorkerResult payload = some result ∧ result.workerPid ≠ none
  | .message (.system (.ioResponse _ _)) => False
  | .message (.system (.spawnResult _ _)) => False
  | .message (.system (.down _ _ _)) => False
  | .message _ => True
  | .exit _ _ => False
  | .approvals _ => True
  | .pidsDrawn _ => True

theorem announcements_append (events new : List OrchestratorEvent) :
    announcements (events ++ new) = announcements events + announcements new :=
  List.countP_append

theorem announcements_decided (decisions : List (String × ApprovalDecision)) :
    announcements (decisions.map fun d => .decided d.1 d.2) = 0 := by
  induction decisions with
  | nil => rfl
  | cons d rest ih => exact ih

/-! ## What a step announces -/

theorem allEnded_of_isComplete {s : OrchestratorState} (h : s.isComplete = true) :
    AllEnded s := by
  simp only [OrchestratorState.isComplete, Bool.and_eq_true, List.isEmpty_iff,
    TaskGraph.isComplete, List.all_eq_true] at h
  obtain ⟨⟨⟨_, htasks⟩, hspawns⟩, hworkers⟩ := h
  refine ⟨fun id status hstatus => ?_, hspawns, hworkers⟩
  obtain ⟨node, hnode, rfl⟩ := Option.map_eq_some_iff.mp hstatus
  have hended := htasks ⟨id, node⟩ (AList.mem_lookup_iff.mp hnode)
  simp only [Bool.or_eq_true, decide_eq_true_eq] at hended
  exact or_assoc.mp hended

variable {b : OrchestratorBehavior} {s s' : OrchestratorState}

theorem announcements_polled (h : Polled s s') :
    announcements s'.trace = announcements s.trace := by
  obtain ⟨decisions, _, _, _, htrace⟩ := polled_closes h
  rw [htrace, announcements_append, announcements_decided, Nat.add_zero]

theorem announcements_dispatch (h : DispatchMove b s s') :
    announcements s'.trace = announcements s.trace := by
  cases h with
  | poll hpolled => exact announcements_polled hpolled
  | gate | tooDeep => rfl
  | spawnUnnamed | spawnSub | spawnWorker => exact announcements_append _ _

theorem announcements_intake {op : OrchestratorOp} (h : Intake s op s') :
    announcements s'.trace = announcements s.trace := by
  cases h with
  | gone _ pid reason _ released hreleased =>
      cases hreleased with
      | nobody | normal | failed => rfl
      | retried => exact announcements_append _ _
  | answerNobody | answer => exact announcements_append _ _
  | aside | result | goal | resume | tasks => rfl

/-- Dispatching announces nothing, or it announces the end once. -/
theorem announcements_dispatches (h : Dispatches b s s') :
    announcements s'.trace = announcements s.trace ∨
      (announcements s'.trace = announcements s.trace + 1 ∧ AllEnded s') := by
  obtain ⟨next, hmoves, hends⟩ := h
  have hnext : announcements next.trace = announcements s.trace := by
    clear hends
    induction hmoves with
    | refl => rfl
    | tail _ hlast ih => exact (announcements_dispatch hlast).trans ih
  rcases hends with rfl | hend
  · exact .inl hnext
  · cases hend with
    | finish checkpointCalls _ hcomplete =>
        have hended : AllEnded ({ next with checkpointCalls }.log (.finished next.requester)) :=
          allEnded_of_isComplete hcomplete
        have hcount := announcements_append next.trace [.finished next.requester]
        rw [hnext] at hcount
        cases hrequester : next.requester with
        | none =>
            rw [hrequester] at hcount
            exact .inl hcount
        | some requester =>
            rw [hrequester] at hcount
            exact .inr ⟨hcount, hrequester ▸ hended⟩

theorem announcements_step (s : OrchestratorState) (op : OrchestratorOp) :
    announcements (b.step s op).trace = announcements s.trace ∨
      (announcements (b.step s op).trace = announcements s.trace + 1 ∧
        AllEnded (b.step s op)) := by
  obtain ⟨polled, taken, hpolled, htaken, hdispatches⟩ := b.step_intake s op
  have hbefore := (announcements_intake htaken).trans (announcements_polled hpolled)
  rw [← hbefore]
  exact announcements_dispatches hdispatches

theorem announcements_quiet {op : OrchestratorOp} (hquiet : Quiet op) :
    announcements (b.step s op).trace = announcements s.trace := by
  have hpolled := announcements_polled (b.pollApprovalRegistry_polled s)
  cases op with
  | exit => contradiction
  | approvals | pidsDrawn => rfl
  | message msg =>
      rw [← hpolled]
      unfold step handleMessage
      generalize b.pollApprovalRegistry s = polled
      dsimp only
      split
      · rename_i payload
        unfold handleJson
        split
        · obtain ⟨partialResults, hprogress⟩ := handleProgress_eq polled payload
          rw [hprogress]
        · rename_i hprogress
          obtain ⟨result, hresult, hworker⟩ := hquiet.resolve_left hprogress
          obtain ⟨workerPid, hpid⟩ := Option.ne_none_iff_exists'.mp hworker
          rw [hresult]
          unfold handleResult
          dsimp only
          rw [hpid]
          cases result.taskId with
          | none =>
              obtain ⟨checkpointCalls, hsaved⟩ := b.persistCheckpoint_eq
                { polled with results := polled.results ++ [result.asJson] }
              dsimp only
              rw [hsaved]
          | some id =>
              obtain ⟨checkpointCalls, hsaved⟩ := b.persistCheckpoint_eq { polled with
                taskGraph := polled.taskGraph.markCompleted id
                inflightTasks := polled.inflightTasks.erase id
                results := polled.results ++ [result.asJson] }
              dsimp only
              rw [hsaved]
      · contradiction
      · contradiction
      · contradiction
      · rfl

/-! ## Runs -/

theorem trace_step (s : OrchestratorState) (op : OrchestratorOp) :
    s.trace <+: (b.step s op).trace := by
  have happend : ∀ {events new : List OrchestratorEvent}, s.trace <+: events →
      s.trace <+: events ++ new :=
    fun h => h.trans (List.prefix_append _ _)
  refine b.step_keeps_of_intake (fun s' => s.trace <+: s'.trace) ?_ ?_ ?_ List.prefix_rfl
  · intro before after hmove h
    cases hmove with
    | poll hpolled =>
        obtain ⟨decisions, _, _, _, htrace⟩ := polled_closes hpolled
        rw [htrace]
        exact happend h
    | gate | tooDeep => exact h
    | spawnUnnamed | spawnSub | spawnWorker => exact happend h
  · intro before after hend h
    cases hend with
    | finish => exact happend h
  · intro polled taken _ htaken h
    cases htaken with
    | gone _ pid reason _ released hreleased =>
        cases hreleased with
        | nobody | normal | failed => exact h
        | retried => exact happend h
    | answerNobody | answer => exact happend h
    | aside | result | goal | resume | tasks => exact h

theorem trace_run (s : OrchestratorState) (ops : List OrchestratorOp) :
    s.trace <+: (b.run s ops).trace :=
  b.run_keeps (fun next => s.trace <+: next.trace) (fun op h => h.trans (trace_step _ op))
    List.prefix_rfl ops

theorem announcements_eventsOf (s : OrchestratorState) (ops : List OrchestratorOp) :
    announcements (b.run s ops).trace =
      announcements s.trace + announcements (eventsOf b s ops) := by
  obtain ⟨new, hnew⟩ := trace_run (b := b) s ops
  unfold eventsOf
  rw [← hnew, List.drop_left, announcements_append]

theorem announcements_mono {s : OrchestratorState} {pre ops : List OrchestratorOp}
    (hpre : pre <+: ops) :
    announcements (eventsOf b s pre) ≤ announcements (eventsOf b s ops) := by
  obtain ⟨rest, rfl⟩ := hpre
  have hall := announcements_eventsOf (b := b) s (pre ++ rest)
  have hfirst := announcements_eventsOf (b := b) s pre
  have hlater := announcements_eventsOf (b := b) (b.run s pre) rest
  have hrun : b.run s (pre ++ rest) = b.run (b.run s pre) rest := List.foldl_append
  rw [hrun] at hall
  omega

variable (b) in
/-- From when a goal comes in: after an announcement there are quiet steps only. -/
def QuietOnceAnnounced (s : OrchestratorState) (ops : List OrchestratorOp) : Prop :=
  ∀ pre op, pre ++ [op] <+: ops → 0 < announcements (eventsOf b s pre) → Quiet op

/-- The announcement itself may come last. -/
theorem quietOnceAnnounced_of_none {ops : List OrchestratorOp} (last : OrchestratorOp)
    (hnone : announcements (eventsOf b s ops) = 0) :
    QuietOnceAnnounced b s (ops ++ [last]) := by
  intro pre op hpre hannounced
  have hshort : pre <+: ops := by
    rcases List.prefix_concat_iff.mp hpre with heq | hshort
    · obtain ⟨rfl, _⟩ := List.append_inj' heq rfl
      exact List.prefix_rfl
    · exact (List.prefix_append pre [op]).trans hshort
  have hle := announcements_mono (b := b) (s := s) hshort
  omega

theorem QuietOnceAnnounced.concat {ops : List OrchestratorOp} {last : OrchestratorOp}
    (h : QuietOnceAnnounced b s ops) (hquiet : Quiet last) :
    QuietOnceAnnounced b s (ops ++ [last]) := by
  intro pre op hpre hannounced
  rcases List.prefix_concat_iff.mp hpre with heq | hshort
  · obtain ⟨_, hop⟩ := List.append_inj' heq rfl
    exact (List.singleton_inj.mp hop) ▸ hquiet
  · exact h pre op hshort hannounced

/-- From any state, as when a goal comes in, the end is announced at most once, if only
quiet steps come after the announcement; and it is only announced when all has ended. -/
theorem announced_once (b : OrchestratorBehavior) (s : OrchestratorState)
    (ops : List OrchestratorOp) :
    (QuietOnceAnnounced b s ops → announcements (eventsOf b s ops) ≤ 1) ∧
      ∀ pre op, pre ++ [op] <+: ops →
        announcements (eventsOf b s (pre ++ [op])) ≠ announcements (eventsOf b s pre) →
        AllEnded (b.run s (pre ++ [op])) := by
  have hstep : ∀ pre op, b.run s (pre ++ [op]) = b.step (b.run s pre) op := by
    intro pre op
    exact List.foldl_concat b.step s op pre
  constructor
  · intro hquiet
    induction ops using List.reverseRecOn with
    | nil =>
        have hnone : eventsOf b s [] = [] := List.drop_length
        rw [hnone]
        exact Nat.zero_le 1
    | append_singleton ops op ih =>
        have hbefore := ih fun pre other hpre =>
          hquiet pre other (hpre.trans (List.prefix_append ops [op]))
        have hcount := announcements_eventsOf (b := b) s ops
        have hcount' := announcements_eventsOf (b := b) s (ops ++ [op])
        rw [hstep] at hcount'
        by_cases hannounced : 0 < announcements (eventsOf b s ops)
        · have hsame := announcements_quiet (b := b) (s := b.run s ops)
            (hquiet ops op List.prefix_rfl hannounced)
          omega
        · have hone := announcements_step (b := b) (b.run s ops) op
          omega
  · intro pre op _ hnew
    have hcount := announcements_eventsOf (b := b) s pre
    have hcount' := announcements_eventsOf (b := b) s (pre ++ [op])
    rw [hstep] at hcount' ⊢
    rcases announcements_step (b := b) (b.run s pre) op with hsame | ⟨_, hended⟩
    · omega
    · exact hended

/-- A goal with somebody to tell, and what becomes of its only task. -/
def toldGoal : Json := .obj [("goal", .str "g"), ("requester_pid", .ofNat 5)]

def finishedOps (taskId : String) (pid : AgentPid) : List OrchestratorOp :=
  [.message (.json toldGoal), decomposedInto [.obj [("task_id", .str taskId)]],
    .message (.system (.spawnResult pid none)),
    .message (.json (.obj [("task_id", .str taskId), ("type", .str "worker_result"),
      ("worker_pid", .ofNat pid)])),
    .message (.system (.down 1 pid .normal))]

/-- Progress that comes late changes nothing. -/
theorem announced_once_progress :
    announcements (eventsOf (plainWorkers 1 .none) (idleOrchestration (plainWorkers 1 .none))
        (finishedOps "t" 7 ++
          [.message (.json (.obj [("type", .str "worker_progress")]))])) = 1 ∧
      announcements (eventsOf (plainWorkers 1 .none)
        (idleOrchestration (plainWorkers 1 .none))
        (finishedOps "t" 7 ++
          [.message (.json (.obj [("type", .str "worker_progress")]))])) ≤ 1 := by
  refine ⟨by decide, (announced_once _ _ _).1 ?_⟩
  have hunannounced : announcements (eventsOf (plainWorkers 1 .none)
      (idleOrchestration (plainWorkers 1 .none)) ((finishedOps "t" 7).take 4)) = 0 := by
    decide
  have hdown := quietOnceAnnounced_of_none (.message (.system (.down 1 7 .normal)))
    hunannounced
  exact hdown.concat (.inl (by decide))

/-- The worker of an earlier goal ends after the goal was announced: it is announced again. -/
theorem late_down_announces_again :
    announcements (eventsOf (plainWorkers 1 .none)
      ((plainWorkers 1 .none).run (idleOrchestration (plainWorkers 1 .none))
        ((finishedOps "s" 6).take 3))
      (finishedOps "t" 7 ++ [.message (.system (.down 1 6 .normal))])) = 2 := by
  decide

end Zeptobeam
