/-
Failure: when a running task fails, exactly the tasks that depend on it are skipped, and none
of them had come to an end of its own.
-/
import Zeptobeam.TaskGraphAdvance
import Zeptobeam.TaskGraphProgress

namespace Zeptobeam

namespace TaskGraph

open BreadthFirst GuardedRun

/-- The walk of `fail_dependents`, which may go on behind its fuel. -/
def skipOrStop (reverseDeps : String → List String) :
    Nat → List String → List String → TaskGraph → Option TaskGraph
  | _, _, [], graph => some graph
  | 0, _, _ :: _, _ => none
  | fuel + 1, visited, current :: queue, graph =>
      if current ∈ visited then skipOrStop reverseDeps fuel visited queue graph
      else
        let downstream := reverseDeps current
        skipOrStop reverseDeps fuel (current :: visited) (queue ++ downstream)
          (graph.setAll downstream .skipped)

/-- Every mention of a task is queued once at most. -/
theorem skipOrStop_eq {reverseDeps : String → List String} {mentions : List String}
    (hmentions : ∀ node, (reverseDeps node).length ≤ mentions.count node) (fuel : Nat)
    (visited queue : List String) (graph : TaskGraph)
    (hfuel : queue.length + (unvisited mentions visited).length ≤ fuel) :
    skipOrStop reverseDeps fuel visited queue graph =
      some (skipFrom reverseDeps fuel visited queue graph) := by
  induction fuel generalizing visited queue graph with
  | zero =>
      obtain rfl : queue = [] := List.eq_nil_of_length_eq_zero (by omega)
      rfl
  | succ fuel ih =>
      cases queue with
      | nil => rfl
      | cons current queue =>
          rw [List.length_cons] at hfuel
          unfold skipOrStop skipFrom
          split
          · exact ih visited queue graph (by omega)
          · rename_i hnew
            have hless := length_unvisited_cons mentions hnew
            have hbound := hmentions current
            apply ih
            rw [List.length_append]
            omega

/-- A failed task had all that it waited for. -/
def FailedAfter (graph : TaskGraph) : Prop :=
  ∀ id node, graph.lookup id = some node → node.status = .failed →
    ∀ dep ∈ node.dependsOn, graph.taskStatus dep = some .completed

/-- What a run does: as it is legal, with `fail_dependents` after each failure only. -/
def Works (graph : TaskGraph) : GraphOp → Prop
  | .failDependents _ => False
  | op => Legal graph op

namespace FailedAfter

variable {graph graph' : TaskGraph}

/-- Whatever is failed now was so before, or had its dependencies then. -/
theorem of_advances (h : FailedAfter graph) (hadvances : Advances graph graph')
    (hfailed : ∀ q, graph'.taskStatus q = some .failed → ∃ node, graph.lookup q = some node ∧
      (node.status = .failed ∨ DependenciesDone graph q)) : FailedAfter graph' := by
  intro q node hnode hstatus dep hdep
  apply hadvances.completed
  obtain ⟨before, hbefore, hcase⟩ := hfailed q (by rw [taskStatus_of_lookup hnode, hstatus])
  obtain ⟨kept, hkept, hdeps⟩ := hadvances.kept q before hbefore
  cases hnode.symm.trans hkept
  rw [hdeps] at hdep
  rcases hcase with hfailed | hdone
  · exact h q before hbefore hfailed dep hdep
  · exact hdone before hbefore dep hdep

theorem failed_of_setStatus (graph : TaskGraph) (id : String) (status : TaskStatus) {q : String}
    (hq : (graph.setStatus id status).taskStatus q = some .failed) :
    ∃ node, graph.lookup q = some node ∧ (node.status = .failed ∨ q = id ∧ status = .failed) := by
  rw [taskStatus_setStatus] at hq
  split at hq
  · rename_i hid
    obtain ⟨found, hfound, rfl⟩ := Option.map_eq_some_iff.mp hq
    obtain ⟨node, hnode, -⟩ := Option.map_eq_some_iff.mp hfound
    exact ⟨node, hnode, .inr ⟨hid, rfl⟩⟩
  · obtain ⟨node, hnode, hstatus⟩ := Option.map_eq_some_iff.mp hq
    exact ⟨node, hnode, .inl hstatus⟩

theorem setStatus (h : FailedAfter graph) {id : String} {status : TaskStatus}
    (hadvances : Advances graph (graph.setStatus id status))
    (hdone : status = .failed → DependenciesDone graph id) :
    FailedAfter (graph.setStatus id status) := by
  apply h.of_advances hadvances
  intro q hq
  obtain ⟨node, hnode, hfailed | ⟨rfl, hstatus⟩⟩ := failed_of_setStatus graph id status hq
  · exact ⟨node, hnode, .inl hfailed⟩
  · exact ⟨node, hnode, .inr (hdone hstatus)⟩

theorem markCompleted (h : FailedAfter graph) (id : String) :
    FailedAfter (graph.markCompleted id) := by
  apply h.of_advances (.markCompleted graph id)
  intro q hq
  have hlookup := lookup_markCompleted_eq graph id q
  obtain ⟨node, hnode, hstatus⟩ := Option.map_eq_some_iff.mp hq
  rw [hnode] at hlookup
  obtain ⟨found, hfound, hkept⟩ := Option.map_eq_some_iff.mp hlookup.symm
  have hfailed : found.status = .failed := by
    split at hkept
    · rw [← hkept] at hstatus
      contradiction
    · rw [hkept, hstatus]
  obtain ⟨before, hbefore, hcase⟩ := failed_of_setStatus graph id .completed
    (by rw [taskStatus_of_lookup hfound, hfailed])
  exact ⟨before, hbefore, .inl (hcase.resolve_right fun hset => by simp at hset)⟩

theorem addTasks (h : FailedAfter graph) {tasks : List Json}
    (hnew : ∀ id ∈ tasks.filterMap taskId?, graph.lookup id = none) :
    FailedAfter (graph.addTasks tasks).2 := by
  apply h.of_advances (.addTasks hnew)
  intro q hq
  obtain ⟨node, hnode, hstatus⟩ := Option.map_eq_some_iff.mp hq
  rcases graph.lookup_addTasks tasks q with hsame | ⟨task, -, -, hadded | hgone⟩
  · exact ⟨node, hsame ▸ hnode, .inl hstatus⟩
  · rw [hadded] at hnode
    rw [← Option.some.inj hnode] at hstatus
    unfold TaskNode.ofTask at hstatus
    dsimp only at hstatus
    split at hstatus <;> contradiction
  · rw [hgone] at hnode
    contradiction

/-- A task that is not completed fails, with all that depend on it. -/
theorem failDependents (h : FailedAfter graph) (hready : Readiness graph) {id : String}
    (hid : graph.taskStatus id ≠ some .completed) :
    FailedAfter (graph.failDependents id) := by
  apply h.of_advances (.failDependents hready hid)
  intro q hq
  obtain ⟨node, hnode, hstatus⟩ := Option.map_eq_some_iff.mp hq
  rcases lookup_failDependents graph id q with ⟨-, hset⟩ | ⟨-, hsame⟩
  · rw [hset] at hnode
    obtain ⟨found, -, rfl⟩ := Option.map_eq_some_iff.mp hnode
    contradiction
  · exact ⟨node, hsame ▸ hnode, .inl hstatus⟩

/-- Whoever depends on a task that is not completed is pending, or skipped. -/
theorem waiting_of_downstream (h : FailedAfter graph) (hready : Readiness graph)
    {id q : String} (hid : graph.taskStatus id ≠ some .completed)
    (hdown : graph.Downstream id q) :
    graph.taskStatus q = some .pending ∨ graph.taskStatus q = some .skipped := by
  obtain ⟨dep, hq, hdep⟩ := hready.depends_of_downstream hid hdown
  obtain ⟨node, hnode, hmention⟩ := mem_dependents.mp hq
  have hlocked := hready.locked_of_downstream hid hdown hnode
  rw [taskStatus_of_lookup hnode]
  cases hstatus : node.status with
  | pending => exact .inl rfl
  | skipped => exact .inr rfl
  | failed => exact absurd (h q node hnode hstatus dep hmention) hdep
  | ready => exact absurd (.inl (.inl hstatus)) hlocked
  | awaitingApproval => exact absurd (.inl (.inr (.inl hstatus))) hlocked
  | running => exact absurd (.inl (.inr (.inr hstatus))) hlocked
  | completed => exact absurd (.inr hstatus) hlocked

end FailedAfter

/-- What holds at every state of a run. -/
structure Ordered (graph : TaskGraph) : Prop where
  readiness : Readiness graph
  failed : FailedAfter graph

namespace Ordered

variable {graph graph' : TaskGraph}

theorem markFailed (h : Ordered graph) {id : String}
    (hid : graph.taskStatus id = some .running) :
    Ordered (graph.markFailed id) ∧ (graph.markFailed id).taskStatus id ≠ some .completed := by
  have hopen : graph.taskStatus id ≠ some .completed := by simp [hid]
  obtain ⟨hready, hset⟩ := h.readiness.markFailed hopen
  refine ⟨⟨hready, ?_⟩, hset⟩
  exact h.failed.setStatus (.setStatus graph (.inr hopen) (by simp))
    fun _ => h.readiness.done hid (.inl (.inr (.inr rfl)))

theorem step (h : Ordered graph) {op : GraphOp} (hworks : Works graph op)
    (hstep : graph.stepAccepted op = .ok graph') : Ordered graph' := by
  cases op with
  | addTasks tasks =>
      have hlegal : Legal graph (.addTasks tasks) := hworks
      have hready := h.readiness.addTasks hlegal.2
      have hfailed := h.failed.addTasks hlegal.2
      simp only [stepAccepted] at hstep
      split at hstep
      · rename_i added hadded
        rw [hadded] at hready hfailed
        cases hstep
        exact ⟨hready, hfailed⟩
      · contradiction
  | markRunning id =>
      cases hstep
      have hid : graph.taskStatus id = some .ready := hworks
      exact ⟨h.readiness.step hworks,
        h.failed.setStatus (.setStatus graph (.inr (by simp [hid])) (by simp)) (by simp)⟩
  | markCompleted id =>
      cases hstep
      exact ⟨h.readiness.step hworks, h.failed.markCompleted id⟩
  | markFailed id =>
      cases hstep
      obtain ⟨hfailed, hset⟩ := h.markFailed hworks
      exact ⟨hfailed.readiness.failDependents id,
        hfailed.failed.failDependents hfailed.readiness hset⟩
  | failDependents id => exact hworks.elim
  | setStatus id status =>
      cases hstep
      have hlegal : Legal graph (.setStatus id status) := hworks
      have hready := h.readiness.step hlegal
      obtain ⟨hopen, found, hfound, hfoundOpen⟩ := hlegal
      have hnot : graph.taskStatus id ≠ some .completed := by
        rw [hfound]
        rcases hfoundOpen with rfl | rfl | rfl <;> simp
      have hother : status ≠ .skipped ∧ status ≠ .failed := by
        rcases hopen with rfl | rfl | rfl <;> simp
      exact ⟨hready, h.failed.setStatus (.setStatus graph (.inr hnot) hother.1)
        fun hfailed => absurd hfailed hother.2⟩

end Ordered

/-- `fail_dependents` ends, skips exactly what depends on the task, leaves the others as they
are, and changes no task that has completed or failed. -/
structure SkipsDependents (graph : TaskGraph) (id : String) : Prop where
  ends : skipOrStop graph.dependents (graph.edgeCount + 1) [] [id] graph =
    some (graph.failDependents id)
  skipped : ∀ q, graph.Downstream id q →
    (graph.failDependents id).taskStatus q = some .skipped
  others : ∀ q, ¬ graph.Downstream id q → (graph.failDependents id).lookup q = graph.lookup q
  finished : ∀ q status, graph.taskStatus q = some status →
    status = .completed ∨ status = .failed →
      (graph.failDependents id).taskStatus q = some status

theorem Ordered.skipsDependents {graph : TaskGraph} (h : Ordered graph) {id : String}
    (hid : graph.taskStatus id ≠ some .completed) : SkipsDependents graph id where
  ends := by
    apply skipOrStop_eq (fun node => (graph.length_dependents node).le)
    have hle := List.length_filter_le (fun node => decide (node ∉ [])) graph.mentions
    have hlength := graph.length_mentions
    rw [unvisited, List.length_singleton]
    omega
  skipped := by
    intro q hdown
    rcases lookup_failDependents graph id q with ⟨_, hset⟩ | ⟨hnot, _⟩
    · rcases h.failed.waiting_of_downstream h.readiness hid hdown with hq | hq
      all_goals
        obtain ⟨node, hnode, -⟩ := Option.map_eq_some_iff.mp hq
        rw [hnode] at hset
        exact taskStatus_of_lookup hset
    · exact absurd hdown hnot
  others := by
    intro q hout
    rcases lookup_failDependents graph id q with ⟨hdown, _⟩ | ⟨_, hsame⟩
    · exact absurd hdown hout
    · exact hsame
  finished := by
    intro q status hq hfinished
    rcases lookup_failDependents graph id q with ⟨hdown, _⟩ | ⟨_, hsame⟩
    · rcases h.failed.waiting_of_downstream h.readiness hid hdown with hwaits | hwaits
      all_goals
        rw [hq] at hwaits
        rcases hfinished with rfl | rfl <;> simp at hwaits
    · rw [taskStatus, hsame]
      exact hq

/-- In every run: when a running task is marked failed, `fail_dependents` skips exactly the
tasks that depend on it. -/
theorem fail_skips_dependents (ops : List GraphOp) {graph : TaskGraph}
    (hworks : GuardedOk stepAccepted Works .new ops)
    (hrun : ops.foldlM stepAccepted .new = .ok graph) {id : String}
    (hid : graph.taskStatus id = some .running) : SkipsDependents (graph.markFailed id) id := by
  have hstart : Ordered .new := by
    refine ⟨new_readiness, fun id node hnode => ?_⟩
    contradiction
  have hordered := invariant_of_guardedOk Ordered hstart
    (fun _ _ _ h hop hstep => h.step hop hstep) hworks hrun
  obtain ⟨hfailed, hset⟩ := hordered.markFailed hid
  exact hfailed.skipsDependents hset

/-- The first of two tasks fails while it runs. -/
theorem fail_skips_dependents_two :
    ∃ graph, [GraphOp.addTasks twoTasks, .markRunning "a"].foldlM stepAccepted .new =
        .ok graph ∧ graph.taskStatus "b" = some .pending ∧
      SkipsDependents (graph.markFailed "a") "a" := by
  refine ⟨_, rfl, by decide,
    fail_skips_dependents [.addTasks twoTasks, .markRunning "a"] ?_ rfl (by decide)⟩
  refine GuardedOk.cons ⟨by decide, fun id _ => rfl⟩ fun graph hadded => ?_
  obtain rfl := Except.ok.inj hadded
  exact GuardedOk.cons (show TaskGraph.taskStatus _ _ = _ by decide) fun _ _ => GuardedOk.nil

end TaskGraph

end Zeptobeam
