/-
How a task graph advances: tasks that are completed stay so, and what is skipped depends on
something that is not completed.
-/
import Zeptobeam.TaskGraphReadiness

namespace Zeptobeam

namespace TaskGraph

/-- No task is lost, what is completed stays completed, and a task is only skipped when it
depends on something that is not completed. -/
structure Advances (graph graph' : TaskGraph) : Prop where
  kept : ∀ q node, graph.lookup q = some node →
    ∃ node', graph'.lookup q = some node' ∧ node'.dependsOn = node.dependsOn
  completed : ∀ q, graph.taskStatus q = some .completed → graph'.taskStatus q = some .completed
  skipped : ∀ q node, graph'.lookup q = some node → node.status = .skipped →
    graph.taskStatus q = some .skipped ∨
      ∃ dep ∈ node.dependsOn, graph.taskStatus dep ≠ some .completed

theorem taskStatus_of_lookup {graph : TaskGraph} {q : String} {node : TaskNode}
    (h : graph.lookup q = some node) : graph.taskStatus q = some node.status := by
  unfold taskStatus
  rw [h, Option.map_some]

namespace Advances

variable {graph graph' graph'' : TaskGraph}

theorem refl (graph : TaskGraph) : Advances graph graph :=
  ⟨fun _ node h => ⟨node, h, rfl⟩, fun _ h => h,
    fun _ _ hnode hstatus => .inl (hstatus ▸ taskStatus_of_lookup hnode)⟩

theorem trans (h : Advances graph graph') (h' : Advances graph' graph'') :
    Advances graph graph'' := by
  refine ⟨fun q node hnode => ?_, fun q hq => h'.completed q (h.completed q hq), ?_⟩
  · obtain ⟨node', hnode', hdeps⟩ := h.kept q node hnode
    obtain ⟨node'', hnode'', hdeps'⟩ := h'.kept q node' hnode'
    exact ⟨node'', hnode'', hdeps'.trans hdeps⟩
  · intro q node'' hnode'' hskipped
    rcases h'.skipped q node'' hnode'' hskipped with hbefore | ⟨dep, hdep, hopen⟩
    · obtain ⟨node', hnode', hstatus⟩ := Option.map_eq_some_iff.mp hbefore
      obtain ⟨kept, hkept, hdeps⟩ := h'.kept q node' hnode'
      cases hnode''.symm.trans hkept
      rw [hdeps]
      exact h.skipped q node' hnode' hstatus
    · exact .inr ⟨dep, hdep, fun hcompleted => hopen (h.completed dep hcompleted)⟩

theorem of_sameTasks (hsame : SameTasks graph graph')
    (hcompleted : ∀ q, graph.taskStatus q = some .completed →
      graph'.taskStatus q = some .completed)
    (hskipped : ∀ q node, graph'.lookup q = some node → node.status = .skipped →
      graph.taskStatus q = some .skipped ∨
        ∃ dep ∈ node.dependsOn, graph.taskStatus dep ≠ some .completed) :
    Advances graph graph' := by
  refine ⟨fun q node hnode => ?_, hcompleted, hskipped⟩
  have hq := hsame q
  rw [hnode, Option.map_some] at hq
  obtain ⟨node', hnode', heq⟩ := Option.map_eq_some_iff.mp hq
  exact ⟨node', hnode', (Prod.mk.inj heq).2⟩

theorem setStatus (graph : TaskGraph) {id : String} {status : TaskStatus}
    (hkept : status = .completed ∨ graph.taskStatus id ≠ some .completed)
    (hstatus : status ≠ .skipped) : Advances graph (graph.setStatus id status) := by
  apply of_sameTasks (sameTasks_setStatus graph id status)
  · intro q hq
    rw [taskStatus_setStatus]
    split
    · rename_i hid
      rcases hkept with rfl | hnot
      · rw [hq]
        rfl
      · exact absurd hq (hid ▸ hnot)
    · exact hq
  · intro q node hnode hskipped
    have hafter := taskStatus_of_lookup hnode
    rw [hskipped, taskStatus_setStatus] at hafter
    split at hafter
    · obtain ⟨_, _, hset⟩ := Option.map_eq_some_iff.mp hafter
      exact absurd hset hstatus
    · exact .inl hafter

theorem markCompleted (graph : TaskGraph) (id : String) :
    Advances graph (graph.markCompleted id) := by
  have hset : Advances graph (graph.setStatus id .completed) :=
    .setStatus graph (.inl rfl) (by simp)
  apply hset.trans
  have hlookup := lookup_markCompleted_eq graph id
  have hsame : SameTasks (graph.setStatus id .completed) (graph.markCompleted id) := by
    intro q
    rw [sameTasks_markCompleted graph id q, sameTasks_setStatus graph id .completed q]
  generalize graph.setStatus id .completed = set at hsame hlookup
  apply of_sameTasks hsame
  · intro q hq
    obtain ⟨node, hnode, hstatus⟩ := Option.map_eq_some_iff.mp hq
    have hafter := hlookup q
    rw [hnode, Option.map_some, if_neg (by simp [promotable, hstatus])] at hafter
    rw [taskStatus_of_lookup hafter, hstatus]
  · intro q node hnode hskipped
    rw [hlookup] at hnode
    obtain ⟨found, hfound, hkept⟩ := Option.map_eq_some_iff.mp hnode
    split at hkept
    · rw [← hkept] at hskipped
      contradiction
    · obtain rfl := hkept
      exact .inl (hskipped ▸ taskStatus_of_lookup hfound)

/-- New tasks come under new ids. -/
theorem addTasks {tasks : List Json}
    (hnew : ∀ id ∈ tasks.filterMap taskId?, graph.lookup id = none) :
    Advances graph (graph.addTasks tasks).2 := by
  have hold : ∀ q node, graph.lookup q = some node →
      (graph.addTasks tasks).2.lookup q = some node := by
    intro q node hnode
    rcases graph.lookup_addTasks tasks q with hsame | ⟨task, htask, hid, _⟩
    · exact hsame.trans hnode
    · have hnone := hnew q (List.mem_filterMap.mpr ⟨task, htask, hid⟩)
      rw [hnode] at hnone
      contradiction
  refine ⟨fun q node hnode => ⟨node, hold q node hnode, rfl⟩, fun q hq => ?_, ?_⟩
  · obtain ⟨node, hnode, hstatus⟩ := Option.map_eq_some_iff.mp hq
    rw [taskStatus_of_lookup (hold q node hnode), hstatus]
  · intro q node hnode hskipped
    rcases graph.lookup_addTasks tasks q with hsame | ⟨task, _, _, hadded | hgone⟩
    · exact .inl (hskipped ▸ taskStatus_of_lookup (hsame ▸ hnode))
    · rw [hadded] at hnode
      cases hnode
      unfold TaskNode.ofTask at hskipped
      dsimp only at hskipped
      split at hskipped <;> contradiction
    · rw [hgone] at hnode
      contradiction

end Advances

/-- Downstream of a task that is not completed nothing is unlocked: everything there depends
on something that is not completed. -/
theorem Readiness.depends_of_downstream {graph : TaskGraph} (h : Readiness graph)
    {id q : String} (hid : graph.taskStatus id ≠ some .completed)
    (hdown : graph.Downstream id q) :
    ∃ dep, q ∈ graph.dependents dep ∧ graph.taskStatus dep ≠ some .completed := by
  induction hdown with
  | single hnext => exact ⟨id, hnext, hid⟩
  | tail _ hnext ih =>
      rename_i v w _
      obtain ⟨dep, hv, hdep⟩ := ih
      refine ⟨v, hnext, fun hcompleted => hdep ?_⟩
      obtain ⟨node, hnode, hmention⟩ := mem_dependents.mp hv
      obtain ⟨found, hfound, hstatus⟩ := Option.map_eq_some_iff.mp hcompleted
      obtain rfl := Option.some.inj (hfound.symm.trans hnode)
      exact h v found hfound (.inr hstatus) dep hmention

theorem Readiness.locked_of_downstream {graph : TaskGraph} (h : Readiness graph)
    {id q : String} (hid : graph.taskStatus id ≠ some .completed)
    (hdown : graph.Downstream id q) {node : TaskNode} (hnode : graph.lookup q = some node) :
    ¬ node.status.Unlocked := by
  intro hunlocked
  obtain ⟨dep, hq, hdep⟩ := h.depends_of_downstream hid hdown
  obtain ⟨found, hfound, hmention⟩ := mem_dependents.mp hq
  obtain rfl := Option.some.inj (hfound.symm.trans hnode)
  exact hdep (h q found hfound hunlocked dep hmention)

theorem Advances.failDependents {graph : TaskGraph} (h : Readiness graph) {id : String}
    (hid : graph.taskStatus id ≠ some .completed) :
    Advances graph (graph.failDependents id) := by
  apply of_sameTasks (closes_failDependents graph id).sameTasks
  · intro q hq
    obtain ⟨node, hnode, hstatus⟩ := Option.map_eq_some_iff.mp hq
    rcases lookup_failDependents graph id q with ⟨hdown, _⟩ | ⟨_, hsame⟩
    · exact absurd (.inr hstatus) (h.locked_of_downstream hid hdown hnode)
    · rw [taskStatus_of_lookup (hsame.trans hnode), hstatus]
  · intro q node hnode hskipped
    rcases lookup_failDependents graph id q with ⟨hdown, hset⟩ | ⟨_, hsame⟩
    · right
      obtain ⟨dep, hq, hdep⟩ := h.depends_of_downstream hid hdown
      obtain ⟨found, hfound, hmention⟩ := mem_dependents.mp hq
      rw [hset, hfound] at hnode
      cases hnode
      exact ⟨dep, hmention, hdep⟩
    · exact .inl (hskipped ▸ taskStatus_of_lookup (hsame ▸ hnode))

theorem Readiness.markFailed {graph : TaskGraph} (h : Readiness graph) {id : String}
    (hid : graph.taskStatus id ≠ some .completed) :
    Readiness (graph.markFailed id) ∧
      (graph.markFailed id).taskStatus id ≠ some .completed := by
  constructor
  · apply h.setStatus (.inr hid)
    rintro ((hopen | hopen | hopen) | hopen) <;> contradiction
  · rw [TaskGraph.markFailed, taskStatus_setStatus, if_pos rfl]
    cases graph.taskStatus id <;> simp

/-- A task fails, with all that depend on it. -/
theorem Readiness.fail {graph : TaskGraph} (h : Readiness graph) {id : String}
    (hid : graph.taskStatus id ≠ some .completed) :
    Readiness ((graph.markFailed id).failDependents id) ∧
      Advances graph ((graph.markFailed id).failDependents id) := by
  obtain ⟨hfailed, hset⟩ := h.markFailed hid
  exact ⟨hfailed.failDependents id,
    (Advances.setStatus graph (.inr hid) (by simp)).trans (.failDependents hfailed hset)⟩

/-- Whoever is unlocked does not depend on the task that fails. -/
theorem Readiness.taskStatus_fail {graph : TaskGraph} (h : Readiness graph) {id q : String}
    (hid : graph.taskStatus id ≠ some .completed) (hne : q ≠ id) {status : TaskStatus}
    (hq : graph.taskStatus q = some status) (hunlocked : status.Unlocked) :
    ((graph.markFailed id).failDependents id).taskStatus q = some status := by
  have hfailed : (graph.markFailed id).taskStatus q = some status := by
    rw [TaskGraph.markFailed, taskStatus_setStatus, if_neg hne, hq]
  obtain ⟨node, hnode, rfl⟩ := Option.map_eq_some_iff.mp hfailed
  obtain ⟨hready, hset⟩ := h.markFailed hid
  rcases lookup_failDependents (graph.markFailed id) id q with ⟨hdown, _⟩ | ⟨_, hsame⟩
  · exact absurd hunlocked (hready.locked_of_downstream hset hdown hnode)
  · exact taskStatus_of_lookup (hsame.trans hnode)

end TaskGraph

end Zeptobeam
