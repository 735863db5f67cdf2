/-
The order of insertion beside the tasks: it lists every task once as long as no batch brings
an id twice, or one that is there.
-/
import Zeptobeam.TaskGraphProgress
import Zeptobeam.TaskGraphReload

namespace Zeptobeam

namespace TaskGraph

open GuardedRun

/-- The order of insertion lists the tasks without repetition, and the ready ones are handed
out once each, in that order. -/
structure Listed (graph : TaskGraph) : Prop where
  nodup : graph.insertionOrder.Nodup
  complete : ∀ id, id ∈ graph.insertionOrder ↔ graph.lookup id ≠ none
  ready : ∀ task, task ∈ graph.readyTasks ↔
    ∃ id node, graph.lookup id = some node ∧ node.status = .ready ∧ node.task = task
  readyOnce : (graph.readyTasks.map taskId?).Nodup
  readyInOrder : (graph.readyTasks.map taskId?).Sublist (graph.insertionOrder.map some)

/-- A batch brings ids that are distinct, and not there yet. -/
def BringsNew (graph : TaskGraph) : GraphOp → Prop
  | .addTasks tasks => (tasks.filterMap taskId?).Nodup ∧
      ∀ id ∈ tasks.filterMap taskId?, graph.lookup id = none
  | _ => True

variable {graph graph' : TaskGraph}

/-! ## Ready tasks -/

/-- The ids of the ready tasks are those of the order that are ready. -/
theorem map_taskId_readyTasks (graph : TaskGraph) :
    graph.readyTasks.map taskId? =
      (graph.insertionOrder.filter fun id => graph.taskStatus id = some .ready).map some := by
  unfold readyTasks
  induction graph.insertionOrder with
  | nil => rfl
  | cons id rest ih =>
      cases hnode : graph.lookup id with
      | none =>
          have hnot : graph.taskStatus id ≠ some .ready := by simp [taskStatus, hnode]
          simp only [List.filterMap_cons, hnode, Option.bind_none]
          rw [ih, List.filter_cons_of_neg (by simpa using hnot)]
      | some node =>
          by_cases hstatus : node.status = .ready
          · have hready : graph.taskStatus id = some .ready := by simp [taskStatus, hnode, hstatus]
            simp only [List.filterMap_cons, hnode, Option.bind_some, if_pos hstatus]
            rw [List.map_cons, ih, graph.keyed id node hnode,
              List.filter_cons_of_pos (by simpa using hready), List.map_cons]
          · have hnot : graph.taskStatus id ≠ some .ready := by simp [taskStatus, hnode, hstatus]
            simp only [List.filterMap_cons, hnode, Option.bind_some, if_neg hstatus]
            rw [ih, List.filter_cons_of_neg (by simpa using hnot)]

/-- A ready task of the order is handed out. -/
theorem mem_readyTasks_of {id : String} {node : TaskNode} (hid : id ∈ graph.insertionOrder)
    (hnode : graph.lookup id = some node) (hstatus : node.status = .ready) :
    node.task ∈ graph.readyTasks := by
  refine List.mem_filterMap.mpr ⟨id, hid, ?_⟩
  rw [hnode, Option.bind_some, if_pos hstatus]

theorem listed_of_order (hnodup : graph.insertionOrder.Nodup)
    (hcomplete : ∀ id, id ∈ graph.insertionOrder ↔ graph.lookup id ≠ none) : Listed graph where
  nodup := hnodup
  complete := hcomplete
  ready := by
    intro task
    constructor
    · intro htask
      obtain ⟨id, node, -, hnode, hstatus, heq⟩ := mem_readyTasks htask
      exact ⟨id, node, hnode, hstatus, heq⟩
    · rintro ⟨id, node, hnode, hstatus, rfl⟩
      refine mem_readyTasks_of ((hcomplete id).mpr ?_) hnode hstatus
      rw [hnode]
      exact Option.some_ne_none node
  readyOnce := by
    rw [map_taskId_readyTasks]
    exact (hnodup.filter _).map fun _ _ heq => Option.some.inj heq
  readyInOrder := by
    rw [map_taskId_readyTasks]
    exact List.filter_sublist.map some

/-! ## Steps -/

/-- An accepted batch is put behind what was there. -/
theorem insertionOrder_accepted {tasks : List Json}
    (h : graph.addTasks tasks = (.ok (), graph')) :
    graph'.insertionOrder = graph.insertionOrder ++ tasks.filterMap taskId? := by
  unfold addTasks at h
  split at h
  · cases h
  · rename_i ids added hinsert
    split at h
    · cases h
    · obtain ⟨_, rfl⟩ := Prod.mk.inj h
      exact (insertAll_ok hinsert).2

theorem known_addTasks {tasks : List Json} (h : graph.addTasks tasks = (.ok (), graph'))
    (id : String) :
    graph'.lookup id ≠ none ↔ graph.lookup id ≠ none ∨ id ∈ tasks.filterMap taskId? := by
  rcases (addTasks_ok h).2 id with ⟨task, htask, hid, hlookup⟩ | ⟨hout, hsame⟩
  · refine iff_of_true ?_ (.inr (List.mem_filterMap.mpr ⟨task, htask, hid⟩))
    rw [hlookup]
    exact Option.some_ne_none _
  · rw [hsame]
    exact (or_iff_left hout).symm

theorem Listed.addTasks (h : Listed graph) {tasks : List Json}
    (hadded : graph.addTasks tasks = (.ok (), graph')) :
    Listed graph' ↔ BringsNew graph (.addTasks tasks) := by
  have horder := insertionOrder_accepted hadded
  have hdisjoint : (∀ id ∈ tasks.filterMap taskId?, graph.lookup id = none) ↔
      graph.insertionOrder.Disjoint (tasks.filterMap taskId?) := by
    constructor
    · intro hnew id hmem hid
      exact (h.complete id).mp hmem (hnew id hid)
    · intro hdisjoint id hid
      by_contra hknown
      exact hdisjoint ((h.complete id).mpr hknown) hid
  simp only [BringsNew, hdisjoint]
  constructor
  · intro hlisted
    have hnodup := hlisted.nodup
    rw [horder] at hnodup
    obtain ⟨_, hids, hapart⟩ := List.nodup_append'.mp hnodup
    exact ⟨hids, hapart⟩
  · rintro ⟨hids, hapart⟩
    apply listed_of_order
    · rw [horder]
      exact List.nodup_append'.mpr ⟨h.nodup, hids, hapart⟩
    · intro id
      rw [horder, List.mem_append, h.complete, known_addTasks hadded]

/-- The same tasks in the same order. -/
theorem Listed.of_sameTasks (h : Listed graph) (hsame : SameTasks graph graph')
    (horder : graph'.insertionOrder = graph.insertionOrder) : Listed graph' := by
  apply listed_of_order
  · rw [horder]
    exact h.nodup
  · intro id
    have hid := hsame id
    rw [horder, h.complete]
    cases hbefore : graph.lookup id with
    | none =>
        rw [hbefore, Option.map_none, Option.map_eq_none_iff] at hid
        rw [hid]
    | some node =>
        rw [hbefore, Option.map_some] at hid
        obtain ⟨after, hafter, -⟩ := Option.map_eq_some_iff.mp hid
        simp [hafter]

theorem Listed.change (h : Listed graph) {op : GraphOp} (hop : ∀ tasks, op ≠ .addTasks tasks)
    (hstep : graph.stepAccepted op = .ok graph') : Listed graph' := by
  cases op with
  | addTasks tasks => exact absurd rfl (hop tasks)
  | markRunning id =>
      cases hstep
      exact h.of_sameTasks (sameTasks_setStatus graph id .running)
        (insertionOrder_setStatus graph id .running)
  | markCompleted id =>
      cases hstep
      refine h.of_sameTasks (sameTasks_markCompleted graph id) ?_
      rw [step, markCompleted, insertionOrder_setAll, insertionOrder_setStatus]
  | markFailed id =>
      cases hstep
      have hclosed := (closes_markFailed graph id).trans
        (closes_failDependents (graph.markFailed id) id)
      exact h.of_sameTasks hclosed.sameTasks hclosed.insertionOrder
  | failDependents id =>
      cases hstep
      have hclosed := closes_failDependents graph id
      exact h.of_sameTasks hclosed.sameTasks hclosed.insertionOrder
  | setStatus id status =>
      cases hstep
      exact h.of_sameTasks (sameTasks_setStatus graph id status)
        (insertionOrder_setStatus graph id status)

theorem Listed.step_iff (h : Listed graph) {op : GraphOp}
    (hstep : graph.stepAccepted op = .ok graph') : Listed graph' ↔ BringsNew graph op := by
  by_cases hop : ∃ tasks, op = .addTasks tasks
  · obtain ⟨tasks, rfl⟩ := hop
    simp only [stepAccepted] at hstep
    split at hstep
    · rename_i added hadded
      cases hstep
      exact h.addTasks hadded
    · contradiction
  · have hnot : ∀ tasks, op ≠ .addTasks tasks := fun tasks heq => hop ⟨tasks, heq⟩
    refine iff_of_true (h.change hnot hstep) ?_
    cases op with
    | addTasks tasks => exact absurd rfl (hnot tasks)
    | _ => exact trivial

/-- In every run of accepted batches and changes of states, each task is listed once in every
state exactly if no batch brings an id twice, or one that is there. -/
theorem listed_iff_bringsNew (ops : List GraphOp) :
    ThroughoutOk stepAccepted Listed .new ops ↔ GuardedOk stepAccepted BringsNew .new ops := by
  have hstart : Listed .new := by
    refine listed_of_order List.nodup_nil fun id => ?_
    refine iff_of_false List.not_mem_nil fun hknown => hknown ?_
    rfl
  exact throughoutOk_iff_guardedOk BringsNew Listed hstart
    (fun _ _ _ h hop hstep => (h.step_iff hstep).mpr hop) (fun _ h => h)
    (fun _ _ _ h hop hstep hlisted => hop ((h.step_iff hstep).mp hlisted)) ops

/-- One task twice in a batch, and in two batches: it is ready twice. -/
theorem not_listed_twice :
    (∃ graph, graph.readyTasks = [.obj [("task_id", .str "a")], .obj [("task_id", .str "a")]] ∧
        [GraphOp.addTasks [.obj [("task_id", .str "a")], .obj [("task_id", .str "a")]]].foldlM
          stepAccepted .new = .ok graph ∧ ¬ Listed graph) ∧
      ∃ graph, graph.readyTasks = [.obj [("task_id", .str "a")], .obj [("task_id", .str "a")]] ∧
        [GraphOp.addTasks [.obj [("task_id", .str "a")]],
          .addTasks [.obj [("task_id", .str "a")]]].foldlM stepAccepted .new = .ok graph ∧
        ¬ Listed graph := by
  refine ⟨⟨_, ?_, rfl, fun hlisted => ?_⟩, ⟨_, ?_, rfl, fun hlisted => ?_⟩⟩
  · rfl
  · exact absurd hlisted.nodup (by decide)
  · rfl
  · exact absurd hlisted.nodup (by decide)

end TaskGraph

end Zeptobeam
