/-
What `add_tasks` leaves of a batch that it rejects.  A batch with a cycle is taken back by
its ids, and with them goes every task that was there under one of them; the tasks in front
of one without an id are not taken back at all.
-/
import Zeptobeam.TaskGraphReload

namespace Zeptobeam

namespace TaskGraph

/-- The tasks with their states and dependencies, and their order. -/
structure Unchanged (graph graph' : TaskGraph) : Prop where
  lookup : ∀ q, graph'.lookup q = graph.lookup q
  insertionOrder : graph'.insertionOrder = graph.insertionOrder

/-- Nothing is added before the batch fails, or nothing that is added was there. -/
def TakesBack (graph : TaskGraph) (tasks : List Json) : Prop :=
  tasks.head?.map taskId? = some none ∨
    ∀ task ∈ tasks, ∃ id, taskId? task = some id ∧ graph.lookup id = none

variable {graph : TaskGraph} {tasks : List Json} {text : String}

theorem takesBack_iff_of_named (hnamed : ∀ task ∈ tasks, taskId? task ≠ none) :
    TakesBack graph tasks ↔ ∀ q ∈ tasks.filterMap taskId?, graph.lookup q = none := by
  constructor
  · rintro (hhead | hfresh) q hq
    · obtain ⟨task, htask, hid⟩ := Option.map_eq_some_iff.mp hhead
      exact absurd hid (hnamed task (List.mem_of_mem_head? htask))
    · obtain ⟨task, hmem, hid⟩ := List.mem_filterMap.mp hq
      obtain ⟨id, hid', hnone⟩ := hfresh task hmem
      rw [hid, Option.some.injEq] at hid'
      rwa [hid']
  · intro hfresh
    right
    intro task hmem
    obtain ⟨id, hid⟩ := Option.ne_none_iff_exists'.mp (hnamed task hmem)
    exact ⟨id, hid, hfresh id (List.mem_filterMap.mpr ⟨task, hmem, hid⟩)⟩

/-- A batch of named tasks is taken back by their ids. -/
theorem unchanged_iff_of_named (hnamed : ∀ task ∈ tasks, taskId? task ≠ none)
    (h : (graph.addTasks tasks).1 = .error text) :
    Unchanged graph (graph.addTasks tasks).2 ↔
      ∀ q ∈ tasks.filterMap taskId?, graph.lookup q = none := by
  obtain ⟨hids, hlookup⟩ := insertAll_named graph [] hnamed
  unfold addTasks at h ⊢
  cases hinsert : graph.insertAll [] tasks with
  | mk answer added =>
      rw [hinsert] at hids hlookup h
      obtain rfl : answer = .ok (tasks.filterMap taskId?) := hids
      obtain ⟨_, horder⟩ := insertAll_ok hinsert
      dsimp only at h ⊢
      split at h
      · rename_i hcycle
        rw [if_pos hcycle]
        constructor
        · intro hsame q hq
          have hq' := hsame.lookup q
          rw [lookup_removeTasks, if_pos hq] at hq'
          exact hq'.symm
        · intro hfresh
          refine ⟨fun q => ?_, ?_⟩
          · rw [lookup_removeTasks]
            split
            · rename_i hq
              exact (hfresh q hq).symm
            · rename_i hq
              rw [hlookup, lastTask_eq_none.mpr hq]
              rfl
          · unfold removeTasks
            rw [horder, List.take_left]
      · contradiction

theorem insertAll_cons_of_none {task : Json} (hid : taskId? task = none)
    (graph : TaskGraph) (addedIds : List String) (rest : List Json) :
    graph.insertAll addedIds (task :: rest) = (.error "Task missing task_id", graph) := by
  unfold insertAll
  split
  · rfl
  · rename_i id hsome
    rw [hid] at hsome
    contradiction

/-- A task with an id is in the order after the loop, wherever it stops. -/
theorem insertAll_cons_of_some {task : Json} {id : String} (hid : taskId? task = some id)
    (graph : TaskGraph) (addedIds : List String) (rest : List Json) :
    graph.insertionOrder ++ [id] <+:
      (graph.insertAll addedIds (task :: rest)).2.insertionOrder := by
  unfold insertAll
  split
  · rename_i hnone
    rw [hid] at hnone
    contradiction
  · rename_i id' hsome
    rw [hid, Option.some.injEq] at hsome
    subst hsome
    exact insertionOrder_insertAll (graph.insertTask task id hid) (addedIds ++ [id]) rest

theorem insertAll_unnamed (hmissing : ∃ task ∈ tasks, taskId? task = none)
    (graph : TaskGraph) (addedIds : List String) :
    (graph.insertAll addedIds tasks).1 = .error "Task missing task_id" := by
  induction tasks generalizing graph addedIds with
  | nil =>
      obtain ⟨task, hmem, _⟩ := hmissing
      contradiction
  | cons task rest ih =>
      unfold insertAll
      split
      · rfl
      · rename_i id hid
        obtain ⟨other, hmem, hnone⟩ := hmissing
        apply ih
        rcases List.mem_cons.mp hmem with rfl | hrest
        · rw [hid] at hnone
          contradiction
        · exact ⟨other, hrest, hnone⟩

/-- What was added in front of a task without an id stays. -/
theorem addTasks_unnamed (hmissing : ∃ task ∈ tasks, taskId? task = none)
    (graph : TaskGraph) : (graph.addTasks tasks).2 = (graph.insertAll [] tasks).2 := by
  have herror := insertAll_unnamed hmissing graph []
  unfold addTasks
  cases hinsert : graph.insertAll [] tasks with
  | mk answer added =>
      rw [hinsert] at herror
      obtain rfl : answer = .error "Task missing task_id" := herror
      rfl

/-- A rejected batch leaves the graph as it was exactly if it fails with its first task, or
adds no task under an id that was there. -/
theorem unchanged_addTasks_iff (graph : TaskGraph) (tasks : List Json)
    (h : (graph.addTasks tasks).1 = .error text) :
    Unchanged graph (graph.addTasks tasks).2 ↔ TakesBack graph tasks := by
  by_cases hnamed : ∀ task ∈ tasks, taskId? task ≠ none
  · rw [takesBack_iff_of_named hnamed]
    exact unchanged_iff_of_named hnamed h
  · have hmissing : ∃ task ∈ tasks, taskId? task = none := by simpa using hnamed
    rw [addTasks_unnamed hmissing]
    cases tasks with
    | nil =>
        obtain ⟨task, hmem, _⟩ := hmissing
        contradiction
    | cons task rest =>
        cases hid : taskId? task with
        | none =>
            rw [insertAll_cons_of_none hid]
            exact iff_of_true ⟨fun _ => rfl, rfl⟩ (.inl (congrArg some hid))
        | some id =>
            refine iff_of_false ?_ ?_
            · intro hsame
              have hlength := (insertAll_cons_of_some hid graph [] rest).length_le
              rw [hsame.insertionOrder, List.length_append, List.length_singleton] at hlength
              omega
            · rintro (hhead | hall)
              · simp [hid] at hhead
              · obtain ⟨other, hmem, hnone⟩ := hmissing
                obtain ⟨id', hsome, _⟩ := hall other hmem
                rw [hnone] at hsome
                contradiction

def selfDependent (id : String) : Json :=
  .obj [("task_id", .str id), ("depends_on", .arr [.str id])]

theorem unchanged_addTasks_selfDependent :
    (new.addTasks [selfDependent "a"]).1 = .error "Cycle detected in task dependencies" ∧
      Unchanged new (new.addTasks [selfDependent "a"]).2 := by
  have herror : (new.addTasks [selfDependent "a"]).1 =
      .error "Cycle detected in task dependencies" := by
    rfl
  refine ⟨herror, (unchanged_addTasks_iff new _ herror).mpr (.inr fun task hmem => ?_)⟩
  obtain rfl := List.mem_singleton.mp hmem
  exact ⟨"a", rfl, rfl⟩

/-- A batch that fails at its second task has left the first one in the graph. -/
theorem not_unchanged_second_missing :
    (new.addTasks [.obj [("task_id", .str "a")], .obj []]).1 = .error "Task missing task_id" ∧
      ¬ Unchanged new (new.addTasks [.obj [("task_id", .str "a")], .obj []]).2 := by
  refine ⟨rfl, fun hsame => ?_⟩
  have horder := hsame.insertionOrder
  cases horder

end TaskGraph

end Zeptobeam
