/-
A graph that is made of nothing but a list of tasks, as it is when a checkpoint is loaded, and
the bookkeeping of the graphs that such lists are taken from.
-/
import Zeptobeam.TaskGraphReadiness

namespace Zeptobeam

namespace TaskGraph

variable {graph graph' : TaskGraph} {tasks : List Json}

theorem ready_ofTask {task : Json} :
    (TaskNode.ofTask task).status = .ready ↔ parseDependsOn task = [] := by
  simp [TaskNode.ofTask]

/-- The last task of a list with an id. -/
def lastTask (tasks : List Json) (id : String) : Option Json :=
  (tasks.filter fun task => taskId? task = some id).getLast?

theorem lastTask_cons (task : Json) (rest : List Json) (id : String) :
    lastTask (task :: rest) id =
      (lastTask rest id).or (if taskId? task = some id then some task else none) := by
  unfold lastTask
  split
  · rename_i hid
    rw [List.filter_cons_of_pos (by simpa using hid), List.getLast?_cons]
    cases (rest.filter fun task => taskId? task = some id).getLast? with
    | none => rfl
    | some last => rfl
  · rename_i hid
    rw [List.filter_cons_of_neg (by simpa using hid), Option.or_none]

theorem lastTask_append (tasks rest : List Json) (id : String) :
    lastTask (tasks ++ rest) id = (lastTask rest id).or (lastTask tasks id) := by
  unfold lastTask
  rw [List.filter_append, List.getLast?_append]

theorem lastTask_eq_none {id : String} :
    lastTask tasks id = none ↔ id ∉ tasks.filterMap taskId? := by
  simp [lastTask]

theorem lastTask_mem {id : String} {task : Json} (h : lastTask tasks id = some task) :
    task ∈ tasks ∧ taskId? task = some id := by
  simpa using List.mem_of_getLast? h

theorem lastTask_eq_some {id : String} {task : Json} (hmem : task ∈ tasks)
    (hid : taskId? task = some id)
    (hunique : ∀ other ∈ tasks, taskId? other = some id → other = task) :
    lastTask tasks id = some task := by
  cases hlast : lastTask tasks id with
  | none => exact absurd (List.mem_filterMap.mpr ⟨task, hmem, hid⟩) (lastTask_eq_none.mp hlast)
  | some last =>
      obtain ⟨hlastMem, hlastId⟩ := lastTask_mem hlast
      rw [hunique last hlastMem hlastId]

/-! ## The loop of `add_tasks` -/

theorem insertAll_named (graph : TaskGraph) (addedIds : List String)
    (hnamed : ∀ task ∈ tasks, taskId? task ≠ none) :
    (graph.insertAll addedIds tasks).1 = .ok (addedIds ++ tasks.filterMap taskId?) ∧
      ∀ q, (graph.insertAll addedIds tasks).2.lookup q =
        ((lastTask tasks q).map .ofTask).or (graph.lookup q) := by
  induction tasks generalizing graph addedIds with
  | nil =>
      refine ⟨?_, fun q => rfl⟩
      rw [List.filterMap_nil, List.append_nil]
      rfl
  | cons task rest ih =>
      unfold insertAll
      split
      · rename_i hnone
        exact absurd hnone (hnamed task List.mem_cons_self)
      · rename_i id hid
        obtain ⟨hids, hlookup⟩ := ih (graph.insertTask task id hid) (addedIds ++ [id])
          fun other hother => hnamed other (List.mem_cons_of_mem task hother)
        refine ⟨?_, fun q => ?_⟩
        · rw [hids, List.filterMap_cons_some hid, List.append_assoc]
          rfl
        · rw [hlookup, lookup_insertTask, lastTask_cons, hid]
          cases lastTask rest q with
          | some last => rfl
          | none =>
              by_cases hq : q = id
              · rw [if_pos hq, if_pos (hq ▸ rfl)]
                rfl
              · rw [if_neg hq, if_neg (fun heq => hq (Option.some.inj heq).symm)]
                rfl

theorem insertionOrder_insertAll (graph : TaskGraph) (addedIds : List String)
    (tasks : List Json) :
    graph.insertionOrder <+: (graph.insertAll addedIds tasks).2.insertionOrder := by
  induction tasks generalizing graph addedIds with
  | nil => exact List.prefix_rfl
  | cons task rest ih =>
      unfold insertAll
      split
      · exact List.prefix_rfl
      · rename_i id hid
        exact (List.prefix_append graph.insertionOrder [id]).trans
          (ih (graph.insertTask task id hid) (addedIds ++ [id]))

theorem insertAll_ok {addedIds ids : List String}
    (h : graph.insertAll addedIds tasks = (.ok ids, graph')) :
    ids = addedIds ++ tasks.filterMap taskId? ∧
      graph'.insertionOrder = graph.insertionOrder ++ tasks.filterMap taskId? := by
  induction tasks generalizing graph addedIds with
  | nil =>
      obtain ⟨hids, rfl⟩ := Prod.mk.inj h
      cases hids
      rw [List.filterMap_nil, List.append_nil, List.append_nil]
      exact ⟨rfl, rfl⟩
  | cons task rest ih =>
      unfold insertAll at h
      split at h
      · cases h
      · rename_i id hid
        obtain ⟨hids, horder⟩ := ih h
        rw [List.filterMap_cons_some hid]
        refine ⟨by rw [hids, List.append_assoc]; rfl, ?_⟩
        rw [horder]
        exact List.append_assoc _ _ _

/-! ## Loading -/

/-- Kahn's loop processes every task that it queues at first. -/
theorem processFrom_of_none (fuel : Nat) (degrees : AList fun _ : String => Nat)
    (queue : List String) (processed : Nat) :
    processFrom (fun _ => []) fuel degrees queue processed =
      processed + min fuel queue.length := by
  induction fuel generalizing queue processed with
  | zero => simp [processFrom]
  | succ fuel ih =>
      cases queue with
      | nil => simp [processFrom]
      | cons current queue =>
          unfold processFrom
          rw [List.foldl_nil]
          dsimp only
          rw [ih, List.length_cons]
          omega

/-- Where nothing depends on anything, there is no cycle. -/
theorem detectCycle_of_free (hfree : ∀ q node, graph.lookup q = some node →
    node.dependsOn = []) : graph.detectCycle = false := by
  have hentry : ∀ entry ∈ graph.tasks.entries, entry.2.dependsOn = [] :=
    fun entry hmem => hfree entry.1 entry.2 (AList.mem_lookup_iff.mpr hmem)
  have hdependents : graph.dependents = fun _ => [] := by
    funext id
    unfold dependents
    rw [List.flatMap_eq_nil_iff]
    intro entry hmem
    rw [hentry entry hmem]
    rfl
  have hqueue : (graph.tasks.entries.filter fun entry => graph.inDegree entry.2 = 0) =
      graph.tasks.entries := by
    rw [List.filter_eq_self]
    intro entry hmem
    simp [inDegree, hentry entry hmem]
  unfold detectCycle
  rw [hdependents, hqueue]
  dsimp only
  rw [processFrom_of_none, List.length_map]
  simp

/-- The tasks of a batch are loaded, the last one of each id; with a cycle among them, none
is. -/
theorem addTasks_new (hnamed : ∀ task ∈ tasks, taskId? task ≠ none) :
    ∃ added : TaskGraph, (∀ q, added.lookup q = (lastTask tasks q).map .ofTask) ∧
      ((added.detectCycle = true ∧ ∀ q, (new.addTasks tasks).2.lookup q = none) ∨
        (added.detectCycle = false ∧ (new.addTasks tasks).2 = added)) := by
  obtain ⟨hids, hlookup⟩ := insertAll_named new [] hnamed
  unfold addTasks
  cases hinsert : new.insertAll [] tasks with
  | mk answer added =>
      rw [hinsert] at hids hlookup
      obtain rfl : answer = .ok (tasks.filterMap taskId?) := hids
      have hadded : ∀ q, added.lookup q = (lastTask tasks q).map .ofTask :=
        fun q => (hlookup q).trans (Option.or_none)
      refine ⟨added, hadded, ?_⟩
      dsimp only
      split
      · rename_i hcycle
        refine .inl ⟨hcycle, fun q => ?_⟩
        rw [lookup_removeTasks]
        split
        · rfl
        · rename_i hq
          rw [hadded, lastTask_eq_none.mpr hq, Option.map_none]
      · rename_i hcycle
        exact .inr ⟨by simpa using hcycle, rfl⟩

theorem lookup_load (hnamed : ∀ task ∈ tasks, taskId? task ≠ none) :
    (∀ q, (new.addTasks tasks).2.lookup q = none) ∨
      ∀ q, (new.addTasks tasks).2.lookup q = (lastTask tasks q).map .ofTask := by
  obtain ⟨added, hadded, ⟨_, hnone⟩ | ⟨_, heq⟩⟩ := addTasks_new hnamed
  · exact .inl hnone
  · rw [heq]
    exact .inr hadded

/-- Tasks without dependencies are all loaded. -/
theorem lookup_load_of_free (hnamed : ∀ task ∈ tasks, taskId? task ≠ none)
    (hfree : ∀ q task, lastTask tasks q = some task → parseDependsOn task = []) (q : String) :
    (new.addTasks tasks).2.lookup q = (lastTask tasks q).map .ofTask := by
  obtain ⟨added, hadded, ⟨hcycle, _⟩ | ⟨_, heq⟩⟩ := addTasks_new hnamed
  · have hnocycle : added.detectCycle = false := by
      apply detectCycle_of_free
      intro id node hnode
      rw [hadded] at hnode
      obtain ⟨task, htask, rfl⟩ := Option.map_eq_some_iff.mp hnode
      exact hfree id task htask
    rw [hnocycle] at hcycle
    contradiction
  · rw [heq]
    exact hadded q

/-! ## Bookkeeping -/

theorem insertionOrder_markCompleted (graph : TaskGraph) (id : String) :
    (graph.markCompleted id).insertionOrder = graph.insertionOrder := by
  unfold markCompleted
  rw [insertionOrder_setAll, insertionOrder_setStatus]

/-- Every task of the graph is in its order, with the dependencies that it names. -/
structure Filed (graph : TaskGraph) : Prop where
  ordered : ∀ q node, graph.lookup q = some node → q ∈ graph.insertionOrder
  parsed : ∀ q node, graph.lookup q = some node → node.dependsOn = parseDependsOn node.task

namespace Filed

theorem new : Filed .new :=
  ⟨fun _ _ hnode => by contradiction, fun _ _ hnode => by contradiction⟩

theorem of_sameTasks (h : graph.Filed) (hsame : graph.SameTasks graph')
    (horder : graph'.insertionOrder = graph.insertionOrder) : graph'.Filed := by
  refine ⟨fun q node hnode => ?_, fun q node hnode => ?_⟩
  · obtain ⟨found, hfound, _⟩ := hsame.known hnode
    rw [horder]
    exact h.ordered q found hfound
  · obtain ⟨found, hfound, htask, hdeps⟩ := hsame.known hnode
    rw [← htask, ← hdeps]
    exact h.parsed q found hfound

theorem setStatus (h : graph.Filed) (id : String) (status : TaskStatus) :
    (graph.setStatus id status).Filed :=
  h.of_sameTasks (sameTasks_setStatus graph id status) (insertionOrder_setStatus graph id status)

theorem markCompleted (h : graph.Filed) (id : String) : (graph.markCompleted id).Filed :=
  h.of_sameTasks (sameTasks_markCompleted graph id) (insertionOrder_markCompleted graph id)

theorem insertAll (h : graph.Filed) (addedIds : List String) (tasks : List Json) :
    (graph.insertAll addedIds tasks).2.Filed := by
  induction tasks generalizing graph addedIds with
  | nil => exact h
  | cons task rest ih =>
      unfold TaskGraph.insertAll
      split
      · exact h
      · rename_i id hid
        apply ih
        refine ⟨fun q node hnode => ?_, fun q node hnode => ?_⟩
        · rw [lookup_insertTask] at hnode
          apply List.mem_append.mpr
          split at hnode
          · rename_i hq
            exact .inr (hq ▸ List.mem_cons_self)
          · exact .inl (h.ordered q node hnode)
        · rw [lookup_insertTask] at hnode
          split at hnode
          · cases hnode
            rfl
          · exact h.parsed q node hnode

/-- A batch that is refused leaves the order as it was. -/
theorem addTasks (h : graph.Filed) (tasks : List Json) : (graph.addTasks tasks).2.Filed := by
  have hadded := h.insertAll [] tasks
  unfold TaskGraph.addTasks
  cases hinsert : graph.insertAll [] tasks with
  | mk answer added =>
      rw [hinsert] at hadded
      cases answer with
      | error text => exact hadded
      | ok ids =>
          dsimp only
          split
          · obtain ⟨rfl, horder⟩ := insertAll_ok hinsert
            refine ⟨fun q node hnode => ?_, fun q node hnode => ?_⟩
            · rw [lookup_removeTasks] at hnode
              split at hnode
              · contradiction
              · rename_i hq
                have hin := hadded.ordered q node hnode
                rw [horder] at hin
                have hbefore := (List.mem_append.mp hin).resolve_right hq
                show q ∈ added.insertionOrder.take graph.insertionOrder.length
                rw [horder, List.take_left]
                exact hbefore
            · rw [lookup_removeTasks] at hnode
              split at hnode
              · contradiction
              · exact hadded.parsed q node hnode
          · exact hadded

theorem mem_readyTasks_iff (h : graph.Filed) {task : Json} :
    task ∈ graph.readyTasks ↔
      ∃ q node, graph.lookup q = some node ∧ node.status = .ready ∧ node.task = task := by
  constructor
  · intro htask
    obtain ⟨q, node, _, hnode, hready, heq⟩ := mem_readyTasks htask
    exact ⟨q, node, hnode, hready, heq⟩
  · rintro ⟨q, node, hnode, hready, rfl⟩
    apply List.mem_filterMap.mpr
    refine ⟨q, h.ordered q node hnode, ?_⟩
    rw [hnode, Option.bind_some, if_pos hready]

end Filed

end TaskGraph

end Zeptobeam
