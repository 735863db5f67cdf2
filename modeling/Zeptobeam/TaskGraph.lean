/-
The task graph of an orchestrator: tasks by their ids, with dependencies and states.
In which order a hash map yields its entries decides nothing here.
-/
import Zeptobeam.Types
import Zeptobeam.Lib.ReplayLog

namespace Zeptobeam

inductive TaskStatus where
  | pending
  | ready
  | awaitingApproval
  | running
  | completed
  | failed
  | skipped
deriving DecidableEq, Repr

structure TaskNode where
  task : Json
  dependsOn : List String
  status : TaskStatus

/-- `task.get("task_id").and_then(|v| v.as_str())`. -/
def taskId? (task : Json) : Option String :=
  (task.get? "task_id").bind Json.toString?

def parseDependsOn (task : Json) : List String :=
  (((task.get? "depends_on").bind Json.toArray?).map
    fun items => items.filterMap Json.toString?).getD []

/-- A task as it is added. -/
def TaskNode.ofTask (task : Json) : TaskNode :=
  let dependsOn := parseDependsOn task
  { task, dependsOn, status := if dependsOn = [] then .ready else .pending }

structure TaskGraph where
  tasks : AList fun _ : String => TaskNode
  insertionOrder : List String
  /-- A task is kept under its own id. -/
  keyed : ∀ id node, tasks.lookup id = some node → taskId? node.task = some id

namespace TaskGraph

def new : TaskGraph :=
  ⟨∅, [], fun _ _ h => by simp at h⟩

def lookup (graph : TaskGraph) (id : String) : Option TaskNode :=
  graph.tasks.lookup id

def taskStatus (graph : TaskGraph) (id : String) : Option TaskStatus :=
  (graph.lookup id).map TaskNode.status

/-- `set_status`; `mark_running` and `mark_failed` are cases of it. -/
def setStatus (graph : TaskGraph) (id : String) (status : TaskStatus) : TaskGraph :=
  match h : graph.lookup id with
  | none => graph
  | some node =>
      { tasks := graph.tasks.insert id { node with status }
        insertionOrder := graph.insertionOrder
        keyed := by
          intro id' node' h'
          by_cases heq : id' = id
          · subst heq
            rw [AList.lookup_insert, Option.some.injEq] at h'
            exact h' ▸ graph.keyed id' node h
          · rw [AList.lookup_insert_ne heq] at h'
            exact graph.keyed id' node' h' }

def markRunning (graph : TaskGraph) (id : String) : TaskGraph := graph.setStatus id .running

def markFailed (graph : TaskGraph) (id : String) : TaskGraph := graph.setStatus id .failed

def setAll (graph : TaskGraph) (ids : List String) (status : TaskStatus) : TaskGraph :=
  ids.foldl (fun graph id => graph.setStatus id status) graph

/-- Pending, and every dependency is completed. -/
def promotable (graph : TaskGraph) (node : TaskNode) : Bool :=
  node.status = .pending && node.dependsOn.all fun dep =>
    graph.taskStatus dep = some .completed

def markCompleted (graph : TaskGraph) (id : String) : TaskGraph :=
  let graph := graph.setStatus id .completed
  graph.setAll ((graph.tasks.entries.filter fun entry => graph.promotable entry.2).map
    Sigma.fst) .ready

/-! ## Failure of dependents -/

/-- Who depends on a task, once for each mention. -/
def dependents (graph : TaskGraph) (id : String) : List String :=
  graph.tasks.entries.flatMap fun entry =>
    (entry.2.dependsOn.filter (· = id)).map fun _ => entry.1

/-- The breadth-first walk of `fail_dependents`. -/
def skipFrom (reverseDeps : String → List String) :
    Nat → List String → List String → TaskGraph → TaskGraph
  | 0, _, _, graph => graph
  | _ + 1, _, [], graph => graph
  | fuel + 1, visited, current :: queue, graph =>
      if current ∈ visited then skipFrom reverseDeps fuel visited queue graph
      else
        let downstream := reverseDeps current
        skipFrom reverseDeps fuel (current :: visited) (queue ++ downstream)
          (graph.setAll downstream .skipped)

/-- All mentions of a task as a dependency; the walk queues no more than these. -/
def edgeCount (graph : TaskGraph) : Nat :=
  (graph.tasks.entries.map fun entry => entry.2.dependsOn.length).sum

def failDependents (graph : TaskGraph) (id : String) : TaskGraph :=
  skipFrom graph.dependents (graph.edgeCount + 1) [] [id] graph

/-! ## Cycles -/

/-- One dependent of a processed task loses a dependency. -/
def release (s : (AList fun _ : String => Nat) × List String) (id : String) :
    (AList fun _ : String => Nat) × List String :=
  match s.1.lookup id with
  | none => s
  | some degree =>
      (s.1.insert id (degree - 1), if degree - 1 = 0 then s.2 ++ [id] else s.2)

/-- Kahn's loop: how many tasks it processes. -/
def processFrom (dependents : String → List String) :
    Nat → (AList fun _ : String => Nat) → List String → Nat → Nat
  | 0, _, _, processed => processed
  | _ + 1, _, [], processed => processed
  | fuel + 1, inDegree, current :: queue, processed =>
      let (inDegree, queue) := (dependents current).foldl release (inDegree, queue)
      processFrom dependents fuel inDegree queue (processed + 1)

/-- Only dependencies that are in the graph count. -/
def inDegree (graph : TaskGraph) (node : TaskNode) : Nat :=
  (node.dependsOn.filter fun dep => (graph.lookup dep).isSome).length

def detectCycle (graph : TaskGraph) : Bool :=
  let degrees := (graph.tasks.entries.map fun entry =>
    (⟨entry.1, graph.inDegree entry.2⟩ : Sigma fun _ : String => Nat)).toAList
  let queue := (graph.tasks.entries.filter fun entry => graph.inDegree entry.2 = 0).map
    Sigma.fst
  processFrom graph.dependents graph.tasks.entries.length degrees queue 0 <
    graph.tasks.entries.length

/-! ## Adding tasks -/

def insertTask (graph : TaskGraph) (task : Json) (id : String) (h : taskId? task = some id) :
    TaskGraph where
  tasks := graph.tasks.insert id (TaskNode.ofTask task)
  insertionOrder := graph.insertionOrder ++ [id]
  keyed := by
    intro id' node' h'
    by_cases heq : id' = id
    · subst heq
      rw [AList.lookup_insert, Option.some.injEq] at h'
      exact h' ▸ h
    · rw [AList.lookup_insert_ne heq] at h'
      exact graph.keyed id' node' h'

/-- The loop of `add_tasks`; it stops at a task without an id, and what it has added by
then stays. -/
def insertAll (graph : TaskGraph) (addedIds : List String) :
    List Json → Except String (List String) × TaskGraph
  | [] => (.ok addedIds, graph)
  | task :: rest =>
      match h : taskId? task with
      | none => (.error "Task missing task_id", graph)
      | some id => (graph.insertTask task id h).insertAll (addedIds ++ [id]) rest

def removeTasks (graph : TaskGraph) (ids : List String) (order : List String) :
    TaskGraph where
  tasks := ids.foldl (fun tasks id => tasks.erase id) graph.tasks
  insertionOrder := order
  keyed := by
    obtain ⟨tasks, _, hkeyed⟩ := graph
    dsimp only
    induction ids generalizing tasks with
    | nil => exact hkeyed
    | cons id rest ih =>
        apply ih
        intro id' node' h'
        by_cases heq : id' = id
        · subst heq
          rw [AList.lookup_erase] at h'
          contradiction
        · rw [AList.lookup_erase_ne heq] at h'
          exact hkeyed id' node' h'

def addTasks (graph : TaskGraph) (tasks : List Json) : Except String Unit × TaskGraph :=
  match graph.insertAll [] tasks with
  | (.error text, added) => (.error text, added)
  | (.ok addedIds, added) =>
      if added.detectCycle then
        (.error "Cycle detected in task dependencies",
          added.removeTasks addedIds (added.insertionOrder.take graph.insertionOrder.length))
      else (.ok (), added)

/-! ## Queries -/

def readyTasks (graph : TaskGraph) : List Json :=
  graph.insertionOrder.filterMap fun id =>
    (graph.lookup id).bind fun node => if node.status = .ready then some node.task else none

def isComplete (graph : TaskGraph) : Bool :=
  graph.tasks.entries.all fun entry =>
    entry.2.status = .completed || entry.2.status = .failed || entry.2.status = .skipped

/-! ## What a change of states leaves -/

@[simp]
theorem lookup_setStatus (graph : TaskGraph) (id q : String) (status : TaskStatus) :
    (graph.setStatus id status).lookup q =
      if q = id then (graph.lookup q).map ({ · with status }) else graph.lookup q := by
  unfold setStatus
  split
  · rename_i hnone
    by_cases hq : q = id
    · rw [if_pos hq, hq, hnone]
      rfl
    · rw [if_neg hq]
  · rename_i node hnode
    by_cases hq : q = id
    · have hlookup := congrArg (Option.map ({ · with status })) hnode
      rw [if_pos hq, hq, hlookup]
      exact AList.lookup_insert _
    · rw [if_neg hq]
      exact AList.lookup_insert_ne hq

theorem taskStatus_setStatus (graph : TaskGraph) (id q : String) (status : TaskStatus) :
    (graph.setStatus id status).taskStatus q =
      if q = id then (graph.taskStatus q).map fun _ => status else graph.taskStatus q := by
  unfold taskStatus
  rw [lookup_setStatus]
  split
  · rw [Option.map_map, Option.map_map]
    rfl
  · rfl

@[simp]
theorem insertionOrder_setStatus (graph : TaskGraph) (id : String) (status : TaskStatus) :
    (graph.setStatus id status).insertionOrder = graph.insertionOrder := by
  unfold setStatus
  split
  · rfl
  · rfl

theorem lookup_setAll (graph : TaskGraph) (ids : List String) (status : TaskStatus)
    (q : String) :
    (graph.setAll ids status).lookup q =
      if q ∈ ids then (graph.lookup q).map ({ · with status }) else graph.lookup q := by
  unfold setAll
  induction ids generalizing graph with
  | nil => simp
  | cons id rest ih =>
      rw [List.foldl_cons, ih, lookup_setStatus]
      by_cases hrest : q ∈ rest
      · rw [if_pos hrest, if_pos (List.mem_cons_of_mem id hrest)]
        split
        · rw [Option.map_map]
          rfl
        · rfl
      · rw [if_neg hrest]
        by_cases hq : q = id
        · rw [if_pos hq, if_pos (hq ▸ List.mem_cons_self)]
        · rw [if_neg hq, if_neg (List.not_mem_cons_of_ne_of_not_mem hq hrest)]

@[simp]
theorem insertionOrder_setAll (graph : TaskGraph) (ids : List String) (status : TaskStatus) :
    (graph.setAll ids status).insertionOrder = graph.insertionOrder := by
  unfold setAll
  induction ids generalizing graph with
  | nil => rfl
  | cons id rest ih => rw [List.foldl_cons, ih, insertionOrder_setStatus]

theorem mem_readyTasks {graph : TaskGraph} {task : Json} (h : task ∈ graph.readyTasks) :
    ∃ id node, taskId? task = some id ∧ graph.lookup id = some node ∧
      node.status = .ready ∧ node.task = task := by
  obtain ⟨id, _, hid⟩ := List.mem_filterMap.mp h
  obtain ⟨node, hnode, hready⟩ := Option.bind_eq_some_iff.mp hid
  split at hready
  · rename_i hstatus
    cases hready
    exact ⟨id, node, graph.keyed id node hnode, hnode, hstatus, rfl⟩
  · contradiction

/-- Some tasks failed or were skipped, and nothing else happened. -/
structure Closes (graph graph' : TaskGraph) : Prop where
  lookup : ∀ q, graph'.lookup q = graph.lookup q ∨ ∃ status,
    (status = .failed ∨ status = .skipped) ∧
      graph'.lookup q = (graph.lookup q).map ({ · with status })
  insertionOrder : graph'.insertionOrder = graph.insertionOrder

theorem Closes.refl (graph : TaskGraph) : Closes graph graph :=
  ⟨fun _ => .inl rfl, rfl⟩

theorem Closes.trans {graph graph' graph'' : TaskGraph} (h : Closes graph graph')
    (h' : Closes graph' graph'') : Closes graph graph'' := by
  refine ⟨fun q => ?_, h'.insertionOrder.trans h.insertionOrder⟩
  rcases h'.lookup q with hsame | ⟨status, hclosed, hlookup⟩
  · rw [hsame]
    exact h.lookup q
  · right
    refine ⟨status, hclosed, ?_⟩
    rcases h.lookup q with hfirst | ⟨_, _, hfirst⟩
    · rw [hlookup, hfirst]
    · rw [hlookup, hfirst, Option.map_map]
      rfl

/-- Whatever has another state had it before. -/
theorem Closes.taskStatus_of {graph graph' : TaskGraph} (h : Closes graph graph') {q : String}
    {status : TaskStatus} (hq : graph'.taskStatus q = some status)
    (hopen : status ≠ .failed ∧ status ≠ .skipped) : graph.taskStatus q = some status := by
  unfold taskStatus at hq ⊢
  rcases h.lookup q with hsame | ⟨closed, hclosed, hlookup⟩
  · rwa [hsame] at hq
  · rw [hlookup, Option.map_map] at hq
    obtain ⟨_, _, rfl⟩ := Option.map_eq_some_iff.mp hq
    exact absurd hclosed (not_or.mpr hopen)

theorem closes_setAll (graph : TaskGraph) (ids : List String) {status : TaskStatus}
    (hclosed : status = .failed ∨ status = .skipped) :
    Closes graph (graph.setAll ids status) := by
  refine ⟨fun q => ?_, insertionOrder_setAll graph ids status⟩
  rw [lookup_setAll]
  split
  · exact .inr ⟨status, hclosed, rfl⟩
  · exact .inl rfl

theorem closes_markFailed (graph : TaskGraph) (id : String) :
    Closes graph (graph.markFailed id) :=
  closes_setAll graph [id] (.inl rfl)

theorem closes_skipFrom (reverseDeps : String → List String) (fuel : Nat)
    (visited queue : List String) (graph : TaskGraph) :
    Closes graph (skipFrom reverseDeps fuel visited queue graph) := by
  induction fuel generalizing visited queue graph with
  | zero => exact .refl graph
  | succ fuel ih =>
      cases queue with
      | nil => exact .refl graph
      | cons current queue =>
          unfold skipFrom
          split
          · exact ih visited queue graph
          · exact (closes_setAll graph (reverseDeps current) (.inr rfl)).trans (ih _ _ _)

theorem closes_failDependents (graph : TaskGraph) (id : String) :
    Closes graph (graph.failDependents id) :=
  closes_skipFrom _ _ _ _ _

/-- Besides the completed task, pending ones may have become ready. -/
theorem lookup_markCompleted (graph : TaskGraph) (id q : String) :
    (graph.markCompleted id).lookup q = (graph.setStatus id .completed).lookup q ∨
      ∃ node, (graph.setStatus id .completed).lookup q = some node ∧
        node.status = .pending ∧
        (graph.markCompleted id).lookup q = some { node with status := .ready } := by
  unfold markCompleted
  dsimp only
  rw [lookup_setAll]
  split
  · rename_i hpromoted
    right
    obtain ⟨entry, hentry, rfl⟩ := List.mem_map.mp hpromoted
    obtain ⟨hmem, hpromotable⟩ := List.mem_filter.mp hentry
    have hlookup : (graph.setStatus id .completed).lookup entry.1 = some entry.2 :=
      AList.mem_lookup_iff.mpr hmem
    have hpending : entry.2.status = .pending := by
      simp only [promotable, Bool.and_eq_true, decide_eq_true_eq] at hpromotable
      exact hpromotable.1
    exact ⟨entry.2, hlookup, hpending, by rw [hlookup]; rfl⟩
  · exact .inl rfl

/-- The same tasks with the same dependencies, in whichever states. -/
def SameTasks (graph graph' : TaskGraph) : Prop :=
  ∀ q, (graph'.lookup q).map (fun node => (node.task, node.dependsOn)) =
    (graph.lookup q).map fun node => (node.task, node.dependsOn)

theorem SameTasks.refl (graph : TaskGraph) : SameTasks graph graph :=
  fun _ => rfl

theorem SameTasks.known {graph graph' : TaskGraph} (h : SameTasks graph graph') {q : String}
    {node : TaskNode} (hnode : graph'.lookup q = some node) :
    ∃ found, graph.lookup q = some found ∧ found.task = node.task ∧
      found.dependsOn = node.dependsOn := by
  have hsame := h q
  rw [hnode, Option.map_some] at hsame
  obtain ⟨found, hfound, heq⟩ := Option.map_eq_some_iff.mp hsame.symm
  obtain ⟨htask, hdeps⟩ := Prod.mk.inj heq
  exact ⟨found, hfound, htask, hdeps⟩

theorem sameTasks_setStatus (graph : TaskGraph) (id : String) (status : TaskStatus) :
    SameTasks graph (graph.setStatus id status) := by
  intro q
  rw [lookup_setStatus]
  split
  · rw [Option.map_map]
    rfl
  · rfl

theorem Closes.sameTasks {graph graph' : TaskGraph} (h : Closes graph graph') :
    SameTasks graph graph' := by
  intro q
  rcases h.lookup q with hsame | ⟨status, _, hlookup⟩
  · rw [hsame]
  · rw [hlookup, Option.map_map]
    rfl

theorem sameTasks_markCompleted (graph : TaskGraph) (id : String) :
    SameTasks graph (graph.markCompleted id) := by
  intro q
  have hset := sameTasks_setStatus graph id .completed q
  rcases lookup_markCompleted graph id q with hsame | ⟨node, hnode, _, hpromoted⟩
  · rw [hsame]
    exact hset
  · rw [hnode] at hset
    rw [hpromoted]
    exact hset

/-! ## What adding leaves -/

theorem lookup_insertTask (graph : TaskGraph) (task : Json) (id q : String)
    (h : taskId? task = some id) :
    (graph.insertTask task id h).lookup q =
      if q = id then some (.ofTask task) else graph.lookup q := by
  by_cases hq : q = id
  · rw [if_pos hq, hq]
    exact AList.lookup_insert _
  · rw [if_neg hq]
    exact AList.lookup_insert_ne hq

/-- A task is there afterwards because it was there, or because it was added. -/
theorem lookup_insertAll (graph : TaskGraph) (addedIds : List String) (tasks : List Json)
    (q : String) :
    (graph.insertAll addedIds tasks).2.lookup q = graph.lookup q ∨
      ∃ task ∈ tasks, taskId? task = some q ∧
        (graph.insertAll addedIds tasks).2.lookup q = some (.ofTask task) := by
  induction tasks generalizing graph addedIds with
  | nil => exact .inl rfl
  | cons task rest ih =>
      unfold insertAll
      split
      · exact .inl rfl
      · rename_i id hid
        rcases ih (graph.insertTask task id hid) (addedIds ++ [id]) with hsame | hadded
        · rw [hsame, lookup_insertTask]
          split
          · rename_i hq
            exact .inr ⟨task, List.mem_cons_self, hq ▸ hid, rfl⟩
          · exact .inl rfl
        · obtain ⟨other, hother, hlookup⟩ := hadded
          exact .inr ⟨other, List.mem_cons_of_mem task hother, hlookup⟩

theorem mem_addedIds {graph graph' : TaskGraph} {addedIds ids : List String}
    {tasks : List Json} (h : graph.insertAll addedIds tasks = (.ok ids, graph'))
    {q : String} (hq : q ∈ ids) :
    q ∈ addedIds ∨ ∃ task ∈ tasks, taskId? task = some q := by
  induction tasks generalizing graph addedIds with
  | nil =>
      obtain ⟨hids, _⟩ := Prod.mk.inj h
      exact .inl (Except.ok.inj hids ▸ hq)
  | cons task rest ih =>
      unfold insertAll at h
      split at h
      · cases h
      · rename_i id hid
        rcases ih h with hadded | ⟨other, hother, hotherId⟩
        · rcases List.mem_append.mp hadded with hadded | hnew
          · exact .inl hadded
          · exact .inr ⟨task, List.mem_cons_self, List.mem_singleton.mp hnew ▸ hid⟩
        · exact .inr ⟨other, List.mem_cons_of_mem task hother, hotherId⟩

theorem lookup_removeTasks (graph : TaskGraph) (ids order : List String) (q : String) :
    (graph.removeTasks ids order).lookup q = if q ∈ ids then none else graph.lookup q :=
  ReplayLog.lookup_foldl_erase ids graph.tasks q

/-- The same after the whole of `add_tasks`, which may take back what it added. -/
theorem lookup_addTasks (graph : TaskGraph) (tasks : List Json) (q : String) :
    (graph.addTasks tasks).2.lookup q = graph.lookup q ∨
      ∃ task ∈ tasks, taskId? task = some q ∧
        ((graph.addTasks tasks).2.lookup q = some (.ofTask task) ∨
          (graph.addTasks tasks).2.lookup q = none) := by
  have hadded := lookup_insertAll graph [] tasks q
  unfold addTasks
  cases hinsert : graph.insertAll [] tasks with
  | mk answer added =>
      rw [hinsert] at hadded
      have hkept : added.lookup q = graph.lookup q ∨ ∃ task ∈ tasks, taskId? task = some q ∧
          (added.lookup q = some (.ofTask task) ∨ added.lookup q = none) := by
        rcases hadded with hsame | ⟨task, htask, hid, hlookup⟩
        · exact .inl hsame
        · exact .inr ⟨task, htask, hid, .inl hlookup⟩
      cases answer with
      | error text => exact hkept
      | ok ids =>
          dsimp only
          split
          · rw [lookup_removeTasks]
            split
            · rename_i hq
              rcases mem_addedIds hinsert hq with hnone | ⟨task, htask, hid⟩
              · contradiction
              · exact .inr ⟨task, htask, hid, .inr rfl⟩
            · exact hkept
          · exact hkept

end TaskGraph

end Zeptobeam
