/-
Readiness: a task of the graph is ready, or further, only when all that it depends on is
completed.
-/
import Zeptobeam.TaskGraph
import Zeptobeam.Lib.BreadthFirst
import Zeptobeam.Lib.GuardedRun

namespace Zeptobeam

/-- What a run does with a task graph. -/
inductive GraphOp where
  | addTasks (tasks : List Json)
  | markRunning (id : String)
  | markCompleted (id : String)
  | markFailed (id : String)
  | failDependents (id : String)
  | setStatus (id : String) (status : TaskStatus)

namespace TaskStatus

/-- A task that is to be dispatched, or is being worked on. -/
def Open (status : TaskStatus) : Prop :=
  status = .ready ∨ status = .awaitingApproval ∨ status = .running

/-- A task whose dependencies were waited for. -/
def Unlocked (status : TaskStatus) : Prop :=
  status.Open ∨ status = .completed

instance (status : TaskStatus) : Decidable status.Open :=
  inferInstanceAs (Decidable (_ ∨ _ ∨ _))

instance (status : TaskStatus) : Decidable status.Unlocked :=
  inferInstanceAs (Decidable (_ ∨ _))

end TaskStatus

namespace TaskGraph

open BreadthFirst GuardedRun

def step (graph : TaskGraph) : GraphOp → TaskGraph
  | .addTasks tasks => (graph.addTasks tasks).2
  | .markRunning id => graph.markRunning id
  | .markCompleted id => graph.markCompleted id
  | .markFailed id => graph.markFailed id
  | .failDependents id => graph.failDependents id
  | .setStatus id status => graph.setStatus id status

/-! ## What depends on a task -/

/-- A task that depends on another one, over any number of tasks. -/
def Downstream (graph : TaskGraph) (id q : String) : Prop :=
  Relation.TransGen (fun v w => w ∈ graph.dependents v) id q

theorem mem_dependents {graph : TaskGraph} {id q : String} :
    q ∈ graph.dependents id ↔ ∃ node, graph.lookup q = some node ∧ id ∈ node.dependsOn := by
  unfold dependents
  simp only [List.mem_flatMap, List.mem_map, List.mem_filter, decide_eq_true_eq]
  constructor
  · rintro ⟨⟨key, node⟩, hentry, dep, ⟨hdep, rfl⟩, rfl⟩
    exact ⟨node, AList.mem_lookup_iff.mpr hentry, hdep⟩
  · rintro ⟨node, hlookup, hdep⟩
    exact ⟨⟨q, node⟩, AList.mem_lookup_iff.mp hlookup, id, ⟨hdep, rfl⟩, rfl⟩

/-- Every mention of a task as a dependency. -/
def mentions (graph : TaskGraph) : List String :=
  graph.tasks.entries.flatMap fun entry => entry.2.dependsOn

theorem length_mentions (graph : TaskGraph) : graph.mentions.length = graph.edgeCount :=
  List.length_flatMap

theorem length_dependents (graph : TaskGraph) (id : String) :
    (graph.dependents id).length = graph.mentions.count id := by
  unfold dependents mentions
  induction graph.tasks.entries with
  | nil => rfl
  | cons entry rest ih =>
      have hcount : (entry.2.dependsOn.filter (· = id)).length =
          entry.2.dependsOn.count id := by
        rw [List.count, List.countP_eq_length_filter]
        rfl
      rw [List.flatMap_cons, List.flatMap_cons, List.length_append, List.count_append,
        List.length_map, hcount, ih]

/-! ## The exact effect of the operations -/

theorem lookup_skipFrom (reverseDeps : String → List String) (fuel : Nat)
    (visited queue : List String) (graph : TaskGraph) (q : String) :
    (skipFrom reverseDeps fuel visited queue graph).lookup q =
      if q ∈ discovered reverseDeps fuel visited queue then
        (graph.lookup q).map ({ · with status := .skipped })
      else graph.lookup q := by
  induction fuel generalizing visited queue graph with
  | zero => rfl
  | succ fuel ih =>
      cases queue with
      | nil => rfl
      | cons current queue =>
          unfold skipFrom discovered
          split
          · exact ih visited queue graph
          · dsimp only
            rw [ih, lookup_setAll]
            by_cases hlater : q ∈ discovered reverseDeps fuel (current :: visited)
                (queue ++ reverseDeps current)
            · rw [if_pos hlater, if_pos (List.mem_append_right _ hlater)]
              split
              · rw [Option.map_map]
                rfl
              · rfl
            · rw [if_neg hlater]
              by_cases hnext : q ∈ reverseDeps current
              · rw [if_pos hnext, if_pos (List.mem_append_left _ hnext)]
              · have hnot : q ∉ reverseDeps current ++ discovered reverseDeps fuel
                    (current :: visited) (queue ++ reverseDeps current) :=
                  fun hmem => (List.mem_append.mp hmem).elim hnext hlater
                rw [if_neg hnext, if_neg hnot]

/-- Everything downstream is skipped, in whichever state it was, and nothing else. -/
theorem lookup_failDependents (graph : TaskGraph) (id q : String) :
    (graph.Downstream id q ∧ (graph.failDependents id).lookup q =
        (graph.lookup q).map ({ · with status := .skipped })) ∨
      (¬ graph.Downstream id q ∧ (graph.failDependents id).lookup q = graph.lookup q) := by
  have hmentions : ∀ node, (graph.dependents node).length ≤ graph.mentions.count node :=
    fun node => (graph.length_dependents node).le
  have hfuel : graph.mentions.length + 1 ≤ graph.edgeCount + 1 :=
    (congrArg (· + 1) graph.length_mentions).le
  have hwalk := mem_discovered_iff hmentions hfuel id q
  have hlookup := lookup_skipFrom graph.dependents (graph.edgeCount + 1) [] [id] graph q
  by_cases hdown : graph.Downstream id q
  · rw [if_pos (hwalk.mpr hdown)] at hlookup
    exact .inl ⟨hdown, hlookup⟩
  · rw [if_neg (fun hmem => hdown (hwalk.mp hmem))] at hlookup
    exact .inr ⟨hdown, hlookup⟩

/-- The task is completed, and exactly the tasks that waited for nothing else become
ready. -/
theorem lookup_markCompleted_eq (graph : TaskGraph) (id q : String) :
    (graph.markCompleted id).lookup q =
      ((graph.setStatus id .completed).lookup q).map fun node =>
        if (graph.setStatus id .completed).promotable node then { node with status := .ready }
        else node := by
  unfold markCompleted
  generalize graph.setStatus id .completed = completed
  dsimp only
  rw [lookup_setAll]
  cases hnode : completed.lookup q with
  | none => split <;> rfl
  | some node =>
      have hpromoted : q ∈ (completed.tasks.entries.filter fun entry =>
          completed.promotable entry.2).map Sigma.fst ↔ completed.promotable node := by
        simp only [List.mem_map, List.mem_filter]
        constructor
        · rintro ⟨⟨key, other⟩, ⟨hentry, hpromotable⟩, rfl⟩
          have hother : completed.lookup key = some other := AList.mem_lookup_iff.mpr hentry
          cases hnode.symm.trans hother
          exact hpromotable
        · intro hpromotable
          exact ⟨⟨q, node⟩, ⟨AList.mem_lookup_iff.mp hnode, hpromotable⟩, rfl⟩
      split
      · rename_i hmem
        rw [Option.map_some, Option.map_some, if_pos (hpromoted.mp hmem)]
      · rename_i hmem
        rw [Option.map_some, if_neg (fun hpromotable => hmem (hpromoted.mpr hpromotable))]

/-! ## Readiness -/

/-- All that was waited for is completed. -/
def Readiness (graph : TaskGraph) : Prop :=
  ∀ id node, graph.lookup id = some node → node.status.Unlocked →
    ∀ dep ∈ node.dependsOn, graph.taskStatus dep = some .completed

/-- The dependencies of a task are completed. -/
def DependenciesDone (graph : TaskGraph) (id : String) : Prop :=
  ∀ node, graph.lookup id = some node → ∀ dep ∈ node.dependsOn,
    graph.taskStatus dep = some .completed

/-- Batches bring ids that are new and distinct; a task is taken on when it is ready, and it
ends when it is running. -/
def Legal (graph : TaskGraph) : GraphOp → Prop
  | .addTasks tasks => (tasks.filterMap taskId?).Nodup ∧
      ∀ id ∈ tasks.filterMap taskId?, graph.lookup id = none
  | .markRunning id => graph.taskStatus id = some .ready
  | .markCompleted id => graph.taskStatus id = some .running
  | .markFailed id => graph.taskStatus id = some .running
  | .failDependents _ => True
  | .setStatus id status => status.Open ∧
      ∃ found, graph.taskStatus id = some found ∧ found.Open

theorem new_readiness : Readiness .new := by
  intro id node hlookup
  contradiction

namespace Readiness

variable {graph : TaskGraph}

theorem done (h : Readiness graph) {id : String} {status : TaskStatus}
    (hstatus : graph.taskStatus id = some status) (hunlocked : status.Unlocked) :
    DependenciesDone graph id := by
  intro node hnode
  obtain ⟨found, hfound, rfl⟩ := Option.map_eq_some_iff.mp hstatus
  obtain rfl := Option.some.inj (hfound.symm.trans hnode)
  exact h id found hfound hunlocked

/-- A task that is not completed may get another state, but an unlocked one only when its
dependencies are done. -/
theorem setStatus (h : Readiness graph) {id : String} {status : TaskStatus}
    (hkept : status = .completed ∨ graph.taskStatus id ≠ some .completed)
    (hdone : status.Unlocked → DependenciesDone graph id) :
    Readiness (graph.setStatus id status) := by
  have hcompleted : ∀ q, graph.taskStatus q = some .completed →
      (graph.setStatus id status).taskStatus q = some .completed := by
    intro q hq
    have hlookup := lookup_setStatus graph id q status
    obtain ⟨node, hnode, hstatus⟩ := Option.map_eq_some_iff.mp hq
    by_cases hid : q = id
    · rcases hkept with rfl | hnot
      · rw [if_pos hid, hnode] at hlookup
        exact Option.map_eq_some_iff.mpr ⟨_, hlookup, rfl⟩
      · exact absurd hq (hid ▸ hnot)
    · rw [if_neg hid] at hlookup
      exact Option.map_eq_some_iff.mpr ⟨node, hlookup.trans hnode, hstatus⟩
  intro q node hnode hunlocked dep hdep
  apply hcompleted
  rw [lookup_setStatus] at hnode
  split at hnode
  · rename_i hid
    obtain ⟨found, hfound, rfl⟩ := Option.map_eq_some_iff.mp hnode
    exact hdone hunlocked found (hid ▸ hfound) dep hdep
  · exact h q node hnode hunlocked dep hdep

theorem markCompleted (h : Readiness graph) {id : String} (hdone : DependenciesDone graph id) :
    Readiness (graph.markCompleted id) := by
  have hset : Readiness (graph.setStatus id .completed) :=
    h.setStatus (.inl rfl) fun _ => hdone
  have hlookup := lookup_markCompleted_eq graph id
  generalize graph.setStatus id .completed = completed at hset hlookup
  have hcompleted : ∀ q, completed.taskStatus q = some .completed →
      (graph.markCompleted id).taskStatus q = some .completed := by
    intro q hq
    obtain ⟨node, hnode, hstatus⟩ := Option.map_eq_some_iff.mp hq
    have hnot : completed.promotable node = false := by
      simp [promotable, hstatus]
    have hafter := hlookup q
    rw [hnode, Option.map_some, hnot] at hafter
    exact Option.map_eq_some_iff.mpr ⟨node, hafter, hstatus⟩
  intro q node hnode hunlocked dep hdep
  apply hcompleted
  rw [hlookup] at hnode
  obtain ⟨found, hfound, rfl⟩ := Option.map_eq_some_iff.mp hnode
  split at hunlocked
  · rename_i hpromotable
    rw [if_pos hpromotable] at hdep
    simp only [promotable, Bool.and_eq_true, List.all_eq_true, decide_eq_true_eq]
      at hpromotable
    exact hpromotable.2 dep hdep
  · rename_i hpromotable
    rw [if_neg hpromotable] at hdep
    exact hset q found hfound hunlocked dep hdep

/-- Whoever depends on something that is skipped is skipped too. -/
theorem failDependents (h : Readiness graph) (id : String) :
    Readiness (graph.failDependents id) := by
  intro q node hnode hunlocked dep hdep
  rcases lookup_failDependents graph id q with ⟨_, hskipped⟩ | ⟨hout, hsame⟩
  · rw [hskipped] at hnode
    obtain ⟨found, _, rfl⟩ := Option.map_eq_some_iff.mp hnode
    rcases hunlocked with (hopen | hopen | hopen) | hopen <;> contradiction
  · rw [hsame] at hnode
    have hcompleted := h q node hnode hunlocked dep hdep
    rcases lookup_failDependents graph id dep with ⟨hdown, _⟩ | ⟨_, hkept⟩
    · exact absurd (hdown.tail (mem_dependents.mpr ⟨node, hnode, hdep⟩)) hout
    · unfold taskStatus at hcompleted ⊢
      rw [hkept]
      exact hcompleted

/-- New tasks wait for nothing, or are locked. -/
theorem addTasks (h : Readiness graph) {tasks : List Json}
    (hnew : ∀ id ∈ tasks.filterMap taskId?, graph.lookup id = none) :
    Readiness (graph.addTasks tasks).2 := by
  have hkept : ∀ q, graph.lookup q ≠ none → (graph.addTasks tasks).2.lookup q =
      graph.lookup q := by
    intro q hq
    rcases graph.lookup_addTasks tasks q with hsame | ⟨task, htask, hid, _⟩
    · exact hsame
    · exact absurd (hnew q (List.mem_filterMap.mpr ⟨task, htask, hid⟩)) hq
  intro q node hnode hunlocked dep hdep
  rcases graph.lookup_addTasks tasks q with hsame | ⟨task, _, _, hadded | hgone⟩
  · have hcompleted := h q node (hsame ▸ hnode) hunlocked dep hdep
    obtain ⟨found, hfound, _⟩ := Option.map_eq_some_iff.mp hcompleted
    have hsameDep := hkept dep (by rw [hfound]; exact Option.some_ne_none found)
    unfold taskStatus at hcompleted ⊢
    rw [hsameDep]
    exact hcompleted
  · rw [hadded] at hnode
    cases hnode
    unfold TaskNode.ofTask at hunlocked hdep
    dsimp only at hunlocked hdep
    split at hunlocked
    · rename_i hnone
      rw [hnone] at hdep
      contradiction
    · rcases hunlocked with (hopen | hopen | hopen) | hopen <;> contradiction
  · rw [hgone] at hnode
    contradiction

theorem step (h : Readiness graph) {op : GraphOp} (hlegal : Legal graph op) :
    Readiness (graph.step op) := by
  cases op with
  | addTasks tasks => exact h.addTasks hlegal.2
  | markRunning id =>
      have hready : graph.taskStatus id = some .ready := hlegal
      exact h.setStatus (.inr (by simp [hready])) fun _ => h.done hready (.inl (.inl rfl))
  | markCompleted id => exact h.markCompleted (h.done hlegal (.inl (.inr (.inr rfl))))
  | markFailed id =>
      have hrunning : graph.taskStatus id = some .running := hlegal
      exact h.setStatus (.inr (by simp [hrunning])) fun _ =>
        h.done hrunning (.inl (.inr (.inr rfl)))
  | failDependents id => exact h.failDependents id
  | setStatus id status =>
      obtain ⟨_, found, hfound, hopen⟩ := hlegal
      refine h.setStatus (.inr ?_) fun _ => h.done hfound (.inl hopen)
      rw [hfound]
      rcases hopen with rfl | rfl | rfl <;> simp

end Readiness

/-- In every run of legal operations, every task that is ready, running or completed (or
waits for its approval) has all of its dependencies completed. -/
theorem unlocked_dependencies_completed (ops : List GraphOp)
    (hlegal : Guarded TaskGraph.step Legal .new ops) :
    Throughout TaskGraph.step Readiness .new ops := by
  intro pre hpre
  exact Guarded.keeps new_readiness (fun graph op h hop => h.step hop) (hlegal.shorten hpre)

/-- Two tasks, the second one after the first. -/
def twoTasks : List Json :=
  [.obj [("task_id", .str "a")],
    .obj [("depends_on", .arr [.str "a"]), ("task_id", .str "b")]]

/-- The second task runs when the first one is completed. -/
theorem unlocked_dependencies_completed_two :
    ([GraphOp.addTasks twoTasks, .markRunning "a", .markCompleted "a",
        .markRunning "b"].foldl TaskGraph.step .new).taskStatus "b" = some .running ∧
      Throughout TaskGraph.step Readiness .new
        [.addTasks twoTasks, .markRunning "a", .markCompleted "a", .markRunning "b"] := by
  refine ⟨by decide, unlocked_dependencies_completed _ ?_⟩
  refine Guarded.cons ⟨by decide, fun id _ => rfl⟩ ?_
  refine Guarded.cons (show TaskGraph.taskStatus _ _ = _ by decide) ?_
  refine Guarded.cons (show TaskGraph.taskStatus _ _ = _ by decide) ?_
  exact Guarded.cons (show TaskGraph.taskStatus _ _ = _ by decide) Guarded.nil

end TaskGraph

end Zeptobeam
