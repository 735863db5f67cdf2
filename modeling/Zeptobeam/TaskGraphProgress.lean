/-
Progress: a graph that is not complete has a task to be worked on, as long as every batch
names dependencies that are still to come to an end, and that can end well.
-/
import Zeptobeam.TaskGraphCycles

namespace Zeptobeam

namespace TaskGraph

open GuardedRun

theorem sameTasks_failDependents (graph : TaskGraph) (id : String) :
    graph.SameTasks (graph.failDependents id) :=
  (closes_failDependents graph id).sameTasks

theorem Acyclic.of_sameTasks {graph graph' : TaskGraph} (h : graph.Acyclic)
    (hsame : graph.SameTasks graph') : graph'.Acyclic := by
  intro C hC
  apply h C
  intro id hid
  obtain ⟨node', hnode', hdeps⟩ := hC id hid
  obtain ⟨node, hnode, _, heq⟩ := hsame.known hnode'
  exact ⟨node, hnode, by rwa [heq]⟩

/-! ## Accepted batches -/

theorem lookup_insertAll_of_mem {graph graph' : TaskGraph} {addedIds ids : List String}
    {tasks : List Json} (h : graph.insertAll addedIds tasks = (.ok ids, graph'))
    {q : String} (hq : q ∈ tasks.filterMap taskId?) :
    ∃ task ∈ tasks, taskId? task = some q ∧ graph'.lookup q = some (.ofTask task) := by
  induction tasks generalizing graph addedIds with
  | nil => contradiction
  | cons task rest ih =>
      unfold insertAll at h
      split at h
      · cases h
      · rename_i id hid
        rw [List.filterMap_cons_some hid] at hq
        by_cases hrest : q ∈ rest.filterMap taskId?
        · obtain ⟨other, hother, hotherId, hlookup⟩ := ih h hrest
          exact ⟨other, List.mem_cons_of_mem task hother, hotherId, hlookup⟩
        · have hself : q = id := (List.mem_cons.mp hq).resolve_right hrest
          have hkept := lookup_insertAll (graph.insertTask task id hid) (addedIds ++ [id])
            rest q
          rw [h] at hkept
          rcases hkept with hsame | ⟨other, hother, hotherId, _⟩
          · rw [lookup_insertTask, if_pos hself] at hsame
            exact ⟨task, List.mem_cons_self, hself ▸ hid, hsame⟩
          · exact absurd (List.mem_filterMap.mpr ⟨other, hother, hotherId⟩) hrest

/-- After a batch that is accepted every task of it is there, and every other one is as it
was; and there is no cycle. -/
theorem addTasks_ok {graph graph' : TaskGraph} {tasks : List Json}
    (h : graph.addTasks tasks = (.ok (), graph')) :
    graph'.Acyclic ∧ ∀ q, (∃ task ∈ tasks, taskId? task = some q ∧
        graph'.lookup q = some (.ofTask task)) ∨
      (q ∉ tasks.filterMap taskId? ∧ graph'.lookup q = graph.lookup q) := by
  unfold addTasks at h
  split at h
  · cases h
  · rename_i ids added hinsert
    split at h
    · cases h
    · rename_i hcycle
      obtain ⟨_, rfl⟩ := Prod.mk.inj h
      refine ⟨acyclic_of_detectCycle (by simpa using hcycle), fun q => ?_⟩
      by_cases hq : q ∈ tasks.filterMap taskId?
      · exact .inl (lookup_insertAll_of_mem hinsert hq)
      · right
        have hkept := lookup_insertAll graph [] tasks q
        rw [hinsert] at hkept
        rcases hkept with hsame | ⟨task, htask, hid, _⟩
        · exact ⟨hq, hsame⟩
        · exact absurd (List.mem_filterMap.mpr ⟨task, htask, hid⟩) hq

/-! ## Progress -/

/-- A dependency that is there, and that has not failed. -/
def Sound (graph : TaskGraph) (dep : String) : Prop :=
  ∃ status, graph.taskStatus dep = some status ∧ status ≠ .failed ∧ status ≠ .skipped

/-- What a pending task waits for can still complete, and is not all completed. -/
def Waits (graph : TaskGraph) (dependsOn : List String) : Prop :=
  (∀ dep ∈ dependsOn, graph.Sound dep) ∧
    ∃ dep ∈ dependsOn, graph.taskStatus dep ≠ some .completed

/-- No pending task waits for nothing. -/
structure Progressing (graph : TaskGraph) : Prop where
  acyclic : graph.Acyclic
  waits : ∀ id node, graph.lookup id = some node → node.status = .pending →
    graph.Waits node.dependsOn

/-- A task is ready, running or awaiting its approval, unless the graph is complete. -/
def Live (graph : TaskGraph) : Prop :=
  graph.isComplete = false → ∃ id status, graph.taskStatus id = some status ∧ status.Open

/-- A step of a run in which batches are accepted, and `fail_dependents` follows each
failure. -/
def stepAccepted (graph : TaskGraph) : GraphOp → Except String TaskGraph
  | .addTasks tasks =>
      match graph.addTasks tasks with
      | (.ok _, graph) => .ok graph
      | (.error text, _) => .error text
  | .markFailed id => .ok ((graph.markFailed id).failDependents id)
  | op => .ok (graph.step op)

/-- A task with dependencies only names tasks of its batch, and tasks of the graph that have
not failed or been skipped, at least one of them not completed; and no task is put to a
state that is not open otherwise than by its completion or its failure. -/
def Resolvable (graph : TaskGraph) : GraphOp → Prop
  | .addTasks tasks => ∀ task ∈ tasks, parseDependsOn task ≠ [] →
      (∀ dep ∈ parseDependsOn task, dep ∈ tasks.filterMap taskId? ∨ graph.Sound dep) ∧
        ∃ dep ∈ parseDependsOn task, dep ∈ tasks.filterMap taskId? ∨
          graph.taskStatus dep ≠ some .completed
  | .setStatus _ status => status.Open
  | _ => True

/-- Whoever waits for a pending task that waits itself waits, in the end, for an open one. -/
theorem Progressing.live {graph : TaskGraph} (h : Progressing graph) : Live graph := by
  intro hincomplete
  by_contra hnone
  have hclosed : ∀ id status, graph.taskStatus id = some status → ¬ status.Open :=
    fun id status hstatus hopen => hnone ⟨id, status, hstatus, hopen⟩
  have hpending : ∀ id, graph.taskStatus id ≠ some .pending := by
    apply h.acyclic fun id => graph.taskStatus id = some .pending
    intro id hid
    obtain ⟨node, hnode, hstatus⟩ := Option.map_eq_some_iff.mp hid
    obtain ⟨hsound, dep, hdep, hopen⟩ := h.waits id node hnode hstatus
    refine ⟨node, hnode, dep, hdep, ?_⟩
    obtain ⟨status, hdepStatus, hfailed, hskipped⟩ := hsound dep hdep
    have hnotOpen := hclosed dep status hdepStatus
    rw [hdepStatus] at hopen ⊢
    cases status with
    | pending => rfl
    | ready => exact absurd (.inl rfl) hnotOpen
    | awaitingApproval => exact absurd (.inr (.inl rfl)) hnotOpen
    | running => exact absurd (.inr (.inr rfl)) hnotOpen
    | completed => exact absurd rfl hopen
    | failed => exact absurd rfl hfailed
    | skipped => exact absurd rfl hskipped
  have hcomplete : graph.isComplete = true := by
    unfold isComplete
    rw [List.all_eq_true]
    rintro ⟨id, node⟩ hentry
    have hlookup : graph.lookup id = some node := AList.mem_lookup_iff.mpr hentry
    have hstatus : graph.taskStatus id = some node.status :=
      Option.map_eq_some_iff.mpr ⟨node, hlookup, rfl⟩
    have hnotOpen := hclosed id node.status hstatus
    have hnotPending := hpending id
    rw [hstatus] at hnotPending
    cases hnode : node.status with
    | pending => exact absurd (congrArg some hnode) hnotPending
    | ready => exact absurd (.inl hnode) hnotOpen
    | awaitingApproval => exact absurd (.inr (.inl hnode)) hnotOpen
    | running => exact absurd (.inr (.inr hnode)) hnotOpen
    | completed | failed | skipped => simp
  rw [hcomplete] at hincomplete
  contradiction

namespace Progressing

variable {graph : TaskGraph}

/-- The dependencies that matter to a pending task are as they were, or open. -/
theorem waits_mono {graph' : TaskGraph} {dependsOn : List String}
    (h : graph.Waits dependsOn)
    (hsame : ∀ dep ∈ dependsOn, graph'.taskStatus dep = graph.taskStatus dep ∨
      ∃ status, graph'.taskStatus dep = some status ∧ (status = .pending ∨ status.Open)) :
    graph'.Waits dependsOn := by
  obtain ⟨hsound, waited, hwaited, hopen⟩ := h
  refine ⟨fun dep hdep => ?_, waited, hwaited, ?_⟩
  · rcases hsame dep hdep with heq | ⟨status, heq, hstatus⟩
    · obtain ⟨found, hfound, hends⟩ := hsound dep hdep
      exact ⟨found, heq.trans hfound, hends⟩
    · refine ⟨status, heq, ?_⟩
      rcases hstatus with rfl | rfl | rfl | rfl <;> simp
  · rcases hsame waited hwaited with heq | ⟨status, heq, hstatus⟩
    · rwa [heq]
    · rw [heq]
      rcases hstatus with rfl | rfl | rfl | rfl <;> simp

theorem setStatus (h : Progressing graph) (id : String) {status : TaskStatus}
    (hopen : status.Open) : Progressing (graph.setStatus id status) := by
  refine ⟨h.acyclic.of_sameTasks (sameTasks_setStatus graph id status), ?_⟩
  intro q node hnode hpending
  have hnodeOld : graph.lookup q = some node := by
    rw [lookup_setStatus] at hnode
    split at hnode
    · obtain ⟨found, _, rfl⟩ := Option.map_eq_some_iff.mp hnode
      dsimp only at hpending
      subst hpending
      exact absurd hopen (by decide)
    · exact hnode
  apply waits_mono (h.waits q node hnodeOld hpending)
  intro dep _
  rw [taskStatus_setStatus]
  split
  · cases hdep : graph.taskStatus dep with
    | none => exact .inl rfl
    | some found => exact .inr ⟨status, rfl, .inr hopen⟩
  · exact .inl rfl

/-- A completion promotes every task that would wait for nothing. -/
theorem markCompleted (h : Progressing graph) (id : String) :
    Progressing (graph.markCompleted id) := by
  refine ⟨h.acyclic.of_sameTasks (sameTasks_markCompleted graph id), ?_⟩
  intro q node hnode hpending
  have hlookup := lookup_markCompleted_eq graph id
  have hset := taskStatus_setStatus graph id
  have hfoundOld : (graph.setStatus id .completed).lookup q = some node ∧
      graph.lookup q = some node := by
    rw [hlookup] at hnode
    obtain ⟨found, hfound, hkept⟩ := Option.map_eq_some_iff.mp hnode
    split at hkept
    · rw [← hkept] at hpending
      contradiction
    · obtain rfl := hkept
      refine ⟨hfound, ?_⟩
      rw [lookup_setStatus] at hfound
      split at hfound
      · obtain ⟨other, _, rfl⟩ := Option.map_eq_some_iff.mp hfound
        contradiction
      · exact hfound
  obtain ⟨hfound, hold⟩ := hfoundOld
  have hstays : (graph.setStatus id .completed).promotable node = false := by
    by_contra hpromotable
    rw [hlookup, hfound, Option.map_some, if_pos (by simpa using hpromotable)] at hnode
    rw [← Option.some.inj hnode] at hpending
    contradiction
  -- Some dependency is not completed, and whoever is promoted is not either.
  have hpromoted : ∀ dep, (graph.markCompleted id).taskStatus dep =
        (graph.setStatus id .completed).taskStatus dep ∨
      (graph.markCompleted id).taskStatus dep = some .ready := by
    intro dep
    unfold taskStatus
    rw [hlookup]
    cases (graph.setStatus id .completed).lookup dep with
    | none => exact .inl rfl
    | some found =>
        rw [Option.map_some, Option.map_some, Option.map_some]
        split
        · exact .inr rfl
        · exact .inl rfl
  obtain ⟨hsound, _⟩ := h.waits q node hold hpending
  have hwaits : (graph.setStatus id .completed).Waits node.dependsOn := by
    constructor
    · intro dep hdep
      obtain ⟨status, hstatus, hends⟩ := hsound dep hdep
      unfold Sound
      rw [hset, hstatus]
      split
      · exact ⟨.completed, rfl, by simp⟩
      · exact ⟨status, rfl, hends⟩
    · simp only [promotable, hpending, decide_true, Bool.true_and, List.all_eq_false,
        decide_eq_true_eq] at hstays
      exact hstays
  apply waits_mono hwaits
  intro dep _
  rcases hpromoted dep with hsame | hready
  · exact .inl hsame
  · exact .inr ⟨.ready, hready, .inr (.inl rfl)⟩

/-- Who waits for something that is skipped is skipped too. -/
theorem failDependents (hacyclic : graph.Acyclic) (id : String)
    (hwaits : ∀ q node, graph.lookup q = some node → node.status = .pending →
      id ∉ node.dependsOn → graph.Waits node.dependsOn) :
    Progressing (graph.failDependents id) := by
  refine ⟨hacyclic.of_sameTasks (sameTasks_failDependents graph id), ?_⟩
  intro q node hnode hpending
  rcases lookup_failDependents graph id q with ⟨_, hskipped⟩ | ⟨hout, hsame⟩
  · rw [hskipped] at hnode
    obtain ⟨found, _, rfl⟩ := Option.map_eq_some_iff.mp hnode
    contradiction
  · rw [hsame] at hnode
    have hnext : ∀ dep ∈ node.dependsOn, q ∈ graph.dependents dep :=
      fun dep hdep => mem_dependents.mpr ⟨node, hnode, hdep⟩
    apply waits_mono (hwaits q node hnode hpending fun hdep => hout (.single (hnext id hdep)))
    intro dep hdep
    rcases lookup_failDependents graph id dep with ⟨hdown, _⟩ | ⟨_, hkept⟩
    · exact absurd (hdown.tail (hnext dep hdep)) hout
    · left
      unfold taskStatus
      rw [hkept]

theorem fail (h : Progressing graph) (id : String) :
    Progressing ((graph.markFailed id).failDependents id) := by
  apply failDependents (h.acyclic.of_sameTasks (sameTasks_setStatus graph id .failed))
  intro q node hnode hpending hdep
  have hnodeOld : graph.lookup q = some node := by
    rw [lookup_setStatus] at hnode
    split at hnode
    · obtain ⟨found, _, rfl⟩ := Option.map_eq_some_iff.mp hnode
      contradiction
    · exact hnode
  apply waits_mono (h.waits q node hnodeOld hpending)
  intro dep hmem
  left
  have hne : dep ≠ id := fun heq => hdep (heq ▸ hmem)
  rw [taskStatus_setStatus, if_neg hne]

theorem addTasks (h : Progressing graph) {tasks : List Json} {graph' : TaskGraph}
    (hresolvable : Resolvable graph (.addTasks tasks))
    (hadded : graph.addTasks tasks = (.ok (), graph')) : Progressing graph' := by
  obtain ⟨hacyclic, hlookup⟩ := addTasks_ok hadded
  have hbatch : ∀ dep ∈ tasks.filterMap taskId?, ∃ status, graph'.taskStatus dep =
      some status ∧ (status = .pending ∨ status.Open) := by
    intro dep hdep
    rcases hlookup dep with ⟨task, _, _, hnew⟩ | ⟨hout, _⟩
    · refine ⟨(TaskNode.ofTask task).status, Option.map_eq_some_iff.mpr ⟨_, hnew, rfl⟩, ?_⟩
      unfold TaskNode.ofTask
      dsimp only
      split
      · exact .inr (.inl rfl)
      · exact .inl rfl
    · exact absurd hdep hout
  have hold : ∀ dep, graph'.taskStatus dep = graph.taskStatus dep ∨
      dep ∈ tasks.filterMap taskId? := by
    intro dep
    rcases hlookup dep with ⟨task, htask, hid, _⟩ | ⟨_, hsame⟩
    · exact .inr (List.mem_filterMap.mpr ⟨task, htask, hid⟩)
    · left
      unfold taskStatus
      rw [hsame]
  have hany : ∀ dep, graph'.taskStatus dep = graph.taskStatus dep ∨
      ∃ status, graph'.taskStatus dep = some status ∧ (status = .pending ∨ status.Open) :=
    fun dep => (hold dep).imp_right (hbatch dep)
  refine ⟨hacyclic, fun q node hnode hpending => ?_⟩
  rcases hlookup q with ⟨task, htask, _, hnew⟩ | ⟨_, hsame⟩
  · rw [hnew] at hnode
    cases hnode
    have hdeps : parseDependsOn task ≠ [] := by
      intro hnone
      rw [TaskNode.ofTask, if_pos hnone] at hpending
      contradiction
    obtain ⟨hsound, waited, hwaited, hopen⟩ := hresolvable task htask hdeps
    refine ⟨fun dep hdep => ?_, waited, hwaited, ?_⟩
    · rcases hold dep with heq | hmem
      · rcases hsound dep hdep with hmem | ⟨status, hstatus, hends⟩
        · obtain ⟨status, hstatus, hends⟩ := hbatch dep hmem
          exact ⟨status, hstatus, by rcases hends with rfl | rfl | rfl | rfl <;> simp⟩
        · exact ⟨status, heq.trans hstatus, hends⟩
      · obtain ⟨status, hstatus, hends⟩ := hbatch dep hmem
        exact ⟨status, hstatus, by rcases hends with rfl | rfl | rfl | rfl <;> simp⟩
    · have hnot : waited ∈ tasks.filterMap taskId? →
          graph'.taskStatus waited ≠ some .completed := by
        intro hmem
        obtain ⟨status, hstatus, hends⟩ := hbatch waited hmem
        rw [hstatus]
        rcases hends with rfl | rfl | rfl | rfl <;> simp
      rcases hold waited with heq | hmem
      · exact hopen.elim hnot fun hopen => by rwa [heq]
      · exact hnot hmem
  · rw [hsame] at hnode
    exact waits_mono (h.waits q node hnode hpending) fun dep _ => hany dep

theorem step (h : Progressing graph) {op : GraphOp} {graph' : TaskGraph}
    (hresolvable : Resolvable graph op) (hstep : graph.stepAccepted op = .ok graph') :
    Progressing graph' := by
  cases op with
  | addTasks tasks =>
      simp only [stepAccepted] at hstep
      split at hstep
      · rename_i added hadded
        cases hstep
        exact h.addTasks hresolvable hadded
      · contradiction
  | markRunning id =>
      cases hstep
      exact h.setStatus id (.inr (.inr rfl))
  | markCompleted id =>
      cases hstep
      exact h.markCompleted id
  | markFailed id =>
      cases hstep
      exact h.fail id
  | failDependents id =>
      cases hstep
      exact failDependents h.acyclic id fun q node hnode hpending _ =>
        h.waits q node hnode hpending
  | setStatus id status =>
      cases hstep
      exact h.setStatus id hresolvable

end Progressing

/-- In every run whose batches are resolvable, a graph that is not complete has a task that
is ready, running or awaiting its approval. -/
theorem live_of_resolvable (ops : List GraphOp)
    (hresolvable : GuardedOk stepAccepted Resolvable .new ops) :
    ThroughoutOk stepAccepted Live .new ops := by
  have hstart : Progressing .new := by
    refine ⟨fun C hC id hid => ?_, fun id node hnode => by contradiction⟩
    obtain ⟨node, hnode, _⟩ := hC id hid
    contradiction
  intro pre hpre graph hgraph
  have hprogressing : Progressing graph :=
    invariant_of_guardedOk Progressing hstart (fun _ _ _ h hop hstep => h.step hop hstep)
      (hresolvable.shorten hpre) hgraph
  exact hprogressing.live

/-- The second task waits while the first one runs. -/
theorem live_of_resolvable_two :
    (∃ graph, [GraphOp.addTasks twoTasks, .markRunning "a"].foldlM stepAccepted .new =
        .ok graph ∧ graph.isComplete = false) ∧
      ThroughoutOk stepAccepted Live .new [.addTasks twoTasks, .markRunning "a"] := by
  refine ⟨⟨_, rfl, by decide⟩, live_of_resolvable _ ?_⟩
  refine GuardedOk.cons (fun task htask hdeps => ?_) fun _ _ => ?_
  · -- Only the second task has dependencies, and they are in the batch.
    rcases List.mem_cons.mp htask with rfl | htask
    · exact absurd rfl hdeps
    · obtain rfl := List.mem_singleton.mp htask
      refine ⟨fun dep hdep => .inl ?_, "a", List.mem_singleton_self "a", .inl (by decide)⟩
      obtain rfl := List.mem_singleton.mp hdep
      decide
  · exact GuardedOk.cons trivial fun _ _ => GuardedOk.nil

theorem not_live {graph : TaskGraph} (hincomplete : graph.isComplete = false)
    (hnone : ∀ entry ∈ graph.tasks.entries, ¬ entry.2.status.Open) : ¬ Live graph := by
  intro hlive
  obtain ⟨id, status, hstatus, hopen⟩ := hlive hincomplete
  obtain ⟨node, hnode, rfl⟩ := Option.map_eq_some_iff.mp hstatus
  exact hnone ⟨id, node⟩ (AList.mem_lookup_iff.mp hnode) hopen

/-- The second task comes on its own: before the first one is there, after it completed, and
after it failed.  It stays pending, and there is nothing else to be done. -/
theorem strandedRuns_not_live :
    ¬ ThroughoutOk stepAccepted Live .new [.addTasks twoTasks.tail] ∧
      ¬ ThroughoutOk stepAccepted Live .new
        [.addTasks (twoTasks.take 1), .markCompleted "a", .addTasks twoTasks.tail] ∧
      ¬ ThroughoutOk stepAccepted Live .new
        [.addTasks (twoTasks.take 1), .markFailed "a", .addTasks twoTasks.tail] := by
  refine ⟨fun hlive => ?_, fun hlive => ?_, fun hlive => ?_⟩
  all_goals exact not_live (by decide) (by decide) (hlive _ List.prefix_rfl _ rfl)

end TaskGraph

end Zeptobeam
