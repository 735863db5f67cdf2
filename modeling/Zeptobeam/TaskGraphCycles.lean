/-
Cycles: a graph that passes the check of `add_tasks` has none.  Kahn's loop processes every
task of it, each after all that it depends on.
-/
import Zeptobeam.TaskGraphReadiness

namespace Zeptobeam

namespace TaskGraph

open BreadthFirst

/-- Tasks that depend on one another without an end are there: a set of tasks, each with a
dependency in the set. -/
def Acyclic (graph : TaskGraph) : Prop :=
  ∀ C : String → Prop,
    (∀ id, C id → ∃ node, graph.lookup id = some node ∧ ∃ dep ∈ node.dependsOn, C dep) →
    ∀ id, ¬ C id

/-! ## The degrees -/

/-- The dependencies that are in the graph. -/
def knownDeps (graph : TaskGraph) (node : TaskNode) : List String :=
  node.dependsOn.filter fun dep => (graph.lookup dep).isSome

/-- How many of them are not processed yet. -/
def waiting (graph : TaskGraph) (done : List String) (node : TaskNode) : Nat :=
  (unvisited (graph.knownDeps node) done).length

theorem waiting_nil (graph : TaskGraph) (node : TaskNode) :
    graph.waiting [] node = graph.inDegree node := by
  unfold waiting unvisited
  rw [List.filter_eq_self.mpr (by simp)]
  rfl

/-- A task that waits for nothing has all its dependencies processed. -/
theorem mem_of_waiting_zero {graph : TaskGraph} {done : List String} {node : TaskNode}
    (h : graph.waiting done node = 0) {dep : String} (hdep : dep ∈ node.dependsOn)
    (hknown : graph.lookup dep ≠ none) : dep ∈ done := by
  by_contra hnot
  have hmem : dep ∈ unvisited (graph.knownDeps node) done := by
    apply List.mem_filter.mpr
    refine ⟨List.mem_filter.mpr ⟨hdep, ?_⟩, by simpa using hnot⟩
    exact Option.isSome_iff_ne_none.mpr hknown
  rw [List.eq_nil_of_length_eq_zero h] at hmem
  contradiction

/-- Every mention of a processed task lets its dependents wait for one less. -/
theorem waiting_cons {graph : TaskGraph} {done : List String} {current : String}
    (hnew : current ∉ done) (hknown : graph.lookup current ≠ none) (node : TaskNode) :
    graph.waiting (current :: done) node + node.dependsOn.count current =
      graph.waiting done node := by
  have hcount : (graph.knownDeps node).count current = node.dependsOn.count current :=
    List.count_filter (Option.isSome_iff_ne_none.mpr hknown)
  rw [← hcount]
  exact length_unvisited_cons _ hnew

theorem count_dependents (graph : TaskGraph) (id q : String) :
    (graph.dependents id).count q =
      ((graph.lookup q).map fun node => node.dependsOn.count id).getD 0 := by
  have hentries : ∀ entries : List (Sigma fun _ : String => TaskNode), entries.NodupKeys →
      (entries.flatMap fun entry => (entry.2.dependsOn.filter (· = id)).map
        fun _ => entry.1).count q =
      ((entries.dlookup q).map fun node => node.dependsOn.count id).getD 0 := by
    intro entries hnodup
    induction entries with
    | nil => rfl
    | cons entry rest ih =>
        obtain ⟨key, node⟩ := entry
        obtain ⟨hkey, hrest⟩ := List.nodupKeys_cons.mp hnodup
        have hmentions : (node.dependsOn.filter (· = id)).length =
            node.dependsOn.count id := by
          rw [List.count, List.countP_eq_length_filter]
          rfl
        rw [List.flatMap_cons, List.count_append, ih hrest, List.map_const', hmentions,
          List.count_replicate]
        by_cases hq : key = q
        · subst hq
          have hnone : rest.dlookup key = none := List.dlookup_eq_none.mpr hkey
          rw [List.dlookup_cons_eq, hnone]
          simp
        · rw [List.dlookup_cons_ne _ _ (Ne.symm hq)]
          simp [hq]
  exact hentries graph.tasks.entries graph.tasks.nodupKeys

/-! ## Kahn's loop -/

theorem lookup_release (s : (AList fun _ : String => Nat) × List String) (id q : String) :
    (release s id).1.lookup q =
      if q = id then (s.1.lookup q).map (· - 1) else s.1.lookup q := by
  unfold release
  split
  · rename_i hnone
    split
    · rename_i hq
      rw [hq, hnone]
      rfl
    · rfl
  · rename_i degree hdegree
    by_cases hq : q = id
    · rw [if_pos hq, hq, hdegree]
      exact AList.lookup_insert _
    · rw [if_neg hq]
      exact AList.lookup_insert_ne hq

/-- The degrees go down by the mentions. -/
theorem lookup_foldl_release (ids : List String)
    (s : (AList fun _ : String => Nat) × List String) (q : String) :
    (ids.foldl release s).1.lookup q = (s.1.lookup q).map (· - ids.count q) := by
  induction ids generalizing s with
  | nil =>
      cases hq : s.1.lookup q with
      | none => exact hq
      | some degree => exact hq
  | cons id rest ih =>
      rw [List.foldl_cons, ih, lookup_release]
      by_cases hq : q = id
      · rw [if_pos hq, hq, List.count_cons_self, Option.map_map]
        congr 1
        funext degree
        exact (Nat.sub_sub _ _ _).trans (congrArg (degree - ·) (Nat.add_comm _ _))
      · rw [if_neg hq, List.count_cons_of_ne (Ne.symm hq)]

theorem queue_release {s : (AList fun _ : String => Nat) × List String} {id : String}
    (hpositive : s.1.lookup id ≠ some 0) :
    (release s id).2 = if s.1.lookup id = some 1 then s.2 ++ [id] else s.2 := by
  unfold release
  split
  · rename_i hnone
    rw [hnone, if_neg (by simp)]
  · rename_i degree hdegree
    rw [hdegree] at hpositive ⊢
    have hone : degree - 1 = 0 ↔ some degree = some 1 := by
      simp only [ne_eq, Option.some.injEq] at hpositive ⊢
      omega
    simp only [hone]

/-- No degree falls below what is still to be taken from it. -/
theorem count_le_release {id : String} {rest : List String}
    {s : (AList fun _ : String => Nat) × List String}
    (henough : ∀ q degree, s.1.lookup q = some degree → (id :: rest).count q ≤ degree)
    (q : String) (degree : Nat) (hq : (release s id).1.lookup q = some degree) :
    rest.count q ≤ degree := by
  rw [lookup_release] at hq
  split at hq
  · rename_i heq
    obtain ⟨found, hfound, rfl⟩ := Option.map_eq_some_iff.mp hq
    have hmention := henough q found hfound
    rw [heq, List.count_cons_self] at hmention
    rw [heq]
    omega
  · rename_i hne
    have hmention := henough q degree hq
    rwa [List.count_cons_of_ne (Ne.symm hne)] at hmention

/-- What reaches zero is queued, once. -/
theorem queue_foldl_release (ids : List String)
    (s : (AList fun _ : String => Nat) × List String)
    (henough : ∀ q degree, s.1.lookup q = some degree → ids.count q ≤ degree) :
    ∃ released, (ids.foldl release s).2 = s.2 ++ released ∧ released.Nodup ∧
      ∀ q ∈ released, q ∈ ids ∧ s.1.lookup q = some (ids.count q) := by
  induction ids generalizing s with
  | nil => exact ⟨[], (List.append_nil _).symm, List.nodup_nil, by simp⟩
  | cons id rest ih =>
      have hself : (id :: rest).count id = rest.count id + 1 := List.count_cons_self
      have hother : ∀ q, q ≠ id → (id :: rest).count q = rest.count q :=
        fun q hq => List.count_cons_of_ne (Ne.symm hq)
      have hlookup := lookup_release s id
      have hqueue : (release s id).2 =
          if s.1.lookup id = some 1 then s.2 ++ [id] else s.2 := by
        apply queue_release
        intro hzero
        have hmention := henough id 0 hzero
        omega
      obtain ⟨released, hafter, hnodup, hreleased⟩ := ih (release s id) (count_le_release henough)
      have hlater : ∀ q ∈ released, q ∈ id :: rest ∧
          s.1.lookup q = some ((id :: rest).count q) := by
        intro q hq
        obtain ⟨hmem, hzero⟩ := hreleased q hq
        refine ⟨List.mem_cons_of_mem id hmem, ?_⟩
        rw [hlookup] at hzero
        split at hzero
        · rename_i heq
          obtain ⟨found, hfound, hdegree⟩ := Option.map_eq_some_iff.mp hzero
          have hmention := henough q found hfound
          rw [hfound, heq, hself]
          rw [heq, hself] at hmention
          rw [heq] at hdegree
          exact congrArg some (by omega)
        · rename_i hne
          rw [hother q hne]
          exact hzero
      rw [List.foldl_cons, hafter, hqueue]
      by_cases hone : s.1.lookup id = some 1
      · -- This is the last mention: the rest has none.
        have hnone : id ∉ rest := by
          intro hmem
          have hmention := henough id 1 hone
          have hpositive := List.count_pos_iff.mpr hmem
          omega
        have hcount : (id :: rest).count id = 1 := by
          rw [hself, List.count_eq_zero_of_not_mem hnone]
        rw [if_pos hone, List.append_assoc]
        refine ⟨id :: released, rfl, ?_, ?_⟩
        · exact List.nodup_cons.mpr ⟨fun hmem => hnone (hreleased id hmem).1, hnodup⟩
        · intro q hq
          rcases List.mem_cons.mp hq with rfl | hq
          · exact ⟨List.mem_cons_self, by rw [hcount, hone]⟩
          · exact hlater q hq
      · rw [if_neg hone]
        exact ⟨released, rfl, hnodup, hlater⟩

/-- The state of the loop: the degrees count what is still waited for; no task is processed
or queued twice, and those that are wait for nothing; of a set of tasks that wait for one
another none is processed. -/
structure Processing (graph : TaskGraph) (C : String → Prop) (done queue : List String)
    (degrees : AList fun _ : String => Nat) : Prop where
  degrees : ∀ q, degrees.lookup q = (graph.lookup q).map (graph.waiting done)
  nodup : (done ++ queue).Nodup
  free : ∀ q ∈ done ++ queue, ∃ node, graph.lookup q = some node ∧ graph.waiting done node = 0
  outside : ∀ q ∈ done, ¬ C q

namespace Processing

variable {graph : TaskGraph} {C : String → Prop} {done queue ids : List String}
  {degrees : AList fun _ : String => Nat} {current : String}

theorem count_mentions (hids : ids.Perm (graph.dependents current)) {q : String}
    {found : TaskNode} (hfound : graph.lookup q = some found) :
    ids.count q = found.dependsOn.count current := by
  rw [hids.count_eq, count_dependents, hfound]
  rfl

/-- Every counter has enough left for the mentions of a processed task. -/
theorem enough (h : Processing graph C done queue degrees)
    (hids : ids.Perm (graph.dependents current))
    (hwaiting : ∀ node, graph.waiting (current :: done) node + node.dependsOn.count current =
      graph.waiting done node) (q : String) (degree : Nat)
    (hq : degrees.lookup q = some degree) : ids.count q ≤ degree := by
  rw [h.degrees] at hq
  obtain ⟨found, hfound, rfl⟩ := Option.map_eq_some_iff.mp hq
  rw [count_mentions hids hfound, ← hwaiting found]
  exact Nat.le_add_left _ _

/-- What processing a task releases: tasks that waited, and wait for nothing now. -/
theorem released (h : Processing graph C done (current :: queue) degrees)
    (hids : ids.Perm (graph.dependents current))
    (hwaiting : ∀ node, graph.waiting (current :: done) node + node.dependsOn.count current =
      graph.waiting done node) :
    ∃ released, (ids.foldl release (degrees, queue)).2 =
        queue ++ released ∧ released.Nodup ∧
      ∀ q ∈ released, ∃ found, graph.lookup q = some found ∧
        graph.waiting done found ≠ 0 ∧ graph.waiting (current :: done) found = 0 := by
  obtain ⟨released, hqueue, hdistinct, hreleased⟩ :=
    queue_foldl_release ids (degrees, queue) (h.enough hids hwaiting)
  refine ⟨released, hqueue, hdistinct, fun q hq => ?_⟩
  obtain ⟨hmem, hlast⟩ := hreleased q hq
  have hpositive := List.count_pos_iff.mpr hmem
  rw [h.degrees] at hlast
  obtain ⟨found, hfound, hdegree⟩ := Option.map_eq_some_iff.mp hlast
  have hmention := count_mentions hids hfound
  have hless := hwaiting found
  exact ⟨found, hfound, by omega, by omega⟩

/-- The degrees after that. -/
theorem lookup_released (h : Processing graph C done (current :: queue) degrees)
    (hids : ids.Perm (graph.dependents current))
    (hwaiting : ∀ node, graph.waiting (current :: done) node + node.dependsOn.count current =
      graph.waiting done node) (q : String) :
    (ids.foldl release (degrees, queue)).1.lookup q =
      (graph.lookup q).map (graph.waiting (current :: done)) := by
  rw [lookup_foldl_release, h.degrees]
  cases hq : graph.lookup q with
  | none => rfl
  | some found =>
      rw [Option.map_some, Option.map_some, Option.map_some, count_mentions hids hq]
      exact congrArg some (Nat.sub_eq_of_eq_add (hwaiting found).symm)

theorem fresh (h : Processing graph C done (current :: queue) degrees) :
    (current :: done ++ queue).Nodup ∧ current ∉ done ∧ graph.lookup current ≠ none := by
  obtain ⟨node, hnode, _⟩ := h.free current (List.mem_append_right done List.mem_cons_self)
  have hperm : (done ++ current :: queue).Perm (current :: done ++ queue) :=
    List.perm_middle
  have hnodup := hperm.nodup_iff.mp h.nodup
  refine ⟨hnodup, ?_, ?_⟩
  · exact fun hmem => (List.nodup_cons.mp hnodup).1 (List.mem_append_left queue hmem)
  · rw [hnode]
    exact Option.some_ne_none node

theorem step
    (hC : ∀ id, C id → ∃ node, graph.lookup id = some node ∧ ∃ dep ∈ node.dependsOn, C dep)
    (h : Processing graph C done (current :: queue) degrees)
    (hids : ids.Perm (graph.dependents current)) :
    Processing graph C (current :: done) (ids.foldl release (degrees, queue)).2
      (ids.foldl release (degrees, queue)).1 := by
  obtain ⟨node, hnode, hfree⟩ := h.free current
    (List.mem_append_right done List.mem_cons_self)
  have hperm : (done ++ current :: queue).Perm (current :: done ++ queue) :=
    List.perm_middle
  obtain ⟨hnodup, hnew, hknown⟩ := h.fresh
  have hwaiting := graph.waiting_cons hnew hknown
  obtain ⟨released, hqueue, hdistinct, hreleasedFree⟩ := h.released hids hwaiting
  have hstill : ∀ q ∈ done ++ current :: queue, ∃ found, graph.lookup q = some found ∧
      graph.waiting (current :: done) found = 0 := by
    intro q hq
    obtain ⟨found, hfound, hzero⟩ := h.free q hq
    have hless := hwaiting found
    exact ⟨found, hfound, by omega⟩
  rw [hqueue]
  refine ⟨?_, ?_, ?_, ?_⟩
  · exact h.lookup_released hids hwaiting
  · rw [← List.append_assoc]
    refine List.nodup_append.mpr ⟨hnodup, hdistinct, ?_⟩
    rintro q hq _ hnewQ rfl
    obtain ⟨found, hfound, hpositive, _⟩ := hreleasedFree q hnewQ
    obtain ⟨other, hother, hzero⟩ := h.free q (hperm.mem_iff.mpr hq)
    cases hfound.symm.trans hother
    exact hpositive hzero
  · intro q hq
    rw [← List.append_assoc] at hq
    rcases List.mem_append.mp hq with hold | hnewQ
    · exact hstill q (hperm.mem_iff.mpr hold)
    · obtain ⟨found, hfound, _, hzero⟩ := hreleasedFree q hnewQ
      exact ⟨found, hfound, hzero⟩
  · intro q hq hmember
    rcases List.mem_cons.mp hq with rfl | hq
    · -- Its dependency in the set would have been processed before.
      obtain ⟨found, hfound, dep, hdep, hdepC⟩ := hC q hmember
      cases hfound.symm.trans hnode
      obtain ⟨other, hother, _⟩ := hC dep hdepC
      have hdone := mem_of_waiting_zero hfree hdep (by rw [hother]; exact Option.some_ne_none _)
      exact h.outside dep hdone hdepC
    · exact h.outside q hq hmember

/-- The loop counts what it processes. -/
theorem run
    (hC : ∀ id, C id → ∃ node, graph.lookup id = some node ∧ ∃ dep ∈ node.dependsOn, C dep)
    (fuel : Nat) (h : Processing graph C done queue degrees) :
    ∃ done' queue' degrees', Processing graph C done' queue' degrees' ∧
      processFrom graph.dependents fuel degrees queue done.length = done'.length := by
  induction fuel generalizing done queue degrees with
  | zero => exact ⟨done, queue, degrees, h, rfl⟩
  | succ fuel ih =>
      cases queue with
      | nil => exact ⟨done, [], degrees, h, rfl⟩
      | cons current queue => exact ih (h.step hC (.refl _))

end Processing

theorem lookup_degrees (graph : TaskGraph) (q : String) :
    ((graph.tasks.entries.map fun entry =>
      (⟨entry.1, graph.inDegree entry.2⟩ : Sigma fun _ : String => Nat)).toAList).lookup q =
      (graph.lookup q).map graph.inDegree := by
  have hentries : ∀ entries : List (Sigma fun _ : String => TaskNode),
      (entries.map fun entry =>
        (⟨entry.1, graph.inDegree entry.2⟩ : Sigma fun _ : String => Nat)).dlookup q =
        (entries.dlookup q).map graph.inDegree := by
    intro entries
    induction entries with
    | nil => rfl
    | cons entry rest ih =>
        obtain ⟨key, node⟩ := entry
        rw [List.map_cons]
        by_cases hq : q = key
        · subst hq
          rw [List.dlookup_cons_eq, List.dlookup_cons_eq]
          rfl
        · rw [List.dlookup_cons_ne _ _ hq, List.dlookup_cons_ne _ _ hq, ih]
  rw [AList.lookup_to_alist]
  exact hentries graph.tasks.entries

theorem mem_free {graph : TaskGraph} {q : String} :
    q ∈ (graph.tasks.entries.filter fun entry => graph.inDegree entry.2 = 0).map Sigma.fst ↔
      ∃ node, graph.lookup q = some node ∧ graph.inDegree node = 0 := by
  simp only [List.mem_map, List.mem_filter, decide_eq_true_eq]
  constructor
  · rintro ⟨⟨key, node⟩, ⟨hentry, hzero⟩, rfl⟩
    exact ⟨node, AList.mem_lookup_iff.mpr hentry, hzero⟩
  · rintro ⟨node, hnode, hzero⟩
    exact ⟨⟨q, node⟩, ⟨AList.mem_lookup_iff.mp hnode, hzero⟩, rfl⟩

/-- The tasks without a dependency in the graph. -/
def freeTasks (graph : TaskGraph) : List String :=
  (graph.tasks.entries.filter fun entry => graph.inDegree entry.2 = 0).map Sigma.fst

def degrees (graph : TaskGraph) : AList fun _ : String => Nat :=
  (graph.tasks.entries.map fun entry =>
    (⟨entry.1, graph.inDegree entry.2⟩ : Sigma fun _ : String => Nat)).toAList

/-- The loop begins with the tasks that wait for nothing. -/
theorem Processing.start (graph : TaskGraph) (C : String → Prop) {free : List String}
    (hfree : free.Perm graph.freeTasks) : Processing graph C [] free graph.degrees := by
  refine ⟨fun q => ?_, ?_, fun q hq => ?_, fun q hq => by contradiction⟩
  · rw [TaskGraph.degrees, lookup_degrees, funext graph.waiting_nil]
  · rw [List.nil_append, hfree.nodup_iff]
    exact List.Nodup.sublist (List.filter_sublist.map Sigma.fst) graph.tasks.nodupKeys
  · obtain ⟨node, hnode, hzero⟩ := mem_free.mp (hfree.mem_iff.mp hq)
    exact ⟨node, hnode, (graph.waiting_nil node).trans hzero⟩

theorem Processing.subset_keys {graph : TaskGraph} {C : String → Prop}
    {done queue : List String} {degrees : AList fun _ : String => Nat}
    (h : Processing graph C done queue degrees) :
    done ++ queue ⊆ graph.tasks.entries.map Sigma.fst := by
  intro q hq
  obtain ⟨node, hnode, _⟩ := h.free q hq
  exact List.mem_map.mpr ⟨⟨q, node⟩, AList.mem_lookup_iff.mp hnode, rfl⟩

/-- No cycle is missed. -/
theorem acyclic_of_detectCycle {graph : TaskGraph} (h : graph.detectCycle = false) :
    graph.Acyclic := by
  intro C hC id hid
  have hstart := Processing.start graph C (.refl graph.freeTasks)
  obtain ⟨done, queue, degrees, hprocessing, hcount⟩ :=
    hstart.run hC graph.tasks.entries.length
  have hall : graph.tasks.entries.length ≤ done.length := by
    unfold detectCycle at h
    rw [← hcount]
    exact Nat.le_of_not_lt (decide_eq_false_iff_not.mp h)
  have hnodup : done.Nodup := (List.nodup_append.mp hprocessing.nodup).1
  have hkeys : done ⊆ graph.tasks.entries.map Sigma.fst :=
    fun q hq => hprocessing.subset_keys (List.mem_append_left queue hq)
  have hdone : id ∈ done := by
    obtain ⟨node, hnode, _⟩ := hC id hid
    have hperm : done.Perm (graph.tasks.entries.map Sigma.fst) :=
      (List.subperm_of_subset hnodup hkeys).perm_of_length_le (by rwa [List.length_map])
    exact hperm.mem_iff.mpr (List.mem_map.mpr ⟨⟨id, node⟩, AList.mem_lookup_iff.mp hnode, rfl⟩)
  exact hprocessing.outside id hdone hid

end TaskGraph

end Zeptobeam
