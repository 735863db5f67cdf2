/-
Cycle detection with its counters checked: none of them is taken below zero, the loop ends,
and a cycle is reported exactly when there is one.
-/
import Zeptobeam.TaskGraphCycles
import Mathlib.Data.Set.Finite.Basic
import Mathlib.Order.WellFounded

namespace Zeptobeam

namespace TaskGraph

open BreadthFirst

/-- A counter is taken below zero, or the loop goes on behind its fuel. -/
inductive KahnStop where
  | underflow
  | outOfFuel
deriving DecidableEq, Repr

/-- `*degree -= 1` of one dependent, which is queued at zero. -/
def releaseOrStop (s : (AList fun _ : String => Nat) × List String) (id : String) :
    Except KahnStop ((AList fun _ : String => Nat) × List String) :=
  match s.1.lookup id with
  | none => .ok s
  | some 0 => .error .underflow
  | some (degree + 1) =>
      .ok (s.1.insert id degree, if degree = 0 then s.2 ++ [id] else s.2)

def processOrStop (dependents : String → List String) :
    Nat → (AList fun _ : String => Nat) → List String → Nat → Except KahnStop Nat
  | _, _, [], processed => .ok processed
  | 0, _, _ :: _, _ => .error .outOfFuel
  | fuel + 1, inDegree, current :: queue, processed => do
      let s ← (dependents current).foldlM releaseOrStop (inDegree, queue)
      processOrStop dependents fuel s.1 s.2 (processed + 1)

/-- `detect_cycle`, with tasks and dependents as the hash maps yield them. -/
def detectCycleOrStop (graph : TaskGraph) (free : List String)
    (dependents : String → List String) : Except KahnStop Bool := do
  let processed ← processOrStop dependents graph.tasks.entries.length graph.degrees free 0
  return decide (processed < graph.tasks.entries.length)

/-- The free tasks and the dependents of the graph, in any order. -/
structure Yields (graph : TaskGraph) (free : List String) (dependents : String → List String) :
    Prop where
  free : free.Perm graph.freeTasks
  dependents : ∀ id, (dependents id).Perm (graph.dependents id)

/-- A task depends on another one, and both are there. -/
def DependsOn (graph : TaskGraph) (id dep : String) : Prop :=
  (∃ node, graph.lookup id = some node ∧ dep ∈ node.dependsOn) ∧ graph.lookup dep ≠ none

def Cyclic (graph : TaskGraph) : Prop :=
  ∃ id, Relation.TransGen graph.DependsOn id id

/-! ## Cycles of a finite graph -/

/-- Of finitely many tasks, some task of a set has no dependency in the set. -/
theorem acyclic_of_not_cyclic {graph : TaskGraph} (h : ¬ graph.Cyclic) : graph.Acyclic := by
  intro C hC id hid
  let Key := {q // q ∈ graph.tasks.entries.map Sigma.fst}
  let below : Key → Key → Prop := fun a b => Relation.TransGen graph.DependsOn b.1 a.1
  have hfinite : Finite Key := List.finite_toSet (graph.tasks.entries.map Sigma.fst)
  have htrans : IsTrans Key below := ⟨fun _ _ _ hab hbc => hbc.trans hab⟩
  have hirrefl : Std.Irrefl below := ⟨fun a ha => h ⟨a.1, ha⟩⟩
  have hkey : ∀ {q}, C q → q ∈ graph.tasks.entries.map Sigma.fst := by
    intro q hq
    obtain ⟨node, hnode, _⟩ := hC q hq
    exact List.mem_map.mpr ⟨⟨q, node⟩, AList.mem_lookup_iff.mp hnode, rfl⟩
  obtain ⟨least, hleast, hmin⟩ := (Finite.wellFounded_of_trans_of_irrefl below).has_min
    {a : Key | C a.1} ⟨⟨id, hkey hid⟩, hid⟩
  obtain ⟨node, hnode, dep, hdep, hdepC⟩ := hC least.1 hleast
  obtain ⟨found, hfound, _⟩ := hC dep hdepC
  apply hmin ⟨dep, hkey hdepC⟩ hdepC
  refine .single ⟨⟨node, hnode, hdep⟩, ?_⟩
  rw [hfound]
  exact Option.some_ne_none found

/-! ## The counters -/

/-- With enough in every counter nothing underflows. -/
theorem foldlM_releaseOrStop (ids : List String)
    (s : (AList fun _ : String => Nat) × List String)
    (henough : ∀ q degree, s.1.lookup q = some degree → ids.count q ≤ degree) :
    ids.foldlM releaseOrStop s = .ok (ids.foldl release s) := by
  induction ids generalizing s with
  | nil => rfl
  | cons id rest ih =>
      have hstep : releaseOrStop s id = .ok (release s id) := by
        unfold releaseOrStop release
        cases hid : s.1.lookup id with
        | none => rfl
        | some degree =>
            have hmention := henough id degree hid
            rw [List.count_cons_self] at hmention
            obtain ⟨left, rfl⟩ := Nat.exists_eq_add_of_le' (Nat.le_of_add_left_le hmention)
            rfl
      rw [List.foldlM_cons, hstep, List.foldl_cons]
      exact ih (release s id) (count_le_release henough)

theorem subset_queue_foldl_release (ids : List String)
    (s : (AList fun _ : String => Nat) × List String) : s.2 ⊆ (ids.foldl release s).2 := by
  induction ids generalizing s with
  | nil => exact List.Subset.refl s.2
  | cons id rest ih =>
      refine List.Subset.trans ?_ (ih (release s id))
      unfold release
      split
      · exact List.Subset.refl s.2
      · dsimp only
        split
        · exact List.subset_append_left s.2 [id]
        · exact List.Subset.refl s.2

/-- Whatever loses all that it waits for is queued. -/
theorem mem_queue_foldl_release (ids : List String)
    (s : (AList fun _ : String => Nat) × List String) {q : String} (hq : q ∈ ids)
    (hlast : s.1.lookup q = some (ids.count q)) : q ∈ (ids.foldl release s).2 := by
  induction ids generalizing s with
  | nil => contradiction
  | cons id rest ih =>
      rw [List.foldl_cons]
      by_cases hself : q = id
      · subst hself
        rw [List.count_cons_self] at hlast
        by_cases hrest : q ∈ rest
        · apply ih (release s q) hrest
          rw [lookup_release, if_pos rfl, hlast]
          rfl
        · apply subset_queue_foldl_release rest
          rw [List.count_eq_zero_of_not_mem hrest] at hlast
          rw [queue_release (by simp [hlast]), if_pos hlast]
          exact List.mem_append_right s.2 (List.mem_singleton_self q)
      · rw [List.count_cons_of_ne (Ne.symm hself)] at hlast
        apply ih (release s id) ((List.mem_cons.mp hq).resolve_left hself)
        rw [lookup_release, if_neg hself, hlast]

/-! ## The loop -/

/-- Whatever waits for nothing is processed, or queued. -/
def Queued (graph : TaskGraph) (done queue : List String) : Prop :=
  ∀ q node, graph.lookup q = some node → graph.waiting done node = 0 → q ∈ done ++ queue

section Loop

variable {graph : TaskGraph} {C : String → Prop} {done queue ids : List String}
  {degrees : AList fun _ : String => Nat} {current : String}
  {dependents : String → List String}

theorem Queued.step (hqueued : Queued graph done (current :: queue))
    (h : Processing graph C done (current :: queue) degrees)
    (hids : ids.Perm (graph.dependents current)) :
    Queued graph (current :: done) (ids.foldl release (degrees, queue)).2 := by
  intro q node hnode hzero
  obtain ⟨_, hnew, hknown⟩ := h.fresh
  have hless := graph.waiting_cons hnew hknown node
  have hmentions := Processing.count_mentions hids hnode
  rw [List.cons_append, List.mem_cons, List.mem_append]
  by_cases hbefore : graph.waiting done node = 0
  · rcases List.mem_append.mp (hqueued q node hnode hbefore) with hdone | hwaiting
    · exact .inr (.inl hdone)
    · rcases List.mem_cons.mp hwaiting with rfl | hwaiting
      · exact .inl rfl
      · exact .inr (.inr (subset_queue_foldl_release ids (degrees, queue) hwaiting))
  · -- its last dependency was the one that is processed
    right
    right
    apply mem_queue_foldl_release ids (degrees, queue)
    · exact List.count_pos_iff.mp (by omega)
    · rw [h.degrees, hnode, Option.map_some]
      exact congrArg some (by omega)

/-- With fuel for every task the loop ends with an empty queue. -/
theorem Processing.ends
    (hC : ∀ id, C id → ∃ node, graph.lookup id = some node ∧ ∃ dep ∈ node.dependsOn, C dep)
    (hdependents : ∀ id, (dependents id).Perm (graph.dependents id)) {fuel : Nat}
    (h : Processing graph C done queue degrees) (hqueued : Queued graph done queue)
    (hfuel : graph.tasks.entries.length ≤ done.length + fuel) :
    ∃ done' degrees', Processing graph C done' [] degrees' ∧ Queued graph done' [] ∧
      processOrStop dependents fuel degrees queue done.length = .ok done'.length := by
  induction fuel generalizing done queue degrees with
  | zero =>
      cases queue with
      | nil => exact ⟨done, degrees, h, hqueued, rfl⟩
      | cons current queue =>
          have hlength := (List.subperm_of_subset h.nodup h.subset_keys).length_le
          rw [List.length_append, List.length_cons, List.length_map] at hlength
          omega
  | succ fuel ih =>
      cases queue with
      | nil => exact ⟨done, degrees, h, hqueued, rfl⟩
      | cons current queue =>
          obtain ⟨_, hnew, hknown⟩ := h.fresh
          have henough := h.enough (hdependents current) (graph.waiting_cons hnew hknown)
          have hrelease := foldlM_releaseOrStop (dependents current) (degrees, queue) henough
          obtain ⟨done', degrees', hprocessing, hall, hrun⟩ := ih
            (h.step hC (hdependents current)) (hqueued.step h (hdependents current))
            (by rw [List.length_cons]; omega)
          refine ⟨done', degrees', hprocessing, hall, ?_⟩
          rw [processOrStop, hrelease]
          exact hrun

/-- When nothing is queued any more, what is left has dependencies that are left. -/
theorem Queued.left (h : Queued graph done []) (q : String)
    (hq : graph.lookup q ≠ none ∧ q ∉ done) :
    ∃ node, graph.lookup q = some node ∧
      ∃ dep ∈ node.dependsOn, graph.lookup dep ≠ none ∧ dep ∉ done := by
  obtain ⟨node, hnode⟩ := Option.ne_none_iff_exists'.mp hq.1
  refine ⟨node, hnode, ?_⟩
  by_contra hnone
  have hzero : graph.waiting done node = 0 := by
    rw [waiting, List.length_eq_zero_iff]
    refine List.filter_eq_nil_iff.mpr fun dep hdep hleft => hnone ⟨dep, ?_⟩
    obtain ⟨hmem, hknown⟩ := List.mem_filter.mp hdep
    exact ⟨hmem, Option.isSome_iff_ne_none.mp hknown, by simpa using hleft⟩
  have hdone := h q node hnode hzero
  rw [List.append_nil] at hdone
  exact hq.2 hdone

theorem Processing.subperm_keys (h : Processing graph C done [] degrees) :
    done.Subperm (graph.tasks.entries.map Sigma.fst) :=
  List.subperm_of_subset (List.nodup_append.mp h.nodup).1
    fun _ hq => h.subset_keys (List.mem_append_left [] hq)

theorem Processing.length_le (h : Processing graph C done [] degrees) :
    done.length ≤ graph.tasks.entries.length := by
  have hle := h.subperm_keys.length_le
  rwa [List.length_map] at hle

theorem Processing.length_eq_iff (h : Processing graph C done [] degrees) :
    done.length = graph.tasks.entries.length ↔ ∀ q, graph.lookup q ≠ none → q ∈ done := by
  constructor
  · intro hlength q hq
    have hperm := h.subperm_keys.perm_of_length_le (by rw [List.length_map, hlength])
    obtain ⟨node, hnode⟩ := Option.ne_none_iff_exists'.mp hq
    exact hperm.mem_iff.mpr (List.mem_map.mpr ⟨⟨q, node⟩, AList.mem_lookup_iff.mp hnode, rfl⟩)
  · intro hall
    have hkeys : graph.tasks.entries.map Sigma.fst ⊆ done := by
      intro q hq
      obtain ⟨entry, hentry, rfl⟩ := List.mem_map.mp hq
      apply hall
      have hlookup : graph.lookup entry.1 = some entry.2 := AList.mem_lookup_iff.mpr hentry
      rw [hlookup]
      exact Option.some_ne_none entry.2
    have hlength := (List.subperm_of_subset graph.tasks.nodupKeys hkeys).length_le
    exact Nat.le_antisymm h.length_le (by rwa [List.keys, List.length_map] at hlength)

end Loop

/-- The set of the tasks that are on a cycle. -/
theorem dependsOn_of_cycle {graph : TaskGraph} (q : String)
    (hq : Relation.TransGen graph.DependsOn q q) :
    ∃ node, graph.lookup q = some node ∧
      ∃ dep ∈ node.dependsOn, Relation.TransGen graph.DependsOn dep dep := by
  obtain ⟨dep, hdep, hback⟩ := Relation.TransGen.head'_iff.mp hq
  obtain ⟨node, hnode, hmem⟩ := hdep.1
  exact ⟨node, hnode, dep, hmem, .tail' hback hdep⟩

/-- In whichever order the hash maps yield their entries, the loop ends, and it leaves a task
out exactly when there is a cycle. -/
theorem processOrStop_ok (graph : TaskGraph) {free : List String}
    {dependents : String → List String} (horder : graph.Yields free dependents) :
    ∃ processed,
      processOrStop dependents graph.tasks.entries.length graph.degrees free 0 = .ok processed ∧
        processed ≤ graph.tasks.entries.length ∧
        (processed < graph.tasks.entries.length ↔ graph.Cyclic) := by
  have hstart := Processing.start graph (fun q => Relation.TransGen graph.DependsOn q q)
    horder.free
  have hqueued : Queued graph [] free := by
    intro q node hnode hzero
    rw [waiting_nil] at hzero
    exact horder.free.mem_iff.mpr (mem_free.mpr ⟨node, hnode, hzero⟩)
  obtain ⟨done, degrees, hprocessing, hall, hrun⟩ :=
    hstart.ends dependsOn_of_cycle horder.dependents hqueued (Nat.le_add_left _ _)
  have hle := hprocessing.length_le
  refine ⟨done.length, hrun, hle, ?_⟩
  constructor
  · intro hless
    by_contra hacyclic
    -- what the loop leaves has dependencies that it leaves
    have hnone := acyclic_of_not_cyclic hacyclic
      (fun q => graph.lookup q ≠ none ∧ q ∉ done) hall.left
    have hlength := hprocessing.length_eq_iff.mpr fun q hq => by
      by_contra hout
      exact hnone q ⟨hq, hout⟩
    omega
  · rintro ⟨id, hid⟩
    obtain ⟨node, hnode, _⟩ := dependsOn_of_cycle id hid
    by_contra hless
    have hdone := hprocessing.length_eq_iff.mp (by omega) id (by
      rw [hnode]
      exact Option.some_ne_none node)
    exact hprocessing.outside id hdone hid

theorem detectCycleOrStop_ok (graph : TaskGraph) {free : List String}
    {dependents : String → List String} (horder : graph.Yields free dependents) :
    ∃ answer, graph.detectCycleOrStop free dependents = .ok answer ∧
      (answer = true ↔ graph.Cyclic) := by
  obtain ⟨processed, hrun, -, hcyclic⟩ := processOrStop_ok graph horder
  refine ⟨decide (processed < graph.tasks.entries.length), ?_, ?_⟩
  · rw [detectCycleOrStop, hrun]
    rfl
  · rw [decide_eq_true_eq, hcyclic]

/-! ## The check of `add_tasks` -/

theorem release_of_ok {s s' : (AList fun _ : String => Nat) × List String} {id : String}
    (h : releaseOrStop s id = .ok s') : release s id = s' := by
  unfold releaseOrStop at h
  unfold release
  split at h
  · rename_i hnone
    rw [hnone]
    exact Except.ok.inj h
  · contradiction
  · rename_i degree hdegree
    rw [hdegree]
    exact Except.ok.inj h

theorem foldl_release_of_ok {ids : List String}
    {s s' : (AList fun _ : String => Nat) × List String}
    (h : ids.foldlM releaseOrStop s = .ok s') : ids.foldl release s = s' := by
  induction ids generalizing s with
  | nil => exact Except.ok.inj h
  | cons id rest ih =>
      rw [List.foldlM_cons] at h
      cases hstep : releaseOrStop s id with
      | error stop => simp [hstep, bind, Except.bind] at h
      | ok next =>
          simp only [hstep, bind, Except.bind] at h
          rw [List.foldl_cons, release_of_ok hstep]
          exact ih h

/-- A loop that does not stop counts what the loop without the checks does. -/
theorem processFrom_of_ok {dependents : String → List String} {fuel : Nat}
    {degrees : AList fun _ : String => Nat} {queue : List String} {processed count : Nat}
    (h : processOrStop dependents fuel degrees queue processed = .ok count) :
    processFrom dependents fuel degrees queue processed = count := by
  induction fuel generalizing degrees queue processed with
  | zero =>
      cases queue with
      | nil => exact Except.ok.inj h
      | cons current queue => contradiction
  | succ fuel ih =>
      cases queue with
      | nil => exact Except.ok.inj h
      | cons current queue =>
          rw [processOrStop] at h
          cases hfold : (dependents current).foldlM releaseOrStop (degrees, queue) with
          | error stop => simp [hfold, bind, Except.bind] at h
          | ok next =>
              simp only [hfold, bind, Except.bind] at h
              rw [processFrom, foldl_release_of_ok hfold]
              exact ih h

theorem yields_self (graph : TaskGraph) : graph.Yields graph.freeTasks graph.dependents :=
  ⟨.refl _, fun _ => .refl _⟩

theorem detectCycle_eq_true_iff (graph : TaskGraph) :
    graph.detectCycle = true ↔ graph.Cyclic := by
  obtain ⟨answer, hanswer, hcyclic⟩ := detectCycleOrStop_ok graph (yields_self graph)
  rw [← hcyclic]
  unfold detectCycleOrStop at hanswer
  cases hrun : processOrStop graph.dependents graph.tasks.entries.length graph.degrees
      graph.freeTasks 0 with
  | error stop => simp [hrun, bind, Except.bind] at hanswer
  | ok count =>
      simp only [hrun, bind, Except.bind] at hanswer
      rw [← Except.ok.inj hanswer, detectCycle]
      change decide (processFrom _ _ graph.degrees graph.freeTasks 0 < _) = true ↔ _
      rw [processFrom_of_ok hrun]

/-- In whichever order the hash maps yield their entries: no counter is taken below zero, the
loop ends, and a cycle is reported exactly when there is one. -/
theorem detectCycle_exact (graph : TaskGraph) {free : List String}
    {dependents : String → List String} (horder : graph.Yields free dependents) :
    graph.detectCycleOrStop free dependents = .ok graph.detectCycle ∧
      (graph.detectCycle = true ↔ graph.Cyclic) := by
  refine ⟨?_, detectCycle_eq_true_iff graph⟩
  obtain ⟨answer, hanswer, hcyclic⟩ := detectCycleOrStop_ok graph horder
  rw [hanswer]
  exact congrArg _ (Bool.eq_iff_iff.mpr (hcyclic.trans (detectCycle_eq_true_iff graph).symm))

/-- One task depends on itself, twice, and on one that is not there; another one on it. -/
def tangledTasks : TaskGraph :=
  (new.insertAll [] [.obj [("task_id", .str "a"),
      ("depends_on", .arr [.str "a", .str "missing", .str "a"])],
    .obj [("task_id", .str "b"), ("depends_on", .arr [.str "a"])], .obj [("task_id", .str "c")]]).2

theorem detectCycle_exact_tangled :
    tangledTasks.detectCycleOrStop ["c"] tangledTasks.dependents = .ok true ∧
      tangledTasks.Cyclic := by
  have horder : tangledTasks.Yields ["c"] tangledTasks.dependents :=
    ⟨by decide +kernel, fun _ => .refl _⟩
  obtain ⟨hanswer, hcyclic⟩ := detectCycle_exact tangledTasks horder
  have hreported : tangledTasks.detectCycle = true := by decide +kernel
  exact ⟨hreported ▸ hanswer, hcyclic.mp hreported⟩

end TaskGraph

end Zeptobeam
