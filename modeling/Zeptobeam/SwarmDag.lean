/-
Swarm steps and their check: every dependency is a step of the list, and Kahn's loop visits as
many steps as there are.  Counters are checked; the hash map yields the free steps in any order.
-/
import Zeptobeam.ConfigReload
import Zeptobeam.CycleDetection

namespace Zeptobeam

structure SwarmStep where
  id : String
  config : AgentAdapterConfig
  dependsOn : List String
deriving DecidableEq

/-- A lookup that is unwrapped fails, a counter is taken below zero, or the loop goes on behind
its fuel. -/
inductive DagStop where
  | missing
  | underflow
  | outOfFuel
deriving DecidableEq, Repr

structure DagTables where
  inDegree : AList fun _ : String => Nat
  adj : AList fun _ : String => List String

namespace SwarmDag

def stepIds (steps : List SwarmStep) : List String :=
  steps.map SwarmStep.id

/-! ## `validate_dag` -/

/-- The error of the first dependency that is not a step of the list. -/
def missingDependency (steps : List SwarmStep) : Option String :=
  steps.findSome? fun step =>
    (step.dependsOn.find? (· ∉ stepIds steps)).map fun dep =>
      s!"step '{step.id}' depends on '{dep}' which does not exist"

/-- `entry(key).or_insert(value)`. -/
def orInsert {V : Type} (map : AList fun _ : String => V) (key : String) (value : V) :
    AList fun _ : String => V :=
  if (map.lookup key).isSome then map else map.insert key value

def addDep (id : String) (tables : DagTables) (dep : String) : DagTables where
  inDegree := tables.inDegree.insert id ((tables.inDegree.lookup id).getD 0 + 1)
  adj := tables.adj.insert dep ((tables.adj.lookup dep).getD [] ++ [id])

def addStep (tables : DagTables) (step : SwarmStep) : DagTables :=
  step.dependsOn.foldl (addDep step.id)
    ⟨orInsert tables.inDegree step.id 0, orInsert tables.adj step.id []⟩

def dagTables (steps : List SwarmStep) : DagTables :=
  steps.foldl addStep ⟨∅, ∅⟩

def freeSteps (tables : DagTables) : List String :=
  (tables.inDegree.entries.filter fun entry => entry.2 = 0).map Sigma.fst

/-- `*deg -= 1` of one neighbor, which is queued at zero. -/
def release (s : (AList fun _ : String => Nat) × List String) (next : String) :
    Except DagStop ((AList fun _ : String => Nat) × List String) :=
  match s.1.lookup next with
  | none => .error .missing
  | some 0 => .error .underflow
  | some (deg + 1) => .ok (s.1.insert next deg, if deg = 0 then s.2 ++ [next] else s.2)

def visitFrom (adj : AList fun _ : String => List String) :
    Nat → (AList fun _ : String => Nat) → List String → Nat → Except DagStop Nat
  | _, _, [], visited => .ok visited
  | 0, _, _ :: _, _ => .error .outOfFuel
  | fuel + 1, inDegree, node :: queue, visited => do
      let s ← ((adj.lookup node).getD []).foldlM release (inDegree, queue)
      visitFrom adj fuel s.1 s.2 (visited + 1)

/-- `validate_dag`, with the free steps as the hash map yields them. -/
def validateDag (steps : List SwarmStep) (free : List String) :
    Except DagStop (Except String Unit) :=
  match missingDependency steps with
  | some text => .ok (.error text)
  | none => do
      let tables := dagTables steps
      let visited ← visitFrom tables.adj steps.length tables.inDegree free 0
      if visited ≠ steps.length then return .error "DAG contains a cycle" else return .ok ()

/-! ## What it should say -/

/-- A step of the id depends on another id. -/
def DependsOn (steps : List SwarmStep) (id dep : String) : Prop :=
  ∃ step ∈ steps, step.id = id ∧ dep ∈ step.dependsOn

/-- The ids are distinct, the dependencies are steps, and none depends on itself through one or
more dependencies. -/
structure Sound (steps : List SwarmStep) : Prop where
  distinct : (stepIds steps).Nodup
  known : ∀ step ∈ steps, ∀ dep ∈ step.dependsOn, dep ∈ stepIds steps
  acyclic : ¬ ∃ id, Relation.TransGen (DependsOn steps) id id

/-! ## The tables -/

/-- All dependencies of the steps of an id. -/
def depsOf (steps : List SwarmStep) (id : String) : List String :=
  steps.flatMap fun step => if step.id = id then step.dependsOn else []

/-- The steps that depend on an id, once for each time they mention it. -/
def neighborsOf (steps : List SwarmStep) (id : String) : List String :=
  steps.flatMap fun step => (step.dependsOn.filter (· = id)).map fun _ => step.id

variable {steps : List SwarmStep} {tables : DagTables} {id q : String} {deps : List String}

theorem lookup_orInsert {V : Type} (map : AList fun _ : String => V) (key q : String) (value : V) :
    (orInsert map key value).lookup q =
      if q = key then some ((map.lookup key).getD value) else map.lookup q := by
  unfold orInsert
  cases hkey : map.lookup key with
  | none =>
      by_cases hq : q = key
      · subst hq
        simp [AList.lookup_insert]
      · simp [hq, AList.lookup_insert_ne hq]
  | some old =>
      by_cases hq : q = key
      · subst hq
        simp [hkey]
      · simp [hq]

theorem inDegree_foldl_addDep {degree : Nat} (hid : tables.inDegree.lookup id = some degree)
    (q : String) :
    (deps.foldl (addDep id) tables).inDegree.lookup q =
      if q = id then some (degree + deps.length) else tables.inDegree.lookup q := by
  induction deps generalizing tables degree with
  | nil =>
      by_cases hq : q = id
      · rw [if_pos hq, hq]
        exact hid
      · rw [if_neg hq]
        rfl
  | cons dep rest ih =>
      have hnext : (addDep id tables dep).inDegree.lookup id = some (degree + 1) := by
        rw [addDep, AList.lookup_insert, hid, Option.getD_some]
      rw [List.foldl_cons, ih hnext]
      by_cases hq : q = id
      · rw [if_pos hq, if_pos hq, List.length_cons]
        exact congrArg some (by omega)
      · rw [if_neg hq, if_neg hq]
        exact AList.lookup_insert_ne hq

theorem adj_foldl_addDep (q : String) :
    ((deps.foldl (addDep id) tables).adj.lookup q).getD [] =
      (tables.adj.lookup q).getD [] ++ (deps.filter (· = q)).map fun _ => id := by
  induction deps generalizing tables with
  | nil => exact (List.append_nil _).symm
  | cons dep rest ih =>
      rw [List.foldl_cons, ih]
      by_cases hq : dep = q
      · subst hq
        rw [List.filter_cons_of_pos (by simp), List.map_cons, addDep, AList.lookup_insert,
          Option.getD_some, List.append_assoc]
        rfl
      · rw [List.filter_cons_of_neg (by simpa using hq), addDep,
          AList.lookup_insert_ne (Ne.symm hq)]

theorem inDegree_foldl_addStep (steps : List SwarmStep) (tables : DagTables) (q : String) :
    (steps.foldl addStep tables).inDegree.lookup q =
      if q ∈ stepIds steps then
        some ((tables.inDegree.lookup q).getD 0 + (depsOf steps q).length)
      else tables.inDegree.lookup q := by
  induction steps generalizing tables with
  | nil => rfl
  | cons step rest ih =>
      have hstart : (orInsert tables.inDegree step.id 0).lookup step.id =
          some ((tables.inDegree.lookup step.id).getD 0) := by
        rw [lookup_orInsert, if_pos rfl]
      rw [List.foldl_cons, ih, addStep, inDegree_foldl_addDep hstart, lookup_orInsert]
      have hdeps : depsOf (step :: rest) q =
          (if step.id = q then step.dependsOn else []) ++ depsOf rest q := rfl
      have hids : q ∈ stepIds (step :: rest) ↔ q = step.id ∨ q ∈ stepIds rest := List.mem_cons
      rw [hdeps]
      simp only [hids]
      by_cases hq : q = step.id
      · subst hq
        rw [if_pos rfl, if_pos rfl, if_pos (Or.inl rfl), Option.getD_some, List.length_append]
        by_cases hrest : step.id ∈ stepIds rest
        · rw [if_pos hrest]
          exact congrArg some (by omega)
        · have hnone : depsOf rest step.id = [] := by
            apply List.flatMap_eq_nil_iff.mpr
            intro other hother
            rw [if_neg]
            intro hsame
            exact hrest (hsame ▸ List.mem_map_of_mem hother)
          rw [if_neg hrest, hnone]
          rfl
      · simp [hq, Ne.symm hq]

theorem lookup_inDegree (steps : List SwarmStep) (q : String) :
    (dagTables steps).inDegree.lookup q =
      if q ∈ stepIds steps then some (depsOf steps q).length else none := by
  rw [dagTables, inDegree_foldl_addStep, AList.lookup_empty, Option.getD_none, Nat.zero_add]

theorem lookup_adj (steps : List SwarmStep) (q : String) :
    ((dagTables steps).adj.lookup q).getD [] = neighborsOf steps q := by
  have hfold : ∀ tables : DagTables, ((steps.foldl addStep tables).adj.lookup q).getD [] =
      (tables.adj.lookup q).getD [] ++ neighborsOf steps q := by
    induction steps with
    | nil => exact fun _ => (List.append_nil _).symm
    | cons step rest ih =>
        intro tables
        rw [List.foldl_cons, ih, addStep, adj_foldl_addDep, lookup_orInsert, List.append_assoc]
        congr 1
        split
        · rename_i hq
          rw [hq, Option.getD_some]
        · rfl
  rw [dagTables, hfold, AList.lookup_empty, Option.getD_none, List.nil_append]

/-! ## The steps as a task graph -/

def taskOf (steps : List SwarmStep) (id : String) : TaskNode :=
  ⟨.obj [("task_id", .str id)], depsOf steps id, .pending⟩

theorem dlookup_map {V : Type} (f : String → V) (ids : List String) (q : String) :
    (ids.map fun id => (⟨id, f id⟩ : Sigma fun _ : String => V)).dlookup q =
      if q ∈ ids then some (f q) else none := by
  induction ids with
  | nil => rfl
  | cons id rest ih =>
      rw [List.map_cons]
      by_cases hq : q = id
      · subst hq
        rw [List.dlookup_cons_eq, if_pos List.mem_cons_self]
      · rw [List.dlookup_cons_ne _ _ hq, ih]
        simp [hq]

/-- One task for each id, with all dependencies of the steps of the id. -/
def taskGraph (steps : List SwarmStep) : TaskGraph where
  tasks := {
    entries := (stepIds steps).dedup.map fun id => ⟨id, taskOf steps id⟩
    nodupKeys := by
      rw [List.NodupKeys, List.keys, List.map_map]
      exact (List.nodup_dedup (stepIds steps)).map Function.injective_id }
  insertionOrder := (stepIds steps).dedup
  keyed := by
    intro id node hnode
    change ((stepIds steps).dedup.map fun id => (⟨id, taskOf steps id⟩ :
      Sigma fun _ : String => TaskNode)).dlookup id = some node at hnode
    rw [dlookup_map] at hnode
    split at hnode
    · obtain rfl := Option.some.inj hnode
      rfl
    · contradiction

theorem lookup_taskGraph (steps : List SwarmStep) (q : String) :
    (taskGraph steps).lookup q = if q ∈ stepIds steps then some (taskOf steps q) else none := by
  change ((stepIds steps).dedup.map fun id => (⟨id, taskOf steps id⟩ :
    Sigma fun _ : String => TaskNode)).dlookup q = _
  rw [dlookup_map]
  simp only [List.mem_dedup]

theorem length_taskGraph (steps : List SwarmStep) :
    (taskGraph steps).tasks.entries.length = (stepIds steps).dedup.length :=
  List.length_map _

theorem mem_depsOf {dep : String} : dep ∈ depsOf steps id ↔ DependsOn steps id dep := by
  rw [depsOf, List.mem_flatMap]
  constructor
  · rintro ⟨step, hstep, hdep⟩
    split at hdep
    · rename_i hid
      exact ⟨step, hstep, hid, hdep⟩
    · contradiction
  · rintro ⟨step, hstep, hid, hdep⟩
    exact ⟨step, hstep, by rwa [if_pos hid]⟩

theorem mem_stepIds {step : SwarmStep} (hstep : step ∈ steps) : step.id ∈ stepIds steps :=
  List.mem_map_of_mem hstep

theorem DependsOn.mem {dep : String} (h : DependsOn steps id dep) : id ∈ stepIds steps := by
  obtain ⟨step, hstep, rfl, -⟩ := h
  exact mem_stepIds hstep

section Known

variable (hknown : ∀ step ∈ steps, ∀ dep ∈ step.dependsOn, dep ∈ stepIds steps)
include hknown

/-- When all dependencies are steps, the two relations are the same. -/
theorem dependsOn_taskGraph {dep : String} :
    (taskGraph steps).DependsOn id dep ↔ DependsOn steps id dep := by
  rw [TaskGraph.DependsOn, lookup_taskGraph, lookup_taskGraph]
  constructor
  · rintro ⟨⟨node, hnode, hdep⟩, -⟩
    split at hnode
    · cases hnode
      exact mem_depsOf.mp hdep
    · contradiction
  · intro h
    have hmem := h.mem
    refine ⟨⟨taskOf steps id, by rw [if_pos hmem], mem_depsOf.mpr h⟩, ?_⟩
    obtain ⟨step, hstep, -, hdep⟩ := h
    rw [if_pos (hknown step hstep dep hdep)]
    exact Option.some_ne_none _

theorem inDegree_taskGraph (id : String) :
    (taskGraph steps).inDegree (taskOf steps id) = (depsOf steps id).length := by
  rw [TaskGraph.inDegree, List.filter_eq_self.mpr]
  · rfl
  · intro dep hdep
    obtain ⟨step, hstep, -, hmention⟩ := mem_depsOf.mp hdep
    rw [lookup_taskGraph, if_pos (hknown step hstep dep hmention)]
    rfl

theorem lookup_degrees (q : String) :
    (taskGraph steps).degrees.lookup q = (dagTables steps).inDegree.lookup q := by
  rw [TaskGraph.degrees, TaskGraph.lookup_degrees, lookup_taskGraph, lookup_inDegree]
  split
  · exact congrArg some (inDegree_taskGraph hknown q)
  · rfl

/-- The free steps are the free tasks. -/
theorem perm_freeTasks {free : List String} (hfree : free.Perm (freeSteps (dagTables steps))) :
    free.Perm (taskGraph steps).freeTasks := by
  apply hfree.trans
  have hsteps : (freeSteps (dagTables steps)).Nodup :=
    List.Nodup.sublist (List.filter_sublist.map Sigma.fst) (dagTables steps).inDegree.nodupKeys
  have htasks : (taskGraph steps).freeTasks.Nodup :=
    List.Nodup.sublist (List.filter_sublist.map Sigma.fst) (taskGraph steps).tasks.nodupKeys
  apply (List.perm_ext_iff_of_nodup hsteps htasks).mpr
  intro q
  have hmem : q ∈ freeSteps (dagTables steps) ↔
      (dagTables steps).inDegree.lookup q = some 0 := by
    simp only [freeSteps, List.mem_map, List.mem_filter, decide_eq_true_eq]
    constructor
    · rintro ⟨⟨key, degree⟩, ⟨hentry, rfl⟩, rfl⟩
      exact AList.mem_lookup_iff.mpr hentry
    · intro hlookup
      exact ⟨⟨q, 0⟩, ⟨AList.mem_lookup_iff.mp hlookup, rfl⟩, rfl⟩
  have hfree : q ∈ (taskGraph steps).freeTasks ↔
      (taskGraph steps).degrees.lookup q = some 0 := by
    rw [TaskGraph.freeTasks, TaskGraph.mem_free, TaskGraph.degrees, TaskGraph.lookup_degrees,
      Option.map_eq_some_iff]
  rw [hmem, hfree, lookup_degrees hknown]

omit hknown in
theorem count_neighborsOf (steps : List SwarmStep) (id q : String) :
    (neighborsOf steps id).count q = (depsOf steps q).count id := by
  induction steps with
  | nil => rfl
  | cons step rest ih =>
      have hmentions : (step.dependsOn.filter (· = id)).length = step.dependsOn.count id := by
        rw [List.count, List.countP_eq_length_filter]
        rfl
      rw [neighborsOf, depsOf, List.flatMap_cons, List.flatMap_cons, List.count_append,
        List.count_append, List.map_const', List.count_replicate, hmentions]
      rw [neighborsOf, depsOf] at ih
      rw [ih]
      by_cases hq : step.id = q
      · rw [if_pos (by simpa using hq), if_pos hq]
      · rw [if_neg (by simpa using hq), if_neg hq]
        rfl

omit hknown in
theorem perm_dependents (steps : List SwarmStep) (id : String) :
    (neighborsOf steps id).Perm ((taskGraph steps).dependents id) := by
  rw [List.perm_iff_count]
  intro q
  rw [count_neighborsOf, TaskGraph.count_dependents, lookup_taskGraph]
  split
  · rfl
  · rename_i hq
    have hnone : depsOf steps q = [] := by
      apply List.eq_nil_iff_forall_not_mem.mpr
      exact fun dep hdep => hq (mem_depsOf.mp hdep).mem
    rw [hnone]
    rfl

/-- The order in which the hash map yields the free steps is one of the task graph's. -/
theorem yields_taskGraph {free : List String}
    (hfree : free.Perm (freeSteps (dagTables steps))) :
    (taskGraph steps).Yields free fun id => ((dagTables steps).adj.lookup id).getD [] where
  free := perm_freeTasks hknown hfree
  dependents := by
    intro id
    rw [lookup_adj]
    exact perm_dependents steps id

end Known

/-! ## The loop -/

section Loop

open TaskGraph (KahnStop releaseOrStop processOrStop)

variable {s s' t : (AList fun _ : String => Nat) × List String} {next : String}
  {nexts : List String}

/-- Counters of the same steps with the same numbers, and the same queue. -/
structure Alike (s t : (AList fun _ : String => Nat) × List String) : Prop where
  counters : ∀ q, s.1.lookup q = t.1.lookup q
  queue : s.2 = t.2

theorem lookup_isSome_of_releaseOrStop (h : releaseOrStop s next = .ok s') (q : String) :
    (s'.1.lookup q).isSome = (s.1.lookup q).isSome := by
  rw [← TaskGraph.release_of_ok h, TaskGraph.lookup_release]
  split
  · exact Option.isSome_map
  · rfl

/-- Where every neighbor has a counter, the two loops release alike. -/
theorem Alike.release (h : Alike s t) (hrun : releaseOrStop s next = .ok s')
    (hnext : (s.1.lookup next).isSome) :
    ∃ t', release t next = .ok t' ∧ Alike s' t' := by
  obtain ⟨degree, hdegree⟩ := Option.isSome_iff_exists.mp hnext
  have hother : t.1.lookup next = some degree := by rw [← h.counters, hdegree]
  unfold releaseOrStop at hrun
  unfold SwarmDag.release
  rw [hdegree] at hrun
  rw [hother]
  cases degree with
  | zero => contradiction
  | succ degree =>
      cases hrun
      refine ⟨_, rfl, ?_, ?_⟩
      · intro q
        by_cases hq : q = next
        · subst hq
          rw [AList.lookup_insert, AList.lookup_insert]
        · rw [AList.lookup_insert_ne hq, AList.lookup_insert_ne hq, h.counters]
      · rw [h.queue]

theorem Alike.foldlM (h : Alike s t) (hrun : nexts.foldlM releaseOrStop s = .ok s')
    (hnexts : ∀ next ∈ nexts, (s.1.lookup next).isSome) :
    (∃ t', nexts.foldlM SwarmDag.release t = .ok t' ∧ Alike s' t') ∧
      ∀ q, (s'.1.lookup q).isSome = (s.1.lookup q).isSome := by
  induction nexts generalizing s t with
  | nil =>
      cases hrun
      exact ⟨⟨t, rfl, h⟩, fun _ => rfl⟩
  | cons next rest ih =>
      rw [List.foldlM_cons] at hrun
      cases hstep : releaseOrStop s next with
      | error stop => simp [hstep, bind, Except.bind] at hrun
      | ok mid =>
          simp only [hstep, bind, Except.bind] at hrun
          obtain ⟨other, hother, halike⟩ := h.release hstep (hnexts next List.mem_cons_self)
          have hkeys := lookup_isSome_of_releaseOrStop hstep
          obtain ⟨⟨t', ht', hend⟩, hkeys'⟩ := ih halike hrun fun q hq => by
            rw [hkeys]
            exact hnexts q (List.mem_cons_of_mem next hq)
          refine ⟨⟨t', ?_, hend⟩, fun q => (hkeys' q).trans (hkeys q)⟩
          rw [List.foldlM_cons, hother]
          exact ht'

/-- With at least as much fuel the loop visits what Kahn's loop processes. -/
theorem visitFrom_of_processOrStop {adj : AList fun _ : String => List String}
    {fuel more visited count : Nat} {queue : List String}
    {degrees inDegree : AList fun _ : String => Nat}
    (hrun : processOrStop (fun id => (adj.lookup id).getD []) fuel degrees queue visited =
      .ok count)
    (hfuel : fuel ≤ more) (hsame : ∀ q, degrees.lookup q = inDegree.lookup q)
    (hadj : ∀ id, ∀ next ∈ (adj.lookup id).getD [], (degrees.lookup next).isSome) :
    visitFrom adj more inDegree queue visited = .ok count := by
  induction fuel generalizing more degrees inDegree queue visited with
  | zero =>
      cases queue with
      | nil =>
          rw [processOrStop] at hrun
          rw [visitFrom, Except.ok.inj hrun]
      | cons node queue => contradiction
  | succ fuel ih =>
      cases queue with
      | nil =>
          rw [processOrStop] at hrun
          rw [visitFrom, Except.ok.inj hrun]
      | cons node queue =>
          obtain ⟨more, rfl⟩ := Nat.exists_eq_add_of_le' (Nat.le_of_add_left_le hfuel)
          rw [processOrStop] at hrun
          cases hfold : ((adj.lookup node).getD []).foldlM releaseOrStop (degrees, queue) with
          | error stop => simp [hfold, bind, Except.bind] at hrun
          | ok next =>
              simp only [hfold, bind, Except.bind] at hrun
              have halike : Alike (degrees, queue) (inDegree, queue) := ⟨hsame, rfl⟩
              obtain ⟨⟨other, hother, hend⟩, hkeys⟩ := halike.foldlM hfold (hadj node)
              rw [visitFrom, hother]
              simp only [bind, Except.bind]
              rw [← hend.queue]
              apply ih hrun (Nat.le_of_succ_le_succ hfuel) hend.counters
              intro id q hq
              rw [hkeys]
              exact hadj id q hq

end Loop

/-! ## The check -/

theorem missingDependency_eq_none_iff : missingDependency steps = none ↔
    ∀ step ∈ steps, ∀ dep ∈ step.dependsOn, dep ∈ stepIds steps := by
  rw [missingDependency, List.findSome?_eq_none_iff]
  simp

/-- Every step that is free is visited, and a step is left out only on a cycle. -/
theorem visitFrom_ok (hknown : ∀ step ∈ steps, ∀ dep ∈ step.dependsOn, dep ∈ stepIds steps)
    {free : List String} (hfree : free.Perm (freeSteps (dagTables steps))) :
    ∃ visited, visitFrom (dagTables steps).adj steps.length (dagTables steps).inDegree free 0 =
        .ok visited ∧
      visited ≤ (stepIds steps).dedup.length ∧
      (visited < (stepIds steps).dedup.length ↔
        ∃ id, Relation.TransGen (DependsOn steps) id id) := by
  obtain ⟨visited, hrun, hle, hcyclic⟩ :=
    TaskGraph.processOrStop_ok (taskGraph steps) (yields_taskGraph hknown hfree)
  have hrelation : (taskGraph steps).DependsOn = DependsOn steps := by
    funext id dep
    exact propext (dependsOn_taskGraph hknown)
  rw [TaskGraph.Cyclic, hrelation, length_taskGraph] at hcyclic
  rw [length_taskGraph] at hrun hle
  refine ⟨visited, visitFrom_of_processOrStop hrun ?_ (lookup_degrees hknown) ?_, hle, hcyclic⟩
  · have hdedup := (List.dedup_sublist (stepIds steps)).length_le
    rwa [stepIds, List.length_map] at hdedup
  · intro id next hnext
    rw [lookup_adj, neighborsOf, List.mem_flatMap] at hnext
    obtain ⟨step, hstep, hmention⟩ := hnext
    obtain ⟨_, _, rfl⟩ := List.mem_map.mp hmention
    rw [lookup_degrees hknown, lookup_inDegree, if_pos (mem_stepIds hstep)]
    rfl

theorem length_dedup_eq_iff {ids : List String} : ids.dedup.length = ids.length ↔ ids.Nodup := by
  constructor
  · intro hlength
    rw [← (List.dedup_sublist ids).eq_of_length hlength]
    exact List.nodup_dedup ids
  · intro hnodup
    rw [hnodup.dedup]

/-- The check comes to a verdict, and that is a good one exactly for the lists that are sound. -/
theorem validateDag_verdict (steps : List SwarmStep) {free : List String}
    (hfree : free.Perm (freeSteps (dagTables steps))) :
    ∃ verdict, validateDag steps free = .ok verdict ∧ (verdict = .ok () ↔ Sound steps) := by
  cases hmissing : missingDependency steps with
  | some text =>
      refine ⟨.error text, by rw [validateDag, hmissing], iff_of_false nofun fun hsound => ?_⟩
      rw [missingDependency_eq_none_iff.mpr hsound.known] at hmissing
      contradiction
  | none =>
      have hknown := missingDependency_eq_none_iff.mp hmissing
      obtain ⟨visited, hrun, hle, hcyclic⟩ := visitFrom_ok hknown hfree
      have hdedup := (List.dedup_sublist (stepIds steps)).length_le
      have hlength : (stepIds steps).length = steps.length := List.length_map _
      refine ⟨if visited ≠ steps.length then .error "DAG contains a cycle" else .ok (), ?_, ?_⟩
      · rw [validateDag, hmissing]
        simp only [hrun, bind, Except.bind]
        split <;> rfl
      · constructor
        · intro hverdict
          split at hverdict
          · contradiction
          · rename_i hall
            have hall : visited = steps.length := by omega
            exact ⟨length_dedup_eq_iff.mp (by omega), hknown, fun h => by
              have hless := hcyclic.mpr h
              omega⟩
        · intro hsound
          have hdistinct := length_dedup_eq_iff.mpr hsound.distinct
          have hall : ¬ visited < (stepIds steps).dedup.length :=
            fun hless => hsound.acyclic (hcyclic.mp hless)
          rw [if_neg (by omega)]

theorem validateDag_eq_ok_iff {free : List String}
    (hfree : free.Perm (freeSteps (dagTables steps))) :
    validateDag steps free = .ok (.ok ()) ↔ Sound steps := by
  obtain ⟨verdict, hverdict, hsound⟩ := validateDag_verdict steps hfree
  rw [hverdict, Except.ok.injEq]
  exact hsound

/-- In whichever order the hash map yields the free steps, the check ends without a failed
lookup and without an underflow, and it accepts exactly the lists that are sound. -/
theorem validateDag_exact (steps : List SwarmStep) {free : List String}
    (hfree : free.Perm (freeSteps (dagTables steps))) :
    (∀ stop, validateDag steps free ≠ .error stop) ∧
      (validateDag steps free = .ok (.ok ()) ↔ Sound steps) := by
  refine ⟨fun stop hstop => ?_, validateDag_eq_ok_iff hfree⟩
  obtain ⟨verdict, hverdict, -⟩ := validateDag_verdict steps hfree
  rw [hverdict] at hstop
  contradiction

/-- Two steps of one id, the second of which depends on the first. -/
def twinSteps : List SwarmStep :=
  let config : AgentAdapterConfig := ⟨"agent", "test", none, none, [], none, none⟩
  [⟨"a", config, []⟩, ⟨"b", config, ["a", "a"]⟩, ⟨"b", config, []⟩]

theorem validateDag_exact_twins :
    validateDag twinSteps ["a"] = .ok (.error "DAG contains a cycle") ∧ ¬ Sound twinSteps := by
  have hfree : ["a"].Perm (freeSteps (dagTables twinSteps)) := by decide
  have hexact := validateDag_exact twinSteps hfree
  have hself : validateDag twinSteps ["a"] = .ok (.error "DAG contains a cycle") := by decide
  refine ⟨hself, fun hsound => ?_⟩
  have hgood := hexact.2.mpr hsound
  rw [hself] at hgood
  exact absurd (Except.ok.inj hgood) nofun

end SwarmDag

end Zeptobeam
