/-
Running a swarm as a DAG: in every round the steps whose dependencies are completed are started
together and joined.  What the process of a step comes to is a parameter, an exit or the error
of its join; hash sets yield their elements in any order, which may differ from round to round.
-/
import Zeptobeam.SwarmDag

namespace Zeptobeam

universe u v

structure StepResult (X : Type v) where
  stepId : String
  exit : X
deriving DecidableEq

/-- The order in which the set of pending steps is iterated in each round. -/
structure StepOrder where
  yields : Nat → List String → List String
  perm : ∀ round ids, (yields round ids).Perm ids

/-- What a run did: the ids of the steps of each round, the results, and the ids that were
pending at the end. -/
structure DagRun (X : Type v) where
  rounds : List (List String)
  results : List (StepResult X)
  left : List String

namespace SwarmDag

variable {E : Type u} {X : Type v}

def stepMap (steps : List SwarmStep) : AList fun _ : String => SwarmStep :=
  steps.foldl (fun map step => map.insert step.id step) ∅

/-- All dependencies of the step are completed.  The ids are keys of the map. -/
def isReady (steps : AList fun _ : String => SwarmStep) (completed : List String)
    (id : String) : Bool :=
  match steps.lookup id with
  | none => false
  | some step => step.dependsOn.all fun dep => dep ∈ completed

/-- The steps of a round, in the order in which they are started and joined. -/
def readySteps (order : StepOrder) (steps : AList fun _ : String => SwarmStep) (round : Nat)
    (pending completed : List String) : List String :=
  (order.yields round pending).filter (isReady steps completed)

def withoutSteps (pending ready : List String) : List String :=
  pending.filter (· ∉ ready)

/-- A step that is joined has a result; the error of a join is logged only. -/
def joined (execute : SwarmStep → Except E X) (steps : AList fun _ : String => SwarmStep)
    (id : String) : Option (StepResult X) :=
  match (steps.lookup id).map execute with
  | some (.ok exit) => some ⟨id, exit⟩
  | _ => none

theorem mem_readySteps {order : StepOrder} {steps : AList fun _ : String => SwarmStep}
    {round : Nat} {pending completed : List String} {id : String} :
    id ∈ readySteps order steps round pending completed ↔
      id ∈ pending ∧ isReady steps completed id = true := by
  rw [readySteps, List.mem_filter, (order.perm round pending).mem_iff]

def runRounds (execute : SwarmStep → Except E X) (order : StepOrder)
    (steps : AList fun _ : String => SwarmStep) (round : Nat)
    (pending completed : List String) : DagRun X :=
  if pending = [] then ⟨[], [], []⟩
  else
    let ready := readySteps order steps round pending completed
    if _hready : ready = [] then ⟨[], [], pending⟩
    else
      let later := runRounds execute order steps (round + 1) (withoutSteps pending ready)
        (completed ++ ready)
      { rounds := ready :: later.rounds
        results := ready.filterMap (joined execute steps) ++ later.results
        left := later.left }
termination_by pending.length
decreasing_by
  obtain ⟨id, hid⟩ := List.exists_mem_of_ne_nil _ _hready
  exact List.length_filter_lt_length_iff_exists.mpr
    ⟨id, (mem_readySteps.mp hid).1, by simpa using hid⟩

def runDag (execute : SwarmStep → Except E X) (order : StepOrder) (steps : List SwarmStep) :
    DagRun X :=
  runRounds execute order (stepMap steps) 0 (stepMap steps).keys []

/-! ## The rounds -/

/-- The rounds take pending steps, each after its dependencies, and what they leave waits for a
step that did not run. -/
structure Runs (execute : SwarmStep → Except E X) (steps : AList fun _ : String => SwarmStep)
    (pending completed : List String) (run : DagRun X) : Prop where
  taken : (run.rounds.flatten ++ run.left).Perm pending
  nonempty : ∀ round ∈ run.rounds, round ≠ []
  ordered : ∀ front round back, run.rounds = front ++ round :: back → ∀ id ∈ round,
    isReady steps (completed ++ front.flatten) id = true
  results : run.results = run.rounds.flatten.filterMap (joined execute steps)
  stuck : ∀ id ∈ run.left, isReady steps (completed ++ run.rounds.flatten) id = false

variable {execute : SwarmStep → Except E X} {order : StepOrder}
  {steps : AList fun _ : String => SwarmStep}

/-- A round and what it leaves are what was pending. -/
theorem perm_readySteps {round : Nat} {pending completed : List String}
    (hpending : pending.Nodup) :
    (readySteps order steps round pending completed ++
      withoutSteps pending (readySteps order steps round pending completed)).Perm pending := by
  have hnodup : (readySteps order steps round pending completed).Nodup :=
    ((order.perm round pending).nodup_iff.mpr hpending).filter _
  have hready : (readySteps order steps round pending completed).Perm
      (pending.filter (· ∈ readySteps order steps round pending completed)) := by
    apply (List.perm_ext_iff_of_nodup hnodup (hpending.filter _)).mpr
    intro id
    rw [List.mem_filter, decide_eq_true_eq]
    exact ⟨fun hid => ⟨(mem_readySteps.mp hid).1, hid⟩, And.right⟩
  refine (hready.append_right _).trans ?_
  have hsplit := List.filter_append_perm
    (fun id => decide (id ∈ readySteps order steps round pending completed)) pending
  simpa only [withoutSteps, decide_not] using hsplit

theorem runs_runRounds (round : Nat) (pending completed : List String)
    (hpending : pending.Nodup) :
    Runs execute steps pending completed
      (runRounds execute order steps round pending completed) := by
  fun_induction runRounds execute order steps round pending completed with
  | case1 round completed =>
      exact ⟨.refl _, fun _ hround => absurd hround List.not_mem_nil,
        fun front round back hsplit => by simp at hsplit, rfl,
        fun _ hid => absurd hid List.not_mem_nil⟩
  | case2 round pending completed hsome ready hready =>
      refine ⟨.refl _, fun _ hround => absurd hround List.not_mem_nil,
        fun front round back hsplit => by simp at hsplit, rfl, fun id hid => ?_⟩
      rw [List.flatten_nil, List.append_nil]
      by_contra hnot
      have hmem : id ∈ ready := mem_readySteps.mpr ⟨hid, by simpa using hnot⟩
      rw [hready] at hmem
      contradiction
  | case3 round pending completed hsome ready hready later ih =>
      obtain ⟨htaken, hnonempty, hordered, hresults, hstuck⟩ := ih (hpending.filter _)
      refine ⟨?_, ?_, ?_, ?_, ?_⟩
      · rw [List.flatten_cons, List.append_assoc]
        exact (htaken.append_left ready).trans (perm_readySteps hpending)
      · intro other hother
        rcases List.mem_cons.mp hother with rfl | hother
        · exact hready
        · exact hnonempty other hother
      · intro front other back hsplit id hid
        cases front with
        | nil =>
            obtain ⟨rfl, -⟩ := List.cons.inj hsplit
            rw [List.flatten_nil, List.append_nil]
            exact (mem_readySteps.mp hid).2
        | cons first front =>
            obtain ⟨rfl, hrest⟩ := List.cons.inj hsplit
            rw [List.flatten_cons, ← List.append_assoc]
            exact hordered front other back hrest id hid
      · rw [List.flatten_cons, List.filterMap_append, hresults]
      · intro id hid
        rw [List.flatten_cons, ← List.append_assoc]
        exact hstuck id hid

/-! ## The map of the steps -/

theorem lookup_foldl_insert {list : List SwarmStep} {id : String} (hid : id ∉ stepIds list)
    (map : AList fun _ : String => SwarmStep) :
    (list.foldl (fun map step => map.insert step.id step) map).lookup id = map.lookup id := by
  induction list generalizing map with
  | nil => rfl
  | cons first rest ih =>
      obtain ⟨hfirst, hrest⟩ := List.ne_and_not_mem_of_not_mem_cons hid
      rw [List.foldl_cons, ih hrest, AList.lookup_insert_ne hfirst]

theorem mem_foldl_insert (list : List SwarmStep) (map : AList fun _ : String => SwarmStep)
    (id : String) :
    id ∈ list.foldl (fun map step => map.insert step.id step) map ↔
      id ∈ stepIds list ∨ id ∈ map := by
  induction list generalizing map with
  | nil => simp [stepIds]
  | cons first rest ih =>
      have hids : id ∈ stepIds (first :: rest) ↔ id = first.id ∨ id ∈ stepIds rest :=
        List.mem_cons
      rw [List.foldl_cons, ih, AList.mem_insert, hids]
      tauto

theorem mem_keys_stepMap {list : List SwarmStep} {id : String} :
    id ∈ (stepMap list).keys ↔ id ∈ stepIds list := by
  rw [← AList.mem_keys, stepMap, mem_foldl_insert]
  exact or_iff_left (AList.notMem_empty id)

section Distinct

variable {list : List SwarmStep} (hids : (stepIds list).Nodup)
include hids

theorem lookup_stepMap {step : SwarmStep} (hstep : step ∈ list) :
    (stepMap list).lookup step.id = some step := by
  rw [stepMap]
  generalize (∅ : AList fun _ : String => SwarmStep) = map
  induction list generalizing map with
  | nil => contradiction
  | cons first rest ih =>
      obtain ⟨hfirst, hrest⟩ := List.nodup_cons.mp hids
      rw [List.foldl_cons]
      rcases List.mem_cons.mp hstep with rfl | hstep
      · rw [lookup_foldl_insert hfirst, AList.lookup_insert]
      · exact ih hrest hstep _

theorem perm_keys_stepMap : (stepMap list).keys.Perm (stepIds list) := by
  apply (List.perm_ext_iff_of_nodup (AList.keys_nodup _) hids).mpr
  exact fun id => mem_keys_stepMap

theorem isReady_stepMap {step : SwarmStep} (hstep : step ∈ list) (completed : List String) :
    isReady (stepMap list) completed step.id = true ↔
      ∀ dep ∈ step.dependsOn, dep ∈ completed := by
  rw [isReady, lookup_stepMap hids hstep]
  simp

end Distinct

/-! ## What a run should do -/

/-- What is reported of a step. -/
def reported (execute : SwarmStep → Except E X) (step : SwarmStep) : Option (StepResult X) :=
  match execute step with
  | .ok exit => some ⟨step.id, exit⟩
  | .error _ => none

/-- The run ends after at most as many rounds as there are steps, runs each step once and after
its dependencies, and has one result for each step that could be joined. -/
structure RunsAll (execute : SwarmStep → Except E X) (list : List SwarmStep)
    (run : DagRun X) : Prop where
  once : run.rounds.flatten.Perm (stepIds list)
  left : run.left = []
  bounded : run.rounds.length ≤ list.length
  ordered : ∀ front round back, run.rounds = front ++ round :: back →
    ∀ step ∈ list, step.id ∈ round → ∀ dep ∈ step.dependsOn, dep ∈ front.flatten
  results : run.results.Perm (list.filterMap (reported execute))

theorem runs_runDag (execute : SwarmStep → Except E X) (order : StepOrder)
    (list : List SwarmStep) :
    Runs execute (stepMap list) (stepMap list).keys [] (runDag execute order list) :=
  runs_runRounds 0 (stepMap list).keys [] (AList.keys_nodup _)

theorem length_le_flatten {rounds : List (List String)} (h : ∀ round ∈ rounds, round ≠ []) :
    rounds.length ≤ rounds.flatten.length := by
  induction rounds with
  | nil => exact Nat.le_refl _
  | cons round rest ih =>
      have hround := List.length_pos_iff.mpr (h round List.mem_cons_self)
      have hrest := ih fun other hother => h other (List.mem_cons_of_mem round hother)
      rw [List.flatten_cons, List.length_append, List.length_cons]
      omega

section Distinct

variable {list : List SwarmStep} {run : DagRun X} (hids : (stepIds list).Nodup)
  (hruns : Runs execute (stepMap list) (stepMap list).keys [] run)
include hids hruns

theorem Runs.perm_stepIds : (run.rounds.flatten ++ run.left).Perm (stepIds list) :=
  hruns.taken.trans (perm_keys_stepMap hids)

theorem Runs.dependencies {front back : List (List String)} {round : List String}
    (hsplit : run.rounds = front ++ round :: back) {step : SwarmStep} (hstep : step ∈ list)
    (hround : step.id ∈ round) : ∀ dep ∈ step.dependsOn, dep ∈ front.flatten := by
  apply (isReady_stepMap hids hstep _).mp
  simpa using hruns.ordered front round back hsplit step.id hround

/-- What waits for itself never runs. -/
theorem Runs.not_mem_flatten {C : String → Prop}
    (hC : ∀ id, C id → ∃ step ∈ list, step.id = id ∧ ∃ dep ∈ step.dependsOn, C dep) :
    ∀ {front back : List (List String)}, run.rounds = front ++ back →
      ∀ id ∈ front.flatten, ¬ C id := by
  intro front
  induction front using List.reverseRecOn with
  | nil => exact fun _ id hid => absurd hid List.not_mem_nil
  | append_singleton front round ih =>
      intro back hsplit id hid hmem
      rw [List.append_assoc, List.singleton_append] at hsplit
      rw [List.flatten_append, List.mem_append] at hid
      rcases hid with hid | hid
      · exact ih hsplit id hid hmem
      · obtain ⟨step, hstep, rfl, dep, hdep, hdepC⟩ := hC id hmem
        rw [List.flatten_cons, List.flatten_nil, List.append_nil] at hid
        exact ih hsplit dep (hruns.dependencies hids hsplit hstep hid dep hdep) hdepC

/-- A run that leaves nothing was over sound steps. -/
theorem Runs.sound (hleft : run.left = []) : Sound list := by
  have htaken := hruns.perm_stepIds hids
  rw [hleft, List.append_nil] at htaken
  refine ⟨hids, fun step hstep dep hdep => ?_, ?_⟩
  · have hrun := htaken.mem_iff.mpr (mem_stepIds hstep)
    obtain ⟨round, hround, hmem⟩ := List.mem_flatten.mp hrun
    obtain ⟨front, back, hsplit⟩ := List.append_of_mem hround
    have hfront := hruns.dependencies hids hsplit hstep hmem dep hdep
    apply htaken.mem_iff.mp
    rw [hsplit, List.flatten_append]
    exact List.mem_append_left _ hfront
  · rintro ⟨id, hcycle⟩
    have hself : ∀ q, Relation.TransGen (DependsOn list) q q →
        ∃ step ∈ list, step.id = q ∧
          ∃ dep ∈ step.dependsOn, Relation.TransGen (DependsOn list) dep dep := by
      intro q hq
      obtain ⟨dep, ⟨step, hstep, hid, hdep⟩, hback⟩ := Relation.TransGen.head'_iff.mp hq
      exact ⟨step, hstep, hid, dep, hdep, .tail' hback ⟨step, hstep, hid, hdep⟩⟩
    obtain ⟨step, hstep, rfl, -⟩ := hself id hcycle
    have hrun := htaken.mem_iff.mpr (mem_stepIds hstep)
    have hsplit : run.rounds = run.rounds ++ [] := (List.append_nil _).symm
    exact hruns.not_mem_flatten hids hself hsplit step.id hrun hcycle

/-- A run over sound steps leaves nothing. -/
theorem Runs.left_eq_nil (hsound : Sound list) : run.left = [] := by
  have hrelation : (taskGraph list).DependsOn = DependsOn list := by
    funext id dep
    exact propext (dependsOn_taskGraph hsound.known)
  have hacyclic : (taskGraph list).Acyclic := by
    apply TaskGraph.acyclic_of_not_cyclic
    rw [TaskGraph.Cyclic, hrelation]
    exact hsound.acyclic
  have htaken := hruns.perm_stepIds hids
  -- each step that is left waits for a step that is left
  apply List.eq_nil_iff_forall_not_mem.mpr
  apply hacyclic fun id => id ∈ run.left
  intro id hid
  have hmem := htaken.mem_iff.mp (List.mem_append_right _ hid)
  obtain ⟨step, hstep, rfl⟩ := List.mem_map.mp hmem
  refine ⟨taskOf list step.id, by rw [lookup_taskGraph, if_pos hmem], ?_⟩
  by_contra hnone
  have hready : isReady (stepMap list) ([] ++ run.rounds.flatten) step.id = true := by
    apply (isReady_stepMap hids hstep _).mpr
    intro dep hdep
    rcases List.mem_append.mp (htaken.mem_iff.mpr (hsound.known step hstep dep hdep)) with h | h
    · exact h
    · exact absurd ⟨dep, mem_depsOf.mpr ⟨step, hstep, rfl, hdep⟩, h⟩ hnone
  rw [hruns.stuck step.id hid] at hready
  contradiction

theorem Runs.left_eq_nil_iff : run.left = [] ↔ Sound list :=
  ⟨hruns.sound hids, hruns.left_eq_nil hids⟩

theorem Runs.runsAll (hleft : run.left = []) : RunsAll execute list run := by
  have htaken := hruns.perm_stepIds hids
  rw [hleft, List.append_nil] at htaken
  refine ⟨htaken, hleft, ?_, fun front round back hsplit step hstep => ?_, ?_⟩
  · have hlength := length_le_flatten hruns.nonempty
    rwa [htaken.length_eq, stepIds, List.length_map] at hlength
  · exact hruns.dependencies hids hsplit hstep
  · rw [hruns.results]
    refine (htaken.filterMap _).trans (.of_eq ?_)
    rw [stepIds, List.filterMap_map]
    apply List.filterMap_congr
    intro step hstep
    rw [Function.comp_apply, joined, lookup_stepMap hids hstep, reported, Option.map_some]
    cases execute step <;> rfl

end Distinct

/-- Steps that the check accepts all run, once each and in order, whatever their processes come
to; distinct steps are left over exactly when the check rejects them. -/
theorem runDag_exact (execute : SwarmStep → Except E X) (order : StepOrder)
    (list : List SwarmStep) {free : List String}
    (hfree : free.Perm (freeSteps (dagTables list))) :
    (validateDag list free = .ok (.ok ()) →
        RunsAll execute list (runDag execute order list)) ∧
      ((stepIds list).Nodup →
        ((runDag execute order list).left ≠ [] ↔
          ∃ text, validateDag list free = .ok (.error text))) := by
  have hruns := runs_runDag execute order list
  refine ⟨fun hgood => ?_, fun hids => ?_⟩
  · have hsound := (validateDag_eq_ok_iff hfree).mp hgood
    exact hruns.runsAll hsound.distinct (hruns.left_eq_nil hsound.distinct hsound)
  · obtain ⟨verdict, hverdict, hsound⟩ := validateDag_verdict list hfree
    rw [ne_eq, hruns.left_eq_nil_iff hids, ← hsound, hverdict]
    cases verdict with
    | ok => simp
    | error text => simp

/-- A set that is iterated backwards. -/
def reverseOrder : StepOrder where
  yields _ ids := ids.reverse
  perm _ ids := ids.reverse_perm

/-- A step, one that depends on it, and one that depends on itself when asked to. -/
def chainSteps (loop : Bool) : List SwarmStep :=
  let config : AgentAdapterConfig := ⟨"agent", "test", none, none, [], none, none⟩
  [⟨"b", config, ["a"]⟩, ⟨"a", config, []⟩, ⟨"c", config, if loop then ["c"] else []⟩]

/-- The process of one step panics. -/
def panicsAt (id : String) (step : SwarmStep) : Except Unit Nat :=
  if step.id = id then .error () else .ok step.dependsOn.length

theorem runDag_exact_chain :
    RunsAll (panicsAt "a") (chainSteps false)
        (runDag (panicsAt "a") reverseOrder (chainSteps false)) ∧
      (runDag (panicsAt "a") reverseOrder (chainSteps true)).left ≠ [] :=
  ⟨(runDag_exact (panicsAt "a") reverseOrder (chainSteps false)
      (List.Perm.refl (freeSteps (dagTables (chainSteps false))))).1 (by decide +kernel),
    ((runDag_exact (panicsAt "a") reverseOrder (chainSteps true)
      (List.Perm.refl (freeSteps (dagTables (chainSteps true))))).2 (by decide)).mpr
      ⟨"DAG contains a cycle", by decide +kernel⟩⟩

/-- The step whose process panics was accepted and run, and has no result. -/
theorem not_reported_panicked :
    validateDag (chainSteps false) (freeSteps (dagTables (chainSteps false))) = .ok (.ok ()) ∧
      (runDag (panicsAt "a") reverseOrder (chainSteps false)).rounds = [["a", "c"], ["b"]] ∧
      (runDag (panicsAt "a") reverseOrder (chainSteps false)).results =
        [⟨"c", 0⟩, ⟨"b", 1⟩] := by
  decide +kernel

end SwarmDag

end Zeptobeam
