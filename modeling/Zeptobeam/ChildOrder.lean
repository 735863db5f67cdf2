/-
The order of children.  Whatever a strategy takes out of the list and puts back, the children
stay in the order of the start, and who is missing has left by its policy.
-/
import Zeptobeam.RestartPolicy
import Mathlib.Data.List.InsertIdx

namespace Zeptobeam

namespace Supervisor

variable {B S H : Type}

/-- The specs of the children on record. -/
def specs (sup : Supervisor B) : List (ChildSpec B) :=
  sup.children.map RunningChild.spec

/-- The children are some of those of the start, in that order. -/
structure InOrder (spec : SupervisorSpec B) (sup : Supervisor B) : Prop where
  specs : sup.specs.Sublist spec.children
  ids : (sup.children.map RunningChild.id).Sublist (spec.children.map ChildSpec.id)
  distinct : (spec.children.map ChildSpec.id).Nodup →
    (sup.children.map RunningChild.id).Nodup

/-- All children are still there, or the one that ended has left for good. -/
def LeavesByPolicy (sup sup' : Supervisor B) (pid : AgentPid) (reason : Reason) : Prop :=
  sup'.specs = sup.specs ∨ ∃ i child, sup.children[i]? = some child ∧ child.pid = pid ∧
    child.spec.restart.EndsForGood reason ∧ sup'.children = sup.children.eraseIdx i

variable {agents : BehaviorCode (Supervised B S H)} {sup sup' : Supervisor B}
  {s s' : AgentScheduler (Supervised B S H)}
  {terminate : AgentScheduler (Supervised B S H) → AgentPid → Reason →
    Option (AgentScheduler (Supervised B S H))}

/-! ## Children that are started -/

theorem specs_startChildren {specs : List (ChildSpec B)} {children : List (RunningChild B)}
    (h : startChildren agents specs s = (.ok children, s')) :
    children.map RunningChild.spec = specs := by
  induction specs generalizing s children with
  | nil =>
      obtain rfl := Except.ok.inj (Prod.mk.inj h).1
      rfl
  | cons spec rest ih =>
      unfold startChildren at h
      split at h
      · cases h
      · dsimp only at h
        split at h
        · cases h
        · rename_i others last hothers
          obtain ⟨hanswer, rfl⟩ := Prod.mk.inj h
          rw [← Except.ok.inj hanswer, List.map_cons, ih hothers]

theorem spec_spawnOf {spec : ChildSpec B}
    (hinit : ∃ state, agents.init spec.behavior spec.args = .ok state) :
    ∃ running, (spawnOf agents s spec).1 = some running ∧ running.spec = spec := by
  rcases spawnOf_cases agents s spec with ⟨reason, hfailed, _⟩ | ⟨running, s', _, hspawn, hstarted⟩
  · obtain ⟨state, hstate⟩ := hinit
    rw [hstate] at hfailed
    contradiction
  · refine ⟨running, by rw [hspawn], ?_⟩
    rw [hstarted.running]

/-- Children that can all be started again come back in their order. -/
theorem specs_respawnAll (children : List (RunningChild B))
    (hinit : ∀ child ∈ children, ∃ state,
      agents.init child.spec.behavior child.spec.args = .ok state) :
    ((respawnAll agents children s).1.map Prod.snd).map RunningChild.spec =
      children.map RunningChild.spec := by
  induction children generalizing s with
  | nil => rfl
  | cons child rest ih =>
      obtain ⟨running, hrunning, hspec⟩ := spec_spawnOf (s := s) (hinit child List.mem_cons_self)
      unfold respawnAll
      cases hspawn : spawnOf agents s child.spec with
      | mk answer next =>
          rw [hspawn] at hrunning
          obtain rfl := hrunning
          rw [List.map_cons, List.map_cons, List.map_cons, hspec,
            ih fun other hother => hinit other (List.mem_cons_of_mem child hother)]

/-! ## One exit -/

/-- Children that are taken off the end and started again. -/
theorem specs_of_respawn {kept again : List (RunningChild B)} {dead : AgentPid}
    {ends : List (RunningChild B)}
    (hinit : ∀ child ∈ again, ∃ state,
      agents.init child.spec.behavior child.spec.args = .ok state)
    (hrun : AgentScheduler.runProg (AgentScheduler.perform agents terminate)
      (terminateSiblings dead ends (respawn { sup with children := kept } again)) s =
        some (sup', s')) :
    sup'.specs = (kept ++ again).map RunningChild.spec := by
  rw [runProg_terminateSiblings, Option.bind_eq_some_iff] at hrun
  obtain ⟨ended, -, hrespawn⟩ := hrun
  obtain ⟨after, hstarted, -, hchildren, -⟩ :=
    runProg_respawn agents terminate { sup with children := kept } again ended
  rw [hstarted] at hrespawn
  obtain ⟨rfl, -⟩ := Prod.mk.inj (Option.some.inj hrespawn)
  rw [specs, hchildren, List.map_append, List.map_append, specs_respawnAll again hinit]

/-- The one child that is started again comes back to its place. -/
theorem specs_restartOne {i : Nat} {dead : RunningChild B}
    (hfound : sup.children[i]? = some dead)
    (hinit : ∃ state, agents.init dead.spec.behavior dead.spec.args = .ok state)
    (hrun : AgentScheduler.runProg (AgentScheduler.perform agents terminate)
      (sup.restartOne i dead) s = some (sup', s')) : sup'.specs = sup.specs := by
  obtain ⟨hi, hdead⟩ := List.getElem?_eq_some_iff.mp hfound
  obtain ⟨running, hrunning, hspec⟩ := spec_spawnOf (s := s) hinit
  unfold restartOne at hrun
  rw [runProg_spawnChild, hrunning] at hrun
  obtain ⟨rfl, -⟩ := Prod.mk.inj (Option.some.inj hrun)
  have hlength : i < (sup.children.map RunningChild.spec).length := by
    rwa [List.length_map]
  have hplace : running.spec = (sup.children.map RunningChild.spec)[i] := by
    rw [List.getElem_map, hdead, hspec]
  change ((sup.children.eraseIdx i).insertIdx i running).map RunningChild.spec = _
  rw [List.map_insertIdx, ← List.eraseIdx_map, hplace, List.insertIdx_eraseIdx_getElem, specs]

theorem specs_restart {i : Nat} {dead : RunningChild B}
    (hfound : sup.children[i]? = some dead)
    (hinit : ∀ child ∈ sup.children, ∃ state,
      agents.init child.spec.behavior child.spec.args = .ok state)
    (hrun : AgentScheduler.runProg (AgentScheduler.perform agents terminate)
      (sup.restart i dead) s = some (sup', s')) : sup'.specs = sup.specs := by
  unfold restart at hrun
  cases hstrategy : sup.strategy with
  | oneForOne =>
      rw [hstrategy] at hrun
      exact specs_restartOne hfound (hinit dead (List.mem_of_getElem? hfound)) hrun
  | oneForAll =>
      rw [hstrategy] at hrun
      exact specs_of_respawn hinit hrun
  | restForOne =>
      rw [hstrategy] at hrun
      have hrest := specs_of_respawn (fun child hchild => hinit child (List.mem_of_mem_drop hchild))
        hrun
      rwa [List.take_append_drop] at hrest

/-- What an exit leaves of the children, whatever the strategy. -/
theorem leavesByPolicy_of_exit {pid : AgentPid} {reason : Reason}
    {relations : AgentPid → Option Relations}
    (hinit : ∀ child ∈ sup.children, ∃ state,
      agents.init child.spec.behavior child.spec.args = .ok state)
    (hrun : AgentScheduler.runProg (AgentScheduler.perform agents terminate)
      (sup.handleChildExit pid reason relations) s = some (sup', s')) :
    LeavesByPolicy sup sup' pid reason := by
  have hdone : ∀ {ended : Supervisor B}, AgentScheduler.runProg
      (AgentScheduler.perform agents terminate) (.done ended) s = some (sup', s') →
      ended = sup' := fun hended => (Prod.mk.inj (Option.some.inj hended)).1
  unfold handleChildExit at hrun
  split at hrun
  · exact .inl (congrArg specs (hdone hrun)).symm
  · split at hrun
    · exact .inl (congrArg specs (hdone hrun)).symm
    · rename_i i hfinds
      obtain ⟨hi, hpid, -⟩ := List.findIdx?_eq_some_iff_getElem.mp hfinds
      have hfound : sup.children[i]? = some sup.children[i] := List.getElem?_eq_getElem hi
      rw [hfound] at hrun
      dsimp only at hrun
      split at hrun
      · rename_i hshould
        obtain rfl := hdone hrun
        refine .inr ⟨i, sup.children[i], hfound, by simpa using hpid, ?_, rfl⟩
        exact ChildRestart.endsForGood_iff.mpr (by simpa using hshould)
      · split at hrun
        · exact .inl (congrArg specs (hdone hrun)).symm
        · left
          refine (specs_restart ?_ ?_ hrun).trans rfl
          · exact hfound
          · exact hinit

/-! ## Every run -/

theorem inOrder_of_sublist {spec : SupervisorSpec B} (hspecs : sup.specs.Sublist spec.children)
    (hnamed : ∀ child ∈ sup.children, child.id = child.spec.id) : InOrder spec sup := by
  have hids : (sup.children.map RunningChild.id).Sublist (spec.children.map ChildSpec.id) := by
    have hsame : sup.children.map RunningChild.id = sup.specs.map ChildSpec.id := by
      rw [specs, List.map_map]
      exact List.map_congr_left hnamed
    rw [hsame]
    exact hspecs.map ChildSpec.id
  exact ⟨hspecs, hids, fun hdistinct => hdistinct.sublist hids⟩

theorem specs_of_start {spec : SupervisorSpec B} {clock : Nat → Nat}
    (h : start agents s spec clock = (.ok sup, s')) : sup.specs = spec.children := by
  unfold start at h
  split at h
  · cases h
  · rename_i children last hchildren
    obtain ⟨hanswer, rfl⟩ := Prod.mk.inj h
    rw [← Except.ok.inj hanswer]
    exact specs_startChildren hchildren

theorem LeavesByPolicy.sublist {pid : AgentPid} {reason : Reason}
    (h : LeavesByPolicy sup sup' pid reason) : sup'.specs.Sublist sup.specs := by
  rcases h with hsame | ⟨i, child, -, -, -, hgone⟩
  · rw [hsame]
  · rw [specs, hgone]
    exact (List.eraseIdx_sublist _ _).map RunningChild.spec

theorem specs_sublist_of_exitRun {spec : SupervisorSpec B} {clock : Nat → Nat}
    {Meets : Supervisor B → AgentPid → Reason → Prop} {nextPid : AgentPid}
    (h : ExitRun agents spec clock Meets sup nextPid) : sup.specs.Sublist spec.children := by
  induction h with
  | started s hstart => rw [specs_of_start hstart]
  | exit h fuel s pid reason hmeets hlater hrun ih =>
      exact (leavesByPolicy_of_exit (recorded_of_exitRun h).init hrun).sublist.trans ih

/-- In every sequence of exits the children are some of those of the start in that order, and
whatever exit comes next, a child only leaves by its policy. -/
theorem children_in_order {spec : SupervisorSpec B} {clock : Nat → Nat} {nextPid : AgentPid}
    (h : ExitRun agents spec clock (fun _ _ _ => True) sup nextPid) :
    InOrder spec sup ∧ ∀ fuel (s s' : AgentScheduler (Supervised B S H)) pid reason sup',
      AgentScheduler.runProg (AgentScheduler.perform agents
          (AgentScheduler.terminateProcess (code agents) fuel))
        (sup.handleChildExit pid reason s.relations) s = some (sup', s') →
      LeavesByPolicy sup sup' pid reason := by
  have hrecorded := recorded_of_exitRun h
  refine ⟨inOrder_of_sublist (specs_sublist_of_exitRun h) hrecorded.named, ?_⟩
  intro fuel s s' pid reason sup' hrun
  exact leavesByPolicy_of_exit hrecorded.init hrun

/-- The first of two children dies under OneForAll, and both are there in their order. -/
theorem children_in_order_pair :
    ∃ sup nextPid, ExitRun plainAgents (pairSpec .transient) (fun _ => 0)
        (fun _ _ _ => True) sup nextPid ∧
      sup.children.map RunningChild.pid = [3, 4] ∧ InOrder (pairSpec .transient) sup := by
  have hstart : ExitRun plainAgents (pairSpec .transient) (fun _ => 0)
      (fun _ _ _ => True) _ _ :=
    .started (.new none none false 1 1) rfl
  have hfirst := hstart.exit 3 (.new none none false 3 1) 1 .shutdown trivial (by decide) rfl
  exact ⟨_, _, hfirst, rfl, (children_in_order hfirst).1⟩

/-- Two children of one name. -/
def twinsSpec : SupervisorSpec Unit :=
  { strategy := .oneForOne, maxRestarts := 3, maxSeconds := 1
    children := [⟨"a", (), .null, .permanent, .normal⟩, ⟨"a", (), .null, .permanent, .normal⟩] }

/-- Two children that were given one name are listed under it twice, and a Transient child
leaves after a shutdown, too. -/
theorem not_in_order_twins :
    (∃ sup nextPid, ExitRun (S := Unit) (H := Unit) plainAgents twinsSpec (fun _ => 0)
        (fun _ _ _ => True) sup nextPid ∧ sup.children.map RunningChild.id = ["a", "a"]) ∧
      ∃ sup nextPid sup', ∃ s s' : AgentScheduler (Supervised Unit Unit Unit),
        ExitRun (S := Unit) (H := Unit) plainAgents (pairSpec .transient) (fun _ => 0)
          (fun _ _ _ => True) sup nextPid ∧
        AgentScheduler.runProg (AgentScheduler.perform plainAgents
            (AgentScheduler.terminateProcess (code plainAgents) 3))
          (sup.handleChildExit 2 .shutdown s.relations) s = some (sup', s') ∧
        sup.children.map RunningChild.id = ["a", "b"] ∧
        sup'.children.map RunningChild.id = ["a"] ∧ sup'.shutdown = false := by
  refine ⟨⟨_, _, .started (.new none none false 1 1) rfl, rfl⟩, ?_⟩
  exact ⟨_, _, _, .new none none false 3 1, _, .started (.new none none false 1 1) rfl, rfl, rfl,
    rfl, rfl⟩

end Supervisor

end Zeptobeam
