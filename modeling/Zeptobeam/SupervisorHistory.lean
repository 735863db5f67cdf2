/-
The history of installed supervisors.  Whatever is called on a scheduler whose exit
handlers are supervisors, what each of them sees is a sequence of exits; its children have
pids of their own, and their specs are good for a start.
-/
import Zeptobeam.SupervisorRounds
import Zeptobeam.HandlerRule
import Mathlib.Data.List.Perm.Basic

namespace Zeptobeam

namespace Supervisor

variable {B S H : Type} {agents : BehaviorCode (Supervised B S H)}

/-- What is known of the children on record. -/
structure Recorded (agents : BehaviorCode (Supervised B S H)) (sup : Supervisor B)
    (nextPid : AgentPid) : Prop where
  nodup : (sup.children.map RunningChild.pid).Nodup
  known : ∀ child ∈ sup.children, child.pid < nextPid
  named : ∀ child ∈ sup.children, child.id = child.spec.id
  init : ∀ child ∈ sup.children, ∃ state,
    agents.init child.spec.behavior child.spec.args = .ok state

/-- Nothing is left to do for the pid. -/
def Done (pid : AgentPid) (sup : Supervisor B) : Prop :=
  sup.shutdown = true ∨ ∀ child ∈ sup.children, child.pid ≠ pid

theorem keptChildren_sublist_eraseIdx (sup : Supervisor B) (i : Nat) :
    (sup.keptChildren i).Sublist (sup.children.eraseIdx i) := by
  unfold keptChildren
  split
  · exact List.Sublist.refl _
  · exact List.nil_sublist _
  · rw [List.eraseIdx_eq_take_drop_succ]
    exact List.sublist_append_left _ _

theorem RoundDone.kept_or_new {sup sup' : Supervisor B} {reason : Reason} {i : Nat}
    {child : RunningChild B} {relations : AgentPid → Option Relations}
    {pairs : List (RunningChild B × RunningChild B)}
    (h : RoundDone sup reason i child relations pairs sup') {other : RunningChild B}
    (hother : other ∈ sup'.children) :
    other ∈ sup.keptChildren i ∨ other ∈ pairs.map Prod.snd :=
  List.mem_append.mp (h.children.mem_iff.mp hother)

theorem foldlM_nextPid_le {fuel : Nat} {pids : List AgentPid}
    {s s' : AgentScheduler (Supervised B S H)}
    (h : pids.foldlM (fun s pid =>
      AgentScheduler.terminateProcess (code agents) fuel s pid .shutdown) s = some s') :
    s.nextPid ≤ s'.nextPid := by
  have hallots := GuardedRun.foldlM_keeps pids (fun _ _ _ _ hstep hs =>
    (AgentScheduler.Allots.stableRun (code agents) s).terminateProcess hstep hs) h (.refl s)
  exact hallots.nextPid

namespace Recorded

variable {sup sup' : Supervisor B} {nextPid nextPid' : AgentPid}

theorem of_sublist (h : Recorded agents sup nextPid)
    (hsub : sup'.children.Sublist sup.children) : Recorded agents sup' nextPid where
  nodup := h.nodup.sublist (hsub.map _)
  known child hchild := h.known child (hsub.subset hchild)
  named child hchild := h.named child (hsub.subset hchild)
  init child hchild := h.init child (hsub.subset hchild)

theorem later (h : Recorded agents sup nextPid) (hle : nextPid ≤ nextPid') :
    Recorded agents sup nextPid' where
  nodup := h.nodup
  known child hchild := Nat.lt_of_lt_of_le (h.known child hchild) hle
  named := h.named
  init := h.init

/-- Without the child, nobody is recorded under its pid. -/
theorem pid_ne (h : Recorded agents sup nextPid) {i : Nat} {child other : RunningChild B}
    (hfound : sup.children[i]? = some child) (hother : other ∈ sup.children.eraseIdx i) :
    other.pid ≠ child.pid := by
  intro heq
  obtain ⟨hlt, hget⟩ := List.getElem?_eq_some_iff.mp hfound
  have hperm := (List.getElem_cons_eraseIdx_perm hlt).map RunningChild.pid
  have hnodup := hperm.nodup_iff.mpr h.nodup
  rw [hget, List.map_cons, List.nodup_cons] at hnodup
  exact hnodup.1 (heq ▸ List.mem_map_of_mem hother)

/-- Children that are kept, and others that were started after. -/
theorem join {kept new : List (RunningChild B)} {s s' : AgentScheduler (Supervised B S H)}
    (h : Recorded agents sup nextPid) (hkept : kept.Sublist sup.children)
    (hle : nextPid ≤ s.nextPid) (hnew : StartsSpec agents s new s')
    (hperm : sup'.children.Perm (kept ++ new)) : Recorded agents sup' s'.nextPid := by
  have hmem : ∀ {child}, child ∈ sup'.children → child ∈ sup.children ∨ child ∈ new := by
    intro child hchild
    rcases List.mem_append.mp (hperm.mem_iff.mp hchild) with hold | hstarted
    · exact .inl (hkept.subset hold)
    · exact .inr hstarted
  refine ⟨?_, ?_, ?_, ?_⟩
  · rw [(hperm.map RunningChild.pid).nodup_iff, List.map_append, List.nodup_append]
    refine ⟨h.nodup.sublist (hkept.map _), hnew.nodup, ?_⟩
    intro old hold pid hpid heq
    obtain ⟨child, hchild, rfl⟩ := List.mem_map.mp hold
    obtain ⟨started, hstarted, rfl⟩ := List.mem_map.mp hpid
    have hknown := h.known child (hkept.subset hchild)
    have hfresh := (hnew.fresh started hstarted).1
    rw [← heq] at hfresh
    exact absurd (Nat.lt_of_lt_of_le hknown (Nat.le_trans hle hfresh)) (Nat.lt_irrefl _)
  · intro child hchild
    rcases hmem hchild with hold | hstarted
    · exact Nat.lt_of_lt_of_le (h.known child hold) (Nat.le_trans hle hnew.nextPid)
    · exact (hnew.fresh child hstarted).2
  · intro child hchild
    rcases hmem hchild with hold | hstarted
    · exact h.named child hold
    · exact hnew.named child hstarted
  · intro child hchild
    rcases hmem hchild with hold | hstarted
    · exact h.init child hold
    · exact hnew.init child hstarted

theorem of_start {spec : SupervisorSpec B} {clock : Nat → Nat}
    {s s' : AgentScheduler (Supervised B S H)}
    (hstart : start agents s spec clock = (.ok sup, s')) :
    Recorded agents sup s'.nextPid := by
  obtain ⟨children, hstarts, rfl⟩ := Supervisor.of_start hstart
  have hfacts := hstarts.facts
  exact ⟨hfacts.nodup, fun child hchild => (hfacts.fresh child hchild).2, hfacts.named,
    hfacts.init⟩

theorem handled {fuel : Nat} {pid : AgentPid} {reason : Reason}
    {relations : AgentPid → Option Relations} {s s' : AgentScheduler (Supervised B S H)}
    (h : Recorded agents sup s.nextPid)
    (hhandled : Handled agents (AgentScheduler.terminateProcess (code agents) fuel) sup pid
      reason relations s sup' s') :
    Recorded agents sup' s'.nextPid ∧ Done pid sup' := by
  cases hhandled with
  | idle hidle => exact ⟨h, hidle⟩
  | @dropped i child hfinds hshould =>
      refine ⟨h.of_sublist (List.eraseIdx_sublist _ _), .inr ?_⟩
      intro other hother
      rw [← hfinds.pid]
      exact h.pid_ne hfinds.found hother
  | exceeded => exact ⟨h.of_sublist (List.Sublist.refl _), .inl rfl⟩
  | @round i child hrestarts hwithin ended _ hended hdone =>
      have hwas : s.nextPid ≤ ended.nextPid := foldlM_nextPid_le hended
      have hnew := (starts_respawnAll agents (sup.restartees i child) ended).facts
      refine ⟨h.join (sup.keptChildren_sublist i) hwas hnew hdone.children, .inr ?_⟩
      intro other hother
      rw [← hrestarts.pid]
      rcases hdone.kept_or_new hother with hkept | hstarted
      · exact h.pid_ne hrestarts.found ((sup.keptChildren_sublist_eraseIdx i).subset hkept)
      · have hknown := h.known child (List.mem_of_getElem? hrestarts.found)
        have hfresh := (hnew.fresh other hstarted).1
        exact Nat.ne_of_gt (Nat.lt_of_lt_of_le hknown (Nat.le_trans hwas hfresh))

end Recorded

theorem recorded_of_exitRun {spec : SupervisorSpec B} {clock : Nat → Nat}
    {Meets : Supervisor B → AgentPid → Reason → Prop} {sup : Supervisor B}
    {nextPid : AgentPid} (h : ExitRun agents spec clock Meets sup nextPid) :
    Recorded agents sup nextPid := by
  induction h with
  | started s hstart => exact Recorded.of_start hstart
  | exit h fuel s pid reason hmeets hlater hrun ih =>
      exact ((ih.later hlater).handled (handled_of_runProg hrun)).1

/-! ## Schedulers under supervisors -/

/-- What a scheduler reaches whose exit handlers are supervisors, each installed by
`startLinked`; all other calls are free. -/
inductive SupervisedRun (agents : BehaviorCode (Supervised B S H)) :
    AgentScheduler (Supervised B S H) → Prop where
  | new (bridge : Option Bridge) (messageHook : Option H) (routing : Bool)
      (nextPid nextMonitorRef : Nat) :
      SupervisedRun agents (.new bridge messageHook routing nextPid nextMonitorRef)
  | startLinked {s : AgentScheduler (Supervised B S H)} (h : SupervisedRun agents s)
      (spec : SupervisorSpec B) (clock : Nat → Nat) :
      SupervisedRun agents (startLinked agents s spec clock)
  | step {s s' : AgentScheduler (Supervised B S H)} (h : SupervisedRun agents s)
      (fuel : Nat) (op : RunOp (Supervised B S H))
      (hop : ∀ handler, op ≠ .call (.addExitHandler handler))
      (hstep : s.step (code agents) fuel op = some s') : SupervisedRun agents s'

theorem SupervisedRun.run {s s' : AgentScheduler (Supervised B S H)}
    (h : SupervisedRun agents s) {ops : List (Nat × RunOp (Supervised B S H))}
    (hops : ∀ op ∈ ops, ∀ handler, op.2 ≠ .call (.addExitHandler handler))
    (hrun : s.run (code agents) ops = some s') : SupervisedRun agents s' :=
  GuardedRun.foldlM_keeps ops (fun _ op _ hop hstep h => h.step op.1 op.2 (hops op hop) hstep)
    hrun h

/-- The supervisor came to its present state by a sequence of exits. -/
def Founded (agents : BehaviorCode (Supervised B S H)) (nextPid : AgentPid)
    (sup : Supervisor B) : Prop :=
  ∃ spec clock before, before ≤ nextPid ∧
    ExitRun agents spec clock (fun _ _ _ => True) sup before

namespace Founded

variable {sup sup' : Supervisor B} {nextPid nextPid' : AgentPid}

theorem later (h : Founded agents nextPid sup) (hle : nextPid ≤ nextPid') :
    Founded agents nextPid' sup := by
  obtain ⟨spec, clock, before, hbefore, hrun⟩ := h
  exact ⟨spec, clock, before, Nat.le_trans hbefore hle, hrun⟩

theorem recorded (h : Founded agents nextPid sup) : Recorded agents sup nextPid := by
  obtain ⟨spec, clock, before, hbefore, hrun⟩ := h
  exact (recorded_of_exitRun hrun).later hbefore

/-- The run of an installed supervisor for one exit. -/
theorem exit {fuel : Nat} {pid : AgentPid} {reason : Reason}
    {s s' : AgentScheduler (Supervised B S H)} (h : Founded agents s.nextPid sup)
    (hrun : AgentScheduler.runProg (AgentScheduler.perform agents
      (AgentScheduler.terminateProcess (code agents) fuel))
      (sup.handleChildExit pid reason s.relations) s = some (sup', s')) :
    Founded agents s'.nextPid sup' ∧ Done pid sup' ∧ s.nextPid ≤ s'.nextPid := by
  have hhandled := handled_of_runProg hrun
  have hdone := (h.recorded.handled hhandled).2
  obtain ⟨spec, clock, before, hbefore, hexits⟩ := h
  refine ⟨⟨spec, clock, s'.nextPid, Nat.le_refl _,
    hexits.exit fuel s pid reason trivial hbefore hrun⟩, hdone, ?_⟩
  cases hhandled with
  | idle => exact Nat.le_refl _
  | dropped => exact Nat.le_refl _
  | exceeded => exact Nat.le_refl _
  | @round i child _ _ ended _ hended _ =>
      have hnew := (starts_respawnAll agents (sup.restartees i child) ended).facts
      exact Nat.le_trans (foldlM_nextPid_le hended) hnew.nextPid

end Founded

/-- The handlers stay out while a supervisor runs. -/
theorem Handled.exitHandlers {fuel : Nat} {sup sup' : Supervisor B} {pid : AgentPid}
    {reason : Reason} {relations : AgentPid → Option Relations}
    {s s' : AgentScheduler (Supervised B S H)}
    (h : Handled agents (AgentScheduler.terminateProcess (code agents) fuel) sup pid
      reason relations s sup' s') (hout : s.exitHandlers = []) : s'.exitHandlers = [] := by
  cases h with
  | idle => exact hout
  | dropped => exact hout
  | exceeded => exact hout
  | @round i child _ _ ended _ hended _ =>
      have hnew := (starts_respawnAll agents (sup.restartees i child) ended).facts
      exact hnew.exitHandlers.trans (AgentScheduler.reduced_foldlM hout hended).1

/-- Among others, one was replaced. -/
theorem mem_of_replaced {α : Type} {first rest : List α} {old new x : α}
    (h : x ∈ first ++ new :: rest) : x = new ∨ x ∈ first ++ old :: rest := by
  simp only [List.mem_append, List.mem_cons] at h ⊢
  rcases h with hbefore | rfl | hafter
  · exact .inr (.inl hbefore)
  · exact .inl rfl
  · exact .inr (.inr (.inr hafter))

/-- All supervisors in place are founded. -/
def AllFounded (agents : BehaviorCode (Supervised B S H))
    (handlers : List (Nat × Supervisor B)) (s : AgentScheduler (Supervised B S H)) : Prop :=
  ∀ entry ∈ handlers, Founded agents s.nextPid entry.2

theorem AllFounded.later {handlers : List (Nat × Supervisor B)}
    {s s' : AgentScheduler (Supervised B S H)} (h : AllFounded agents handlers s)
    (hle : s.nextPid ≤ s'.nextPid) : AllFounded agents handlers s' :=
  fun entry hentry => (h entry hentry).later hle

/-- One supervisor in place has run. -/
theorem AllFounded.exit {first rest : List (Nat × Supervisor B)} {id fuel : Nat}
    {sup sup' : Supervisor B} {pid : AgentPid} {reason : Reason}
    {s s' : AgentScheduler (Supervised B S H)}
    (h : AllFounded agents (first ++ (id, sup) :: rest) s)
    (hrun : AgentScheduler.runProg (AgentScheduler.perform agents
      (AgentScheduler.terminateProcess (code agents) fuel))
      (sup.handleChildExit pid reason s.relations) s = some (sup', s')) :
    AllFounded agents (first ++ (id, sup') :: rest) s' ∧ Done pid sup' := by
  have hmem : (id, sup) ∈ first ++ (id, sup) :: rest :=
    List.mem_append_right _ List.mem_cons_self
  obtain ⟨hfounded, hdone, hle⟩ := (h _ hmem).exit hrun
  refine ⟨?_, hdone⟩
  intro entry hentry
  rcases mem_of_replaced hentry with rfl | hentry
  · exact hfounded
  · exact h.later hle entry hentry

theorem handlerRule_founded (agents : BehaviorCode (Supervised B S H)) (reason : Reason) :
    AgentScheduler.HandlerRule (code agents) reason (fun _ => True) Done
      (fun _ => AllFounded agents) where
  down {_ _ s pid} _ h := h.later (Nat.le_of_eq (AgentScheduler.nextPid_takeDown _ s pid _).symm)
  cascade _ _ _ _ := trivial
  aside _ _ h := h
  invoked _ _ h := h
  handler _ hout h hrun := by
    obtain ⟨hfounded, hdone⟩ := h.exit hrun
    exact ⟨(handled_of_runProg hrun).exitHandlers hout, hdone, hfounded⟩
  handled _ h := h
  finish {_ _ s} pid h := by
    obtain ⟨bridge, pendingDestroys, metrics, hfinish⟩ :=
      AgentScheduler.finishTermination_cases s pid
    rw [hfinish]
    exact h

theorem nextPid_le_of_move {s s' : AgentScheduler (Supervised B S H)}
    (h : AgentScheduler.Move agents s s') : s.nextPid ≤ s'.nextPid := by
  rcases h.live_or_spawn with ⟨_, hle⟩ | ⟨behavior, args, rfl⟩
  · exact hle
  · rcases AgentScheduler.spawn_cases agents s behavior args with ⟨_, h⟩ | ⟨_, _, h, _⟩
    · rw [h]
      exact Nat.le_succ _
    · rw [h]
      exact Nat.le_succ _

theorem AllFounded.startLinked {s : AgentScheduler (Supervised B S H)}
    (h : AllFounded agents s.exitHandlers s) (spec : SupervisorSpec B) (clock : Nat → Nat) :
    AllFounded agents (startLinked agents s spec clock).exitHandlers
      (startLinked agents s spec clock) := by
  rcases startLinked_cases agents s spec clock with ⟨children, hstarts⟩ |
    ⟨sup, s', hstart, hlinked⟩
  · have hfacts := hstarts.facts
    rw [hfacts.exitHandlers]
    exact h.later hfacts.nextPid
  · obtain ⟨children, hstarts, _⟩ := of_start hstart
    have hfacts := hstarts.facts
    rw [hlinked]
    intro entry hentry
    rcases List.mem_append.mp hentry with hold | hnew
    · rw [hfacts.exitHandlers] at hold
      exact h.later hfacts.nextPid entry hold
    · rw [List.mem_singleton.mp hnew]
      exact ⟨spec, clock, s'.nextPid, Nat.le_refl _, .started s hstart⟩

/-- Every installed supervisor sees a sequence of exits. -/
theorem SupervisedRun.allFounded {s : AgentScheduler (Supervised B S H)}
    (h : SupervisedRun agents s) : AllFounded agents s.exitHandlers s := by
  induction h with
  | new => exact fun entry hentry => absurd hentry List.not_mem_nil
  | startLinked h spec clock ih => exact ih.startLinked spec clock
  | step h fuel op hop hstep ih =>
      exact AgentScheduler.HandlerRule.step (handlerRule_founded agents)
        (fun hmove h => h.later (nextPid_le_of_move hmove)) hop hstep ih

end Supervisor

end Zeptobeam
