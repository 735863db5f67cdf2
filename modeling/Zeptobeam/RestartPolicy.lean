/-
The restart policies of children.  As long as no round starts a Temporary sibling again,
no Temporary child is ever started again, and neither is a Transient child that ended
normally.
-/
import Zeptobeam.SupervisorHistory

namespace Zeptobeam

/-- By its policy the child is not to be started again after such an exit. -/
def ChildRestart.EndsForGood (restart : ChildRestart) (reason : Reason) : Prop :=
  restart = .temporary ∨ restart = .transient ∧ (reason = .normal ∨ reason = .shutdown)

theorem ChildRestart.endsForGood_iff {restart : ChildRestart} {reason : Reason} :
    restart.EndsForGood reason ↔ restart.shouldRestart reason = false := by
  cases restart with
  | permanent => simp [EndsForGood, shouldRestart]
  | transient => cases reason <;> simp [EndsForGood, shouldRestart]
  | temporary => simp [EndsForGood, shouldRestart]

namespace Supervisor

variable {B S H : Type}

/-- A child that ended for good is not started again later in the log. -/
def LeavesEnded : SupervisorEvent B → SupervisorEvent B → Prop
  | .exited child reason, .restarted again _ =>
      child.spec.restart.EndsForGood reason → again.pid ≠ child.pid
  | _, _ => True

/-- What a log under the restart policies looks like. -/
structure Respectful (log : List (SupervisorEvent B)) : Prop where
  temporary : ∀ child pid, .restarted child pid ∈ log → child.spec.restart ≠ .temporary
  ended : log.Pairwise LeavesEnded

/-- If the exit makes a round, no child that it starts again is Temporary. -/
def Sparing (sup : Supervisor B) (pid : AgentPid) (reason : Reason) : Prop :=
  ∀ i child, sup.Restarts pid reason i child → sup.exceedsMaxRestarts.1 = false →
    ∀ again ∈ sup.restartees i child, again.spec.restart ≠ .temporary

/-- What is known of a supervisor while exits are reported to it: nobody who ended for good
is among its children. -/
structure Orderly (agents : BehaviorCode (Supervised B S H)) (sup : Supervisor B)
    (nextPid : AgentPid) : Prop extends Recorded agents sup nextPid where
  gone : ∀ child reason, .exited child reason ∈ sup.log →
    child.spec.restart.EndsForGood reason →
      child.pid < nextPid ∧ ∀ other ∈ sup.children, other.pid ≠ child.pid
  respectful : Respectful sup.log

theorem Respectful.append_quiet {log events : List (SupervisorEvent B)} (h : Respectful log)
    (hquiet : ∀ child pid, .restarted child pid ∉ events) : Respectful (log ++ events) := by
  have hleaves : ∀ first, ∀ second ∈ events, LeavesEnded first second := by
    intro first second hsecond
    cases second with
    | restarted child pid => exact absurd hsecond (hquiet child pid)
    | _ => cases first <;> trivial
  refine ⟨?_, ?_⟩
  · intro child pid hmem
    rcases List.mem_append.mp hmem with hmem | hmem
    · exact h.temporary child pid hmem
    · exact absurd hmem (hquiet child pid)
  · rw [List.pairwise_append]
    refine ⟨h.ended, ?_, fun first _ => hleaves first⟩
    exact List.pairwise_of_forall_mem_list fun first _ => hleaves first

theorem Respectful.append_restarts {log : List (SupervisorEvent B)} (h : Respectful log)
    {pairs : List (RunningChild B × RunningChild B)}
    (hpolicy : ∀ pair ∈ pairs, pair.1.spec.restart ≠ .temporary)
    (hgone : ∀ child reason, .exited child reason ∈ log →
      child.spec.restart.EndsForGood reason → ∀ pair ∈ pairs, pair.1.pid ≠ child.pid) :
    Respectful (log ++ restartEvents pairs) := by
  refine ⟨?_, ?_⟩
  · intro child pid hmem
    rcases List.mem_append.mp hmem with hmem | hmem
    · exact h.temporary child pid hmem
    · obtain ⟨pair, hpair, heq⟩ := List.mem_map.mp hmem
      rw [SupervisorEvent.restarted.injEq] at heq
      exact heq.1 ▸ hpolicy pair hpair
  · rw [List.pairwise_append]
    refine ⟨h.ended, ?_, ?_⟩
    · apply List.pairwise_of_forall_mem_list
      intro first hfirst second _
      obtain ⟨pair, _, rfl⟩ := List.mem_map.mp hfirst
      trivial
    · intro first hfirst second hsecond
      obtain ⟨pair, hpair, rfl⟩ := List.mem_map.mp hsecond
      cases first with
      | exited child reason => exact fun hends => hgone child reason hfirst hends pair hpair
      | _ => trivial

theorem orderly_of_start {agents : BehaviorCode (Supervised B S H)}
    {spec : SupervisorSpec B} {clock : Nat → Nat} {s s' : AgentScheduler (Supervised B S H)}
    {sup : Supervisor B} (hstart : start agents s spec clock = (.ok sup, s')) :
    Orderly agents sup s'.nextPid := by
  have hrecorded := Recorded.of_start hstart
  obtain ⟨children, _, rfl⟩ := of_start hstart
  refine ⟨hrecorded, ?_, ?_, .nil⟩
  · intro child reason hmem
    exact absurd hmem List.not_mem_nil
  · intro child pid hmem
    exact absurd hmem List.not_mem_nil

theorem Orderly.later {agents : BehaviorCode (Supervised B S H)} {sup : Supervisor B}
    {nextPid nextPid' : AgentPid} (h : Orderly agents sup nextPid)
    (hle : nextPid ≤ nextPid') : Orderly agents sup nextPid' := by
  refine ⟨h.toRecorded.later hle, ?_, h.respectful⟩
  intro child reason hmem hends
  exact (h.gone child reason hmem hends).imp_left fun hlt => Nat.lt_of_lt_of_le hlt hle

theorem Orderly.handled {agents : BehaviorCode (Supervised B S H)} {fuel : Nat}
    {sup sup' : Supervisor B} {pid : AgentPid} {reason : Reason}
    {relations : AgentPid → Option Relations} {s s' : AgentScheduler (Supervised B S H)}
    (h : Orderly agents sup s.nextPid) (hsparing : Sparing sup pid reason)
    (hhandled : Handled agents (AgentScheduler.terminateProcess (code agents) fuel) sup pid
      reason relations s sup' s') :
    Orderly agents sup' s'.nextPid := by
  have hrecorded := (h.toRecorded.handled hhandled).1
  cases hhandled with
  | idle => exact h
  | @dropped i child hfinds hshould =>
      have hsub := List.eraseIdx_sublist sup.children i
      refine ⟨hrecorded, ?_, h.respectful.append_quiet (by simp)⟩
      intro former reason' hexited hends
      rcases List.mem_append.mp hexited with hexited | hexited
      · obtain ⟨hlt, hother⟩ := h.gone former reason' hexited hends
        exact ⟨hlt, fun other hmem => hother other (hsub.subset hmem)⟩
      · obtain ⟨rfl, rfl⟩ : former = child ∧ reason' = reason := by simpa using hexited
        exact ⟨h.known former (List.mem_of_getElem? hfinds.found),
          fun other hother => h.pid_ne hfinds.found hother⟩
  | @exceeded i child hrestarts hexceeds =>
      refine ⟨hrecorded, ?_, h.respectful.append_quiet (by simp)⟩
      intro former reason' hexited hends
      rcases List.mem_append.mp hexited with hexited | hexited
      · exact h.gone former reason' hexited hends
      · obtain ⟨rfl, rfl⟩ : former = child ∧ reason' = reason := by simpa using hexited
        rw [ChildRestart.endsForGood_iff, hrestarts.should] at hends
        contradiction
  | @round i child hrestarts hwithin ended _ hended hdone =>
      have hnew := (starts_respawnAll agents (sup.restartees i child) ended).facts
      have hwas : s.nextPid ≤ ended.nextPid := foldlM_nextPid_le hended
      have hexits : ∀ former reason', .exited former reason' ∈ sup.log ++ [.exited child reason,
          .round (sup.clock 0) (sup.siblings i child) relations] →
          former.spec.restart.EndsForGood reason' → .exited former reason' ∈ sup.log := by
        intro former reason' hexited hends
        rcases List.mem_append.mp hexited with hexited | hexited
        · exact hexited
        · obtain ⟨rfl, rfl⟩ : former = child ∧ reason' = reason := by simpa using hexited
          rw [ChildRestart.endsForGood_iff, hrestarts.should] at hends
          contradiction
      refine ⟨hrecorded, ?_, ?_⟩
      · intro former reason' hexited hends
        rw [hdone.log] at hexited
        have hbefore : .exited former reason' ∈ sup.log := by
          rcases List.mem_append.mp hexited with hexited | hexited
          · exact hexits former reason' hexited hends
          · obtain ⟨pair, _, heq⟩ := List.mem_map.mp hexited
            contradiction
        obtain ⟨hlt, hothers⟩ := h.gone former reason' hbefore hends
        refine ⟨Nat.lt_of_lt_of_le hlt (Nat.le_trans hwas hnew.nextPid), ?_⟩
        intro other hother
        rcases hdone.kept_or_new hother with hkept | hstarted
        · exact hothers other ((sup.keptChildren_sublist i).subset hkept)
        · have hfresh := (hnew.fresh other hstarted).1
          exact Nat.ne_of_gt (Nat.lt_of_lt_of_le hlt (Nat.le_trans hwas hfresh))
      · rw [hdone.log]
        apply (h.respectful.append_quiet (by simp)).append_restarts
        · intro pair hpair
          exact hsparing i child hrestarts hwithin pair.1 (mem_respawnAll hpair)
        · intro former reason' hexited hends pair hpair
          obtain ⟨_, hothers⟩ := h.gone former reason' (hexits former reason' hexited hends) hends
          exact hothers pair.1 (mem_of_mem_restartees hrestarts.found (mem_respawnAll hpair))

theorem orderly_of_exitRun {agents : BehaviorCode (Supervised B S H)}
    {spec : SupervisorSpec B} {clock : Nat → Nat} {sup : Supervisor B} {nextPid : AgentPid}
    (h : ExitRun agents spec clock Sparing sup nextPid) :
    Orderly agents sup nextPid := by
  induction h with
  | started s hstart => exact orderly_of_start hstart
  | exit h fuel s pid reason hmeets hlater hrun ih =>
      exact (ih.later hlater).handled hmeets (handled_of_runProg hrun)

/-- In every sequence of exits whose rounds spare the Temporary siblings: no Temporary child
is started again, and no child that ended for good by its policy is started again after
that. -/
theorem restart_policy {agents : BehaviorCode (Supervised B S H)}
    {spec : SupervisorSpec B} {clock : Nat → Nat} {sup : Supervisor B} {nextPid : AgentPid}
    (h : ExitRun agents spec clock Sparing sup nextPid) : Respectful sup.log :=
  (orderly_of_exitRun h).respectful

theorem sparing_of_none_temporary {sup : Supervisor B}
    (hnone : (sup.children.all fun child => child.spec.restart ≠ .temporary) = true)
    (pid : AgentPid) (reason : Reason) : Sparing sup pid reason := by
  intro i child hrestarts _ again hagain
  have hother := List.all_eq_true.mp hnone again (mem_of_mem_restartees hrestarts.found hagain)
  rwa [decide_eq_true_eq] at hother

/-! ## Two siblings -/

/-- A permanent child and another one under OneForAll. -/
def pairSpec (restart : ChildRestart) : SupervisorSpec Unit :=
  { strategy := .oneForAll, maxRestarts := 3, maxSeconds := 1
    children := [⟨"a", (), .null, .permanent, .normal⟩, ⟨"b", (), .null, restart, .normal⟩] }

/-- A Transient child ends normally, and then its sibling dies: only the sibling comes
back. -/
theorem restart_policy_pair :
    ∃ sup nextPid, ExitRun plainAgents (pairSpec .transient) (fun _ => 0)
        Sparing sup nextPid ∧
      sup.children.map RunningChild.id = ["a"] ∧ Respectful sup.log := by
  have hstart : ExitRun plainAgents (pairSpec .transient) (fun _ => 0)
      Sparing _ _ :=
    .started (.new none none false 1 1) rfl
  have hfirst := hstart.exit 3 (.new none none false 3 1) 2 .normal
    (sparing_of_none_temporary rfl _ _) (by decide) rfl
  have hsecond := hfirst.exit 3 (.new none none false 3 1) 1 .shutdown
    (sparing_of_none_temporary rfl _ _) (by decide) rfl
  exact ⟨_, _, hsecond, rfl, restart_policy hsecond⟩

/-- A Temporary child is ended because its sibling died, and is started again with it. -/
theorem pair_not_respectful :
    ¬ ∀ sup nextPid, ExitRun (S := Unit) (H := Unit) plainAgents (pairSpec .temporary)
      (fun _ => 0) (fun _ _ _ => True) sup nextPid → Respectful sup.log := by
  intro hrespectful
  have hstart : ExitRun plainAgents (pairSpec .temporary) (fun _ => 0)
      (fun _ _ _ => True) _ _ :=
    .started (.new none none false 1 1) rfl
  have hfirst := hstart.exit 3 (.new none none false 3 1) 1 .shutdown trivial (by decide) rfl
  have htemporary := (hrespectful _ _ hfirst).temporary
    ⟨"b", 2, "b", (), .null, .temporary, .normal⟩ 4 (List.mem_of_getElem? (i := 3) rfl)
  exact htemporary rfl

end Supervisor

end Zeptobeam
