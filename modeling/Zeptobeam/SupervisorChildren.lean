/-
The children of supervisors.  A child on record is alive whenever no call is running,
under the spec it was started for, as long as no round of restarts has ended it along
links, or its supervisor has shut down.
-/
import Zeptobeam.SupervisorHistory

namespace Zeptobeam

namespace Supervisor

variable {B S H : Type} {agents : BehaviorCode (Supervised B S H)}

open AgentScheduler (LinkReaches Behaves)

/-- A round that ended the process along links. -/
def Ends : SupervisorEvent B → AgentPid → Prop
  | .round _ ended relations, pid => ∃ root ∈ ended, LinkReaches relations root pid
  | _, _ => False

/-- One of the supervisors has made such a round. -/
def EndedBy (handlers : List (Nat × Supervisor B)) (pid : AgentPid) : Prop :=
  ∃ entry ∈ handlers, ∃ event ∈ entry.2.log, Ends event pid

/-- Each child on record has the behaviour of its spec, and it is alive, or its handlers
are still to run, or it was ended along links. -/
structure Minded (handlers : List (Nat × Supervisor B)) (pending : List AgentPid)
    (sup : Supervisor B) (s : AgentScheduler (Supervised B S H)) : Prop where
  behaves : ∀ child ∈ sup.children, Behaves child.pid child.spec.behavior s
  alive : sup.shutdown = true ∨ ∀ child ∈ sup.children,
    (s.lookup child.pid).isSome ∨ child.pid ∈ pending ∨ EndedBy handlers child.pid

/-- What one exit leaves of a process: it is alive as before, or a round ended it. -/
theorem Handled.survives {fuel : Nat} {sup sup' : Supervisor B} {pid : AgentPid}
    {reason : Reason} {s s' : AgentScheduler (Supervised B S H)}
    (h : Handled agents (AgentScheduler.terminateProcess (code agents) fuel) sup pid
      reason s.relations s sup' s') (hout : s.exitHandlers = []) {q : AgentPid} {behavior : B}
    (hq : Behaves q behavior s) :
    Behaves q behavior s' ∧
      ((s.lookup q).isSome → (s'.lookup q).isSome ∨ ∃ event ∈ sup'.log, Ends event q) := by
  cases h with
  | idle | dropped | exceeded => exact ⟨hq, .inl⟩
  | @round i child hrestarts hwithin ended _ hended hdone =>
      have hnew := (starts_respawnAll agents (sup.restartees i child) ended).facts
      obtain ⟨_, hreduced⟩ := AgentScheduler.reduced_foldlM hout hended
      have hmiddle : Behaves q behavior ended :=
        GuardedRun.foldlM_keeps _ (fun _ _ _ _ hstep hs =>
          (Behaves.stableRun (code agents) _ _).terminateProcess hstep hs) hended hq
      have hsame := hnew.lookup_of_lt hmiddle.1
      refine ⟨hmiddle.congr hsame hnew.nextPid, fun hlive => ?_⟩
      rw [hsame, ← AgentScheduler.isSome_kin]
      rcases hreduced.kin q with hkin | ⟨_, root, hroot, hreaches⟩
      · rw [hkin, AgentScheduler.isSome_kin]
        exact .inl hlive
      · refine .inr ⟨.round (sup.clock 0) (sup.siblings i child) s.relations, ?_, root, hroot,
          hreaches⟩
        rw [hdone.log]
        simp

/-- The log only grows. -/
theorem Handled.log_subset {terminate : AgentScheduler (Supervised B S H) → AgentPid →
      Reason → Option (AgentScheduler (Supervised B S H))} {sup sup' : Supervisor B}
    {pid : AgentPid} {reason : Reason} {relations : AgentPid → Option Relations}
    {s s' : AgentScheduler (Supervised B S H)}
    (h : Handled agents terminate sup pid reason relations s sup' s') :
    sup.log ⊆ sup'.log := by
  cases h with
  | idle => exact List.Subset.refl _
  | dropped => exact List.subset_append_left _ _
  | exceeded => exact List.subset_append_left _ _
  | round hrestarts hwithin hended hdone =>
      rw [hdone.log, List.append_assoc]
      exact List.subset_append_left _ _

namespace Minded

variable {handlers handlers' : List (Nat × Supervisor B)} {sup sup' : Supervisor B}
  {pending : List AgentPid} {s s' : AgentScheduler (Supervised B S H)}

theorem congr (h : Minded handlers pending sup s) (hlookup : ∀ q, s'.lookup q = s.lookup q)
    (hnextPid : s.nextPid ≤ s'.nextPid) : Minded handlers pending sup s' where
  behaves child hchild := (h.behaves child hchild).congr (hlookup child.pid) hnextPid
  alive := by
    simp only [hlookup]
    exact h.alive

theorem handlers_mono (h : Minded handlers pending sup s)
    (hmono : ∀ pid, EndedBy handlers pid → EndedBy handlers' pid) :
    Minded handlers' pending sup s where
  behaves := h.behaves
  alive := h.alive.imp_right fun halive child hchild =>
    (halive child hchild).imp_right fun hrest => hrest.imp_right (hmono child.pid)

theorem starts (h : Minded handlers pending sup s) {children : List (RunningChild B)}
    (hstarts : StartsSpec agents s children s') : Minded handlers pending sup s' := by
  have hsame : ∀ child ∈ sup.children, s'.lookup child.pid = s.lookup child.pid :=
    fun child hchild => hstarts.lookup_of_lt (h.behaves child hchild).1
  refine ⟨fun child hchild => (h.behaves child hchild).congr (hsame child hchild)
    hstarts.nextPid, ?_⟩
  refine h.alive.imp_right fun halive child hchild => ?_
  rw [hsame child hchild]
  exact halive child hchild

theorem move (h : Minded handlers pending sup s) (hmove : AgentScheduler.Move agents s s') :
    Minded handlers pending sup s' := by
  refine ⟨fun child hchild => Behaves.stable agents _ _ hmove (h.behaves child hchild), ?_⟩
  refine h.alive.imp_right fun halive child hchild => ?_
  refine (halive child hchild).imp_left fun hlive => ?_
  rcases hmove.live_or_spawn with ⟨hsame, _⟩ | ⟨behavior, args, rfl⟩
  · rw [hsame]
    exact hlive
  · rcases AgentScheduler.spawn_cases agents s behavior args with ⟨_, hspawn⟩ |
      ⟨registry, _, hspawn, hlookup⟩
    · rw [hspawn]
      exact hlive
    · rw [hspawn]
      change (registry.lookup child.pid).isSome
      rw [hlookup, if_neg (Nat.ne_of_lt (h.behaves child hchild).1)]
      exact hlive

/-- A process is taken down; its handlers are still to run. -/
theorem takeDown (h : Minded handlers pending sup s) (pid : AgentPid) (reason : Reason) :
    Minded handlers (pid :: pending) sup (s.takeDown agents pid reason).2 := by
  refine ⟨fun child hchild =>
    (Behaves.stableRun (code agents) _ _).takeDown pid reason (h.behaves child hchild), ?_⟩
  refine h.alive.imp_right fun halive child hchild => ?_
  rw [← AgentScheduler.isSome_kin, AgentScheduler.kin_takeDown]
  by_cases hpid : child.pid = pid
  · exact .inr (.inl (hpid ▸ List.mem_cons_self))
  · rw [if_neg hpid, AgentScheduler.isSome_kin]
    exact (halive child hchild).imp_right fun hrest =>
      hrest.imp_left (List.mem_cons_of_mem pid)

/-- The supervisor has nothing left to do for the pid. -/
theorem drop {pid : AgentPid} (h : Minded handlers (pid :: pending) sup s)
    (hdone : Done pid sup) : Minded handlers pending sup s := by
  refine ⟨h.behaves, ?_⟩
  rcases hdone with hshutdown | hnone
  · exact .inl hshutdown
  · refine h.alive.imp_right fun halive child hchild => ?_
    refine (halive child hchild).imp_right fun hrest => hrest.imp_left fun hmem => ?_
    exact (List.mem_cons.mp hmem).resolve_left (hnone child hchild)

/-- Another supervisor, or this one without its own new children, after one exit. -/
theorem exit {fuel : Nat} {other other' : Supervisor B} {pid : AgentPid} {reason : Reason}
    (h : Minded handlers pending sup s) (hout : s.exitHandlers = [])
    (hhandled : Handled agents (AgentScheduler.terminateProcess (code agents) fuel) other pid
      reason s.relations s other' s')
    (hmono : ∀ pid, EndedBy handlers pid → EndedBy handlers' pid)
    (hlog : ∀ event ∈ other'.log, ∀ pid, Ends event pid → EndedBy handlers' pid) :
    Minded handlers' pending sup s' := by
  refine ⟨fun child hchild => (hhandled.survives hout (h.behaves child hchild)).1, ?_⟩
  refine h.alive.imp_right fun halive child hchild => ?_
  rcases halive child hchild with hlive | hpending | hended
  · rcases (hhandled.survives hout (h.behaves child hchild)).2 hlive with
      hstill | ⟨event, hevent, hends⟩
    · exact .inl hstill
    · exact .inr (.inr (hlog event hevent child.pid hends))
  · exact .inr (.inl hpending)
  · exact .inr (.inr (hmono child.pid hended))

/-- The supervisor itself after one exit. -/
theorem handled {fuel : Nat} {pid : AgentPid} {reason : Reason}
    (h : Minded handlers pending sup s) (hout : s.exitHandlers = [])
    (hhandled : Handled agents (AgentScheduler.terminateProcess (code agents) fuel) sup pid
      reason s.relations s sup' s')
    (hmono : ∀ pid, EndedBy handlers pid → EndedBy handlers' pid)
    (hlog : ∀ event ∈ sup'.log, ∀ pid, Ends event pid → EndedBy handlers' pid) :
    Minded handlers' pending sup' s' := by
  have hold := h.exit hout hhandled hmono hlog
  cases hhandled with
  | idle => exact hold
  | @dropped i child hfinds hshould =>
      have hsub := List.eraseIdx_sublist sup.children i
      refine ⟨fun other hother => hold.behaves other (hsub.subset hother), ?_⟩
      exact hold.alive.imp_right fun halive other hother => halive other (hsub.subset hother)
  | exceeded => exact ⟨hold.behaves, .inl rfl⟩
  | @round i child hrestarts hwithin ended _ hended hdone =>
      have hnew := (starts_respawnAll agents (sup.restartees i child) ended).facts
      have hsub := sup.keptChildren_sublist i
      have halive := hold.alive.resolve_left (by
        rw [hrestarts.working]
        exact Bool.false_ne_true)
      refine ⟨?_, .inr ?_⟩
      · intro other hother
        rcases hdone.kept_or_new hother with hkept | hstarted
        · exact hold.behaves other (hsub.subset hkept)
        · obtain ⟨state, hlookup⟩ := hnew.live other hstarted
          refine ⟨(hnew.fresh other hstarted).2, fun proc hproc => ?_⟩
          rw [hlookup, Option.some.injEq] at hproc
          rw [← hproc]
          rfl
      · intro other hother
        rcases hdone.kept_or_new hother with hkept | hstarted
        · exact halive other (hsub.subset hkept)
        · obtain ⟨state, hlookup⟩ := hnew.live other hstarted
          rw [hlookup]
          exact .inl rfl

end Minded

/-! ## Every run -/

/-- All supervisors in place mind their children. -/
def AllMinded (agents : BehaviorCode (Supervised B S H)) (pending : List AgentPid)
    (handlers : List (Nat × Supervisor B)) (s : AgentScheduler (Supervised B S H)) : Prop :=
  AllFounded agents handlers s ∧ ∀ entry ∈ handlers, Minded handlers pending entry.2 s

theorem endedBy_replace {first rest : List (Nat × Supervisor B)} {id : Nat}
    {sup sup' : Supervisor B} (hlog : sup.log ⊆ sup'.log) {pid : AgentPid}
    (h : EndedBy (first ++ (id, sup) :: rest) pid) :
    EndedBy (first ++ (id, sup') :: rest) pid := by
  obtain ⟨entry, hentry, event, hevent, hends⟩ := h
  rcases mem_of_replaced hentry with rfl | hentry
  · exact ⟨(id, sup'), List.mem_append_right _ List.mem_cons_self, event, hlog hevent, hends⟩
  · exact ⟨entry, hentry, event, hevent, hends⟩

/-- One supervisor in place has run. -/
theorem AllMinded.exit {pending : List AgentPid} {first rest : List (Nat × Supervisor B)}
    {id fuel : Nat} {sup sup' : Supervisor B} {pid : AgentPid} {reason : Reason}
    {s s' : AgentScheduler (Supervised B S H)}
    (h : AllMinded agents pending (first ++ (id, sup) :: rest) s) (hout : s.exitHandlers = [])
    (hrun : AgentScheduler.runProg (AgentScheduler.perform agents
      (AgentScheduler.terminateProcess (code agents) fuel))
      (sup.handleChildExit pid reason s.relations) s = some (sup', s')) :
    AllMinded agents pending (first ++ (id, sup') :: rest) s' := by
  have hhandled := handled_of_runProg hrun
  have hmono : ∀ pid, EndedBy (first ++ (id, sup) :: rest) pid →
      EndedBy (first ++ (id, sup') :: rest) pid :=
    fun _ hended => endedBy_replace hhandled.log_subset hended
  have hlog : ∀ event ∈ sup'.log, ∀ pid, Ends event pid →
      EndedBy (first ++ (id, sup') :: rest) pid :=
    fun event hevent _ hends =>
      ⟨(id, sup'), List.mem_append_right _ List.mem_cons_self, event, hevent, hends⟩
  refine ⟨(h.1.exit hrun).1, ?_⟩
  intro entry hentry
  rcases mem_of_replaced hentry with rfl | hentry
  · exact (h.2 (id, sup) (List.mem_append_right _ List.mem_cons_self)).handled hout hhandled
      hmono hlog
  · exact (h.2 entry hentry).exit hout hhandled hmono hlog

theorem handlerRule_minded (agents : BehaviorCode (Supervised B S H)) (reason : Reason) :
    AgentScheduler.HandlerRule (code agents) reason (fun _ => True) Done
      (AllMinded agents) where
  down {_ _ s pid} _ h :=
    ⟨h.1.later (Nat.le_of_eq (AgentScheduler.nextPid_takeDown _ s pid _).symm),
      fun entry hentry => (h.2 entry hentry).takeDown pid reason⟩
  cascade _ _ _ _ := trivial
  aside _ _ h := ⟨h.1, fun entry hentry =>
    (h.2 entry hentry).congr (fun _ => rfl) (Nat.le_refl _)⟩
  invoked _ _ h := ⟨h.1, fun entry hentry =>
    (h.2 entry hentry).congr (fun _ => rfl) (Nat.le_refl _)⟩
  handler _ hout h hrun :=
    ⟨(handled_of_runProg hrun).exitHandlers hout, (h.1.exit hrun).2, h.exit hout hrun⟩
  handled hdone h := ⟨h.1, fun entry hentry => (h.2 entry hentry).drop (hdone entry hentry)⟩
  finish {_ _ s} pid h := by
    obtain ⟨bridge, pendingDestroys, metrics, hfinish⟩ :=
      AgentScheduler.finishTermination_cases s pid
    rw [hfinish]
    exact ⟨h.1, fun entry hentry => (h.2 entry hentry).congr (fun _ => rfl) (Nat.le_refl _)⟩

/-- Supervisors are installed one after the other. -/
theorem AllMinded.startLinked {s : AgentScheduler (Supervised B S H)}
    (h : AllMinded agents [] s.exitHandlers s) (spec : SupervisorSpec B)
    (clock : Nat → Nat) :
    AllMinded agents [] (startLinked agents s spec clock).exitHandlers
      (startLinked agents s spec clock) := by
  refine ⟨h.1.startLinked spec clock, ?_⟩
  rcases startLinked_cases agents s spec clock with ⟨children, hstarts⟩ |
    ⟨sup, s', hstart, hlinked⟩
  · have hfacts := hstarts.facts
    rw [hfacts.exitHandlers]
    exact fun entry hentry => (h.2 entry hentry).starts hfacts
  · obtain ⟨children, hstarts, rfl⟩ := of_start hstart
    have hfacts := hstarts.facts
    rw [hlinked]
    intro entry hentry
    rcases List.mem_append.mp hentry with hold | hnew
    · rw [hfacts.exitHandlers] at hold
      have hminded := (h.2 entry hold).starts hfacts
      refine (hminded.handlers_mono ?_).congr (fun _ => rfl) (Nat.le_refl _)
      rintro pid ⟨other, hother, hended⟩
      refine ⟨other, List.mem_append_left _ ?_, hended⟩
      rw [hfacts.exitHandlers]
      exact hother
    · rw [List.mem_singleton.mp hnew]
      refine ⟨fun child hchild => ?_, .inr fun child hchild => ?_⟩
      · obtain ⟨state, hlookup⟩ := hfacts.live child hchild
        refine ⟨(hfacts.fresh child hchild).2, fun proc hproc => ?_⟩
        have hsame := Option.some.inj (hproc.symm.trans hlookup)
        rw [hsame]
        rfl
      · obtain ⟨state, hlookup⟩ := hfacts.live child hchild
        exact .inl (Option.isSome_of_mem hlookup)

theorem SupervisedRun.allMinded {s : AgentScheduler (Supervised B S H)}
    (h : SupervisedRun agents s) : AllMinded agents [] s.exitHandlers s := by
  induction h with
  | new =>
      exact ⟨fun entry hentry => absurd hentry List.not_mem_nil,
        fun entry hentry => absurd hentry List.not_mem_nil⟩
  | startLinked h spec clock ih => exact ih.startLinked spec clock
  | step h fuel op hop hstep ih =>
      exact AgentScheduler.HandlerRule.step (handlerRule_minded agents)
        (fun hmove h => ⟨h.1.later (nextPid_le_of_move hmove),
          fun entry hentry => (h.2 entry hentry).move hmove⟩) hop hstep ih

/-- The supervisor has shut down, or each child on record is alive, with the id and the
behaviour of the spec it is recorded for. -/
def KeepsChildren (s : AgentScheduler (Supervised B S H)) (sup : Supervisor B) : Prop :=
  sup.shutdown = true ∨ ∀ child ∈ sup.children, child.id = child.spec.id ∧
    ∃ proc, s.lookup child.pid = some proc ∧ proc.behavior = child.spec.behavior

/-- Whenever no call is running, each installed supervisor keeps its children, if none of
those on record was ended along links by a round of restarts. -/
theorem children_kept {s : AgentScheduler (Supervised B S H)} (h : SupervisedRun agents s)
    {entry : Nat × Supervisor B} (hentry : entry ∈ s.exitHandlers)
    (hspared : ∀ child ∈ entry.2.children, ¬ EndedBy s.exitHandlers child.pid) :
    KeepsChildren s entry.2 := by
  obtain ⟨hfounded, hminded⟩ := h.allMinded
  have hrecorded := (hfounded entry hentry).recorded
  refine (hminded entry hentry).alive.imp_right fun halive child hchild => ?_
  refine ⟨hrecorded.named child hchild, ?_⟩
  rcases halive child hchild with hlive | hpending | hended
  · obtain ⟨proc, hproc⟩ := Option.isSome_iff_exists.mp hlive
    exact ⟨proc, hproc, ((hminded entry hentry).behaves child hchild).2 proc hproc⟩
  · exact absurd hpending List.not_mem_nil
  · exact absurd hended (hspared child hchild)

/-! ## Three children -/

def trioSpec (strategy : RestartStrategy) : SupervisorSpec Unit :=
  { strategy, maxRestarts := 3, maxSeconds := 1
    children := [⟨"a", (), .null, .permanent, .normal⟩, ⟨"b", (), .null, .permanent, .normal⟩,
      ⟨"c", (), .null, .permanent, .normal⟩] }

/-- The first and the third child are linked, and one of the three is terminated. -/
def trioRun (strategy : RestartStrategy) (pid : AgentPid) :
    Option (AgentScheduler (Supervised Unit Unit Unit)) :=
  (startLinked plainAgents (.new none none false 1 1) (trioSpec strategy) fun _ => 0).run
    (code plainAgents) [(0, .call (.link 1 3)), (5, .call (.terminateProcess pid .shutdown))]

theorem supervisedRun_trio {strategy : RestartStrategy} {pid : AgentPid}
    {s : AgentScheduler (Supervised Unit Unit Unit)} (h : trioRun strategy pid = some s) :
    SupervisedRun plainAgents s :=
  ((SupervisedRun.new none none false 1 1).startLinked _ _).run (by simp) h

/-- A round that ended no process along links, since it ended none first. -/
def endsNobody : SupervisorEvent B → Bool
  | .round _ ended _ => ended.isEmpty
  | _ => true

/-- Under OneForOne two linked children die together, and both come back. -/
theorem children_kept_linked :
    ∃ s entry, trioRun .oneForOne 1 = some s ∧ s.exitHandlers = [entry] ∧
      entry.2.children.map RunningChild.pid = [5, 2, 4] ∧ KeepsChildren s entry.2 := by
  have hshape : (trioRun .oneForOne 1).map (fun s => s.exitHandlers.map fun entry =>
      (entry.2.children.map RunningChild.pid, entry.2.log.all endsNobody)) =
      some [([5, 2, 4], true)] := by
    rfl
  obtain ⟨s, hrun, hs⟩ := Option.map_eq_some_iff.mp hshape
  obtain ⟨entry, rest, hhandlers, hentry, hrest⟩ := List.map_eq_cons_iff.mp hs
  obtain rfl := List.map_eq_nil_iff.mp hrest
  obtain ⟨hpids, hlog⟩ := Prod.mk.inj hentry
  refine ⟨s, entry, hrun, hhandlers, hpids, ?_⟩
  apply children_kept (supervisedRun_trio hrun)
  · rw [hhandlers]
    exact List.mem_cons_self
  · rintro child _ ⟨other, hother, event, hevent, hends⟩
    rw [hhandlers, List.mem_singleton] at hother
    have hnobody := List.all_eq_true.mp hlog event (hother ▸ hevent)
    cases event with
    | round now ended relations =>
        obtain ⟨root, hroot, _⟩ := hends
        rw [List.isEmpty_iff.mp hnobody] at hroot
        exact absurd hroot List.not_mem_nil
    | _ => exact hends

/-- Under RestForOne the second child dies, the third one is ended for it, and its exit takes
the first one along, which stays on record. -/
theorem trio_not_kept :
    ¬ ∀ s, SupervisedRun plainAgents s → ∀ entry ∈ s.exitHandlers,
      KeepsChildren (s : AgentScheduler (Supervised Unit Unit Unit)) entry.2 := by
  intro hkeeps
  have hshape : (trioRun .restForOne 2).map (fun s => (s.exitHandlers.map fun entry =>
      (entry.2.shutdown, entry.2.children.map RunningChild.pid), (s.lookup 1).isSome)) =
      some ([(false, [1, 4, 5])], false) := by
    rfl
  obtain ⟨s, hrun, hs⟩ := Option.map_eq_some_iff.mp hshape
  obtain ⟨hhandlers, hdead⟩ := Prod.mk.inj hs
  obtain ⟨entry, rest, hentries, hentry, _⟩ := List.map_eq_cons_iff.mp hhandlers
  obtain ⟨hworking, hpids⟩ := Prod.mk.inj hentry
  have hkept := hkeeps s (supervisedRun_trio hrun) entry (hentries ▸ List.mem_cons_self)
  obtain ⟨child, others, hchildren, hpid, _⟩ := List.map_eq_cons_iff.mp hpids
  rcases hkept with hshutdown | halive
  · exact Bool.false_ne_true (hworking.symm.trans hshutdown)
  · obtain ⟨_, proc, hproc, _⟩ := halive child (hchildren ▸ List.mem_cons_self)
    rw [hpid] at hproc
    rw [hproc] at hdead
    exact Bool.false_ne_true hdead.symm

end Supervisor

end Zeptobeam
