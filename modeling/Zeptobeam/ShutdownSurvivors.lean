/-
Graceful shutdown under supervisors.  Nobody is left if no supervisor can answer the exit
of a Permanent child with a round of restarts; and as soon as one does, somebody is left
who was not there to be terminated.
-/
import Zeptobeam.SupervisorHistory
import Zeptobeam.RestartIntensity

namespace Zeptobeam

namespace AgentScheduler

variable {T : AgentTypes}

theorem messagesOnly_sendAll (code : BehaviorCode T) (s : AgentScheduler T) {origin : Origin}
    (horigin : origin.ofMonitor = false) (messages : List (AgentPid × Message)) :
    MessagesOnly s (s.sendAll code origin messages) := by
  unfold sendAll
  induction messages generalizing s with
  | nil => exact .refl s
  | cons message rest ih =>
      exact (messagesOnly_send code s message.1 message.2 horigin).trans (ih _)

theorem messagesOnly_bridge (s : AgentScheduler T) (bridge : Option Bridge) :
    MessagesOnly s { s with bridge } :=
  ⟨⟨[], by simp⟩, fun _ => rfl, rfl, rfl, rfl, rfl⟩

theorem messagesOnly_deliverResponses (code : BehaviorCode T) (s : AgentScheduler T) :
    MessagesOnly s (s.deliverResponses code) := by
  cases hbridge : s.bridge with
  | none =>
      simp only [deliverResponses, hbridge]
      exact .refl s
  | some bridge =>
      simp only [deliverResponses, hbridge]
      exact (messagesOnly_bridge s _).trans (messagesOnly_sendAll code _ rfl _)

/-- A graceful shutdown is a walk over the processes that are there once the last responses
are delivered. -/
theorem gracefulShutdown_cases {code : BehaviorCode T}
    {terminate : AgentScheduler T → AgentPid → Reason → Option (AgentScheduler T)}
    {s s' : AgentScheduler T} {workers : List Bridge.WorkerStep} {order : PidOrder T}
    (h : s.gracefulShutdown code terminate workers order = some s') :
    ∃ (ready ended : AgentScheduler T) (pids : List AgentPid), MessagesOnly s ready ∧
      (∀ q, q ∈ pids ↔ (ready.lookup q).isSome) ∧
      pids.foldlM (fun s pid =>
        if (s.lookup pid).isSome then terminate s pid .shutdown else some s) ready =
        some ended ∧
      ∀ q, s'.lookup q = ended.lookup q := by
  simp only [gracefulShutdown, Option.bind_eq_bind, Option.bind_eq_some_iff,
    Option.some.injEq] at h
  obtain ⟨ended, hwalk, rfl⟩ := h
  refine ⟨_, ended, _, ?_, fun q => ?_, hwalk, fun _ => rfl⟩
  · exact (messagesOnly_bridge s _).trans (messagesOnly_deliverResponses code _)
  · rw [(order.walk_perm _).mem_iff, lookup, AgentRegistry.lookup, AList.lookup_isSome]
    exact AList.mem_keys.symm

/-- Who is on the walk is gone after it. -/
theorem gone_of_walk {code : AgentCode T} {fuel : Nat} {reason : Reason}
    {pids : List AgentPid} {s s' : AgentScheduler T} (hgiven : ∀ q ∈ pids, q < s.nextPid)
    (h : pids.foldlM (fun s pid =>
      if (s.lookup pid).isSome then terminateProcess code fuel s pid reason else some s) s =
      some s') : ∀ q ∈ pids, Gone q s' := by
  induction pids generalizing s with
  | nil => exact fun q hq => absurd hq List.not_mem_nil
  | cons pid rest ih =>
      simp only [List.foldlM_cons, Option.bind_eq_bind, Option.bind_eq_some_iff] at h
      obtain ⟨middle, hstep, hrest⟩ := h
      have hfirst : Gone pid middle ∧ s.nextPid ≤ middle.nextPid := by
        split at hstep
        · refine ⟨gone_of_terminateProcess (hgiven pid List.mem_cons_self) hstep, ?_⟩
          exact ((Allots.stableRun code s).terminateProcess hstep (.refl s)).nextPid
        · rename_i hdead
          cases hstep
          exact ⟨⟨hgiven pid List.mem_cons_self, hdead⟩, Nat.le_refl _⟩
      have hothers := ih (fun q hq =>
        Nat.lt_of_lt_of_le (hgiven q (List.mem_cons_of_mem pid hq)) hfirst.2) hrest
      intro q hq
      rcases List.mem_cons.mp hq with rfl | hq
      · refine GuardedRun.foldlM_keeps rest (fun middle next final _ hnext hgone => ?_) hrest
          hfirst.1
        split at hnext
        · exact (stableRun_gone code q).terminateProcess hnext hgone
        · exact Option.some.inj hnext ▸ hgone
      · exact hothers q hq

/-- What a rule for terminations keeps is kept by the walk. -/
theorem HandlerRule.walk {code : AgentCode T} {reason : Reason} {Ready : AgentPid → Prop}
    {Done : AgentPid → T.Handler → Prop}
    {J : List AgentPid → List (Nat × T.Handler) → AgentScheduler T → Prop}
    (h : HandlerRule code reason Ready Done J) {fuel : Nat} {pids : List AgentPid}
    {s s' : AgentScheduler T} (hready : ∀ q ∈ pids, Ready q)
    (hrun : pids.foldlM (fun s pid =>
      if (s.lookup pid).isSome then AgentScheduler.terminateProcess code fuel s pid reason
      else some s) s = some s') (hs : J [] s.exitHandlers s) : J [] s'.exitHandlers s' := by
  have hstep : ∀ (first : AgentScheduler T) (pid : AgentPid) (second : AgentScheduler T),
      pid ∈ pids → (if (first.lookup pid).isSome then
        AgentScheduler.terminateProcess code fuel first pid reason else some first) =
        some second →
      J [] first.exitHandlers first → J [] second.exitHandlers second := by
    intro first pid second hpid hnext hfirst
    split at hnext
    · exact h.terminateProcess [] (hready pid hpid) hnext hfirst
    · exact Option.some.inj hnext ▸ hfirst
  exact GuardedRun.foldlM_keeps pids hstep hrun hs

/-- Links lead to pids that were given out. -/
def LinksGiven (s : AgentScheduler T) : Prop :=
  ∀ q links trap, s.kin q = some (links, trap) → ∀ p ∈ links, p < s.nextPid

end AgentScheduler

namespace Supervisor

variable {B S H : Type} {agents : BehaviorCode (Supervised B S H)} {fuel : Nat}
  {terminate : AgentScheduler (Supervised B S H) → AgentPid → Reason →
    Option (AgentScheduler (Supervised B S H))}
  {sup sup' : Supervisor B} {s s' : AgentScheduler (Supervised B S H)}

/-! ## Supervisors that let go -/

/-- The supervisor has shut down, or it does so at the next check, or no child on record is
alive and Permanent. -/
def Harmless (s : AgentScheduler (Supervised B S H)) (sup : Supervisor B) : Prop :=
  sup.shutdown = true ∨ sup.exceedsMaxRestarts.1 = true ∨
    ∀ child ∈ sup.children, child.spec.restart = .permanent →
      ¬ (s.lookup child.pid).isSome

theorem permanent_of_shouldRestart {restart : ChildRestart}
    (h : restart.shouldRestart .shutdown = true) : restart = .permanent := by
  cases restart with
  | permanent => rfl
  | transient => contradiction
  | temporary => contradiction

/-- Such a supervisor only watches the processes end that were there at first. -/
theorem Harmless.handled {start : AgentScheduler (Supervised B S H)} {pid : AgentPid}
    {relations : AgentPid → Option Relations} (h : Harmless start sup)
    (hpid : (start.lookup pid).isSome)
    (hhandled : Handled agents terminate sup pid .shutdown relations s sup' s') :
    s' = s ∧ Harmless start sup' := by
  cases hhandled with
  | idle => exact ⟨rfl, h⟩
  | @dropped i child hfinds hshould =>
      refine ⟨rfl, h.imp_right fun hrest => hrest.imp_right fun hnone other hother => ?_⟩
      exact hnone other ((List.eraseIdx_sublist _ _).subset hother)
  | exceeded => exact ⟨rfl, .inl rfl⟩
  | @round i child hrestarts hwithin =>
      rcases h with hshutdown | hexceeds | hnone
      · exact absurd (hrestarts.working.symm.trans hshutdown) Bool.false_ne_true
      · exact absurd (hwithin.symm.trans hexceeds) Bool.false_ne_true
      · have hdead := hnone child (List.mem_of_getElem? hrestarts.found)
          (permanent_of_shouldRestart hrestarts.should)
        rw [hrestarts.pid] at hdead
        exact absurd hpid hdead

theorem handlerRule_harmless (agents : BehaviorCode (Supervised B S H))
    (start : AgentScheduler (Supervised B S H)) :
    AgentScheduler.HandlerRule (code agents) .shutdown (fun q => (start.lookup q).isSome)
      (fun _ _ => True) (fun _ handlers s => (∀ entry ∈ handlers, Harmless start entry.2) ∧
        ∀ q, (s.lookup q).isSome → (start.lookup q).isSome) where
  down _ h := ⟨h.1, fun q hq => h.2 q (AgentScheduler.live_takeDown agents hq).2⟩
  cascade {_ _ s _} _ h q hq := by
    obtain ⟨_, _, others, _, _, hfree⟩ := AgentScheduler.mem_takeDown _ hq
    apply h.2 q
    rw [← AgentScheduler.isSome_kin, hfree]
    rfl
  aside _ _ h := h
  invoked _ _ h := h
  handler {_ first id sup sup' rest _ _ _ _} hpid hout h hrun := by
    have hold := h.1 (id, sup) (List.mem_append_right _ List.mem_cons_self)
    obtain ⟨rfl, hnew⟩ := hold.handled hpid (handled_of_runProg hrun)
    refine ⟨hout, trivial, fun entry hentry => ?_, h.2⟩
    rcases mem_of_replaced hentry with rfl | hentry
    · exact hnew
    · exact h.1 entry hentry
  handled _ h := h
  finish {_ _ s} pid h := by
    obtain ⟨bridge, pendingDestroys, metrics, hfinish⟩ :=
      AgentScheduler.finishTermination_cases s pid
    rw [hfinish]
    exact h

/-! ## Supervisors that hold on -/

/-- The supervisor answers the exit of the child with a round. -/
structure Able (child : RunningChild B) (sup : Supervisor B) : Prop where
  working : sup.shutdown = false
  within : sup.exceedsMaxRestarts.1 = false
  recorded : child ∈ sup.children
  permanent : child.spec.restart = .permanent

theorem exists_able_of_not_harmless (h : ¬ Harmless s sup) :
    ∃ child, Able child sup ∧ (s.lookup child.pid).isSome := by
  simp only [Harmless, not_or, not_forall, Bool.not_eq_true, Bool.not_eq_false] at h
  obtain ⟨hworking, hwithin, child, hchild, hpermanent, hlive⟩ := h
  exact ⟨child, ⟨hworking, hwithin, hchild, hpermanent⟩, hlive⟩

theorem exists_respawned {children : List (RunningChild B)} {child : RunningChild B}
    (hchild : child ∈ children)
    (hinit : ∃ state, agents.init child.spec.behavior child.spec.args = .ok state)
    (s : AgentScheduler (Supervised B S H)) :
    ∃ running, running ∈ (respawnAll agents children s).1.map Prod.snd := by
  induction children generalizing s with
  | nil => exact absurd hchild List.not_mem_nil
  | cons first rest ih =>
      rcases spawnOf_cases agents s first.spec with ⟨reason, hfailed, hspawn⟩ |
        ⟨running, next, _, hspawn, _⟩
      · simp only [respawnAll, hspawn]
        rcases List.mem_cons.mp hchild with rfl | hchild
        · obtain ⟨state, hok⟩ := hinit
          rw [hok] at hfailed
          cases hfailed
        · exact ih hchild _
      · simp only [respawnAll, hspawn]
        exact ⟨running, List.mem_cons_self⟩

theorem mem_restartees {i : Nat} {child : RunningChild B}
    (hfound : sup.children[i]? = some child) : child ∈ sup.restartees i child := by
  unfold restartees
  split
  · exact List.mem_singleton.mpr rfl
  · exact List.mem_of_getElem? hfound
  · obtain ⟨hlt, hget⟩ := List.getElem?_eq_some_iff.mp hfound
    rw [List.drop_eq_getElem_cons hlt, hget]
    exact List.mem_cons_self

/-- After one exit nothing has changed for the processes, and whoever could restart a child
still can; or somebody new is there, and links are as they were. -/
theorem Handled.same_or_started {pid : AgentPid} {reason : Reason}
    {relations : AgentPid → Option Relations} (hrecorded : Recorded agents sup s.nextPid)
    (hout : s.exitHandlers = [])
    (h : Handled agents (AgentScheduler.terminateProcess (code agents) fuel) sup pid reason
      relations s sup' s') :
    (s' = s ∧ ∀ child, Able child sup → Able child sup') ∨
      (∃ q, s.nextPid ≤ q ∧ (s'.lookup q).isSome) ∧
        ∀ q links trap, s'.kin q = some (links, trap) →
          s.kin q = some (links, trap) ∨ links = [] := by
  cases h with
  | idle => exact .inl ⟨rfl, fun _ => id⟩
  | @dropped i child hfinds hshould =>
      refine .inl ⟨rfl, fun other hother => ⟨hother.working, hother.within, ?_,
        hother.permanent⟩⟩
      obtain ⟨hlt, hget⟩ := List.getElem?_eq_some_iff.mp hfinds.found
      have hperm := List.getElem_cons_eraseIdx_perm hlt
      rcases List.mem_cons.mp (hperm.mem_iff.mpr hother.recorded) with heq | hrest
      · rw [← hget, ← heq, hother.permanent] at hshould
        exact absurd hshould (by simp [ChildRestart.shouldRestart])
      · exact hrest
  | exceeded _ hexceeds =>
      refine .inl ⟨rfl, fun other hother => ?_⟩
      exact absurd (hother.within.symm.trans hexceeds) Bool.false_ne_true
  | @round i child hrestarts _ ended _ hended _ =>
      right
      have hnew := (starts_respawnAll agents (sup.restartees i child) ended).facts
      obtain ⟨_, hreduced⟩ := AgentScheduler.reduced_foldlM hout hended
      obtain ⟨running, hrunning⟩ := exists_respawned (mem_restartees hrestarts.found)
        (hrecorded.init child (List.mem_of_getElem? hrestarts.found)) ended
      refine ⟨⟨running.pid, ?_, ?_⟩, fun q links trap hkin => ?_⟩
      · rw [← hreduced.nextPid]
        exact (hnew.fresh running hrunning).1
      · obtain ⟨state, hlookup⟩ := hnew.live running hrunning
        rw [hlookup]
        rfl
      · rw [AgentScheduler.kin_eq_lookup] at hkin
        by_cases hq : ∃ other ∈ (respawnAll agents (sup.restartees i child) ended).1.map
            Prod.snd, other.pid = q
        · obtain ⟨other, hother, rfl⟩ := hq
          obtain ⟨state, hlookup⟩ := hnew.live other hother
          rw [hlookup, Option.map_some, Option.some.injEq, Prod.mk.injEq] at hkin
          exact .inr hkin.1.symm
        · have hsame := hnew.others q fun other hother heq => hq ⟨other, hother, heq⟩
          rw [hsame, ← AgentScheduler.kin_eq_lookup] at hkin
          rcases hreduced.kin q with hbefore | ⟨hnone, _⟩
          · exact .inl (hbefore ▸ hkin)
          · rw [hnone] at hkin
            cases hkin

/-- Somebody has a pid that was not given out at first, or somebody will: a supervisor can
restart the child, which is alive, or its handlers are still to run. -/
structure Survived (agents : BehaviorCode (Supervised B S H)) (firstPid : AgentPid)
    (child : RunningChild B) (pending : List AgentPid) (handlers : List (Nat × Supervisor B))
    (s : AgentScheduler (Supervised B S H)) : Prop where
  founded : AllFounded agents handlers s
  nextPid : firstPid ≤ s.nextPid
  links : ∀ q links trap, s.kin q = some (links, trap) → ∀ p ∈ links, p < firstPid
  survivor : (∃ q, firstPid ≤ q ∧ (s.lookup q).isSome) ∨
    ∃ entry ∈ handlers, Able child entry.2 ∧
      ((s.lookup child.pid).isSome ∨ child.pid ∈ pending)

theorem Survived.congr {firstPid : AgentPid} {child : RunningChild B}
    {pending : List AgentPid} {handlers : List (Nat × Supervisor B)}
    (h : Survived agents firstPid child pending handlers s)
    (hlookup : ∀ q, s'.lookup q = s.lookup q) (hnextPid : s'.nextPid = s.nextPid) :
    Survived agents firstPid child pending handlers s' where
  founded := h.founded.later (Nat.le_of_eq hnextPid.symm)
  nextPid := hnextPid ▸ h.nextPid
  links q links trap hkin := by
    rw [AgentScheduler.kin_eq_lookup, hlookup, ← AgentScheduler.kin_eq_lookup] at hkin
    exact h.links q links trap hkin
  survivor := by
    simp only [hlookup]
    exact h.survivor

theorem Survived.takeDown {firstPid : AgentPid} {child : RunningChild B}
    {pending : List AgentPid} {handlers : List (Nat × Supervisor B)}
    (h : Survived agents firstPid child pending handlers s) {pid : AgentPid}
    (hpid : pid < firstPid) (reason : Reason) :
    Survived agents firstPid child (pid :: pending) handlers
      (s.takeDown agents pid reason).2 := by
  have hnextPid := AgentScheduler.nextPid_takeDown agents s pid reason
  have hlive : ∀ q, q ≠ pid →
      (((s.takeDown agents pid reason).2.lookup q).isSome ↔ (s.lookup q).isSome) := by
    intro q hq
    rw [← AgentScheduler.isSome_kin, AgentScheduler.kin_takeDown, if_neg hq,
      AgentScheduler.isSome_kin]
  refine ⟨h.founded.later (Nat.le_of_eq hnextPid.symm), hnextPid ▸ h.nextPid, ?_, ?_⟩
  · intro q links trap hkin
    rw [AgentScheduler.kin_takeDown] at hkin
    split at hkin
    · cases hkin
    · exact h.links q links trap hkin
  · rcases h.survivor with ⟨q, hq, hsurvives⟩ | ⟨entry, hentry, hable, hchild⟩
    · have hother : q ≠ pid := Nat.ne_of_gt (Nat.lt_of_lt_of_le hpid hq)
      exact .inl ⟨q, hq, (hlive q hother).mpr hsurvives⟩
    · refine .inr ⟨entry, hentry, hable, ?_⟩
      by_cases heq : child.pid = pid
      · exact .inr (heq ▸ List.mem_cons_self)
      · exact hchild.imp (hlive child.pid heq).mpr (List.mem_cons_of_mem pid)

/-- One supervisor in place has run. -/
theorem Survived.exit {firstPid : AgentPid} {child : RunningChild B}
    {pending : List AgentPid} {first rest : List (Nat × Supervisor B)} {id : Nat}
    (h : Survived agents firstPid child pending (first ++ (id, sup) :: rest) s)
    (hout : s.exitHandlers = []) {pid : AgentPid} {reason : Reason}
    (hrun : AgentScheduler.runProg (AgentScheduler.perform agents
      (AgentScheduler.terminateProcess (code agents) fuel))
      (sup.handleChildExit pid reason s.relations) s = some (sup', s')) :
    Survived agents firstPid child pending (first ++ (id, sup') :: rest) s' := by
  have hmem : (id, sup) ∈ first ++ (id, sup) :: rest :=
    List.mem_append_right _ List.mem_cons_self
  have hnew : (id, sup') ∈ first ++ (id, sup') :: rest :=
    List.mem_append_right _ List.mem_cons_self
  have hfounded := (h.founded.exit hrun).1
  have hrecorded := (h.founded _ hmem).recorded
  rcases (handled_of_runProg hrun).same_or_started hrecorded hout with ⟨rfl, hable⟩ |
    ⟨⟨q, hq, hlive⟩, hlinks⟩
  · refine ⟨hfounded, h.nextPid, h.links, h.survivor.imp_right ?_⟩
    rintro ⟨entry, hentry, hentryAble, hchild⟩
    rcases mem_of_replaced hentry with rfl | hentry
    · exact ⟨_, hnew, hable child hentryAble, hchild⟩
    · exact ⟨entry, hentry, hentryAble, hchild⟩
  · have hlater := ((h.founded _ hmem).exit hrun).2.2
    refine ⟨hfounded, Nat.le_trans h.nextPid hlater, ?_, .inl ⟨q, Nat.le_trans h.nextPid hq,
      hlive⟩⟩
    intro q links trap hkin p hp
    rcases hlinks q links trap hkin with hbefore | rfl
    · exact h.links q links trap hbefore p hp
    · exact absurd hp List.not_mem_nil

theorem handlerRule_survived (agents : BehaviorCode (Supervised B S H)) (reason : Reason)
    (firstPid : AgentPid) (child : RunningChild B) :
    AgentScheduler.HandlerRule (code agents) reason (fun q => q < firstPid) Done
      (Survived agents firstPid child) where
  down hpid h := h.takeDown hpid reason
  cascade _ h q hq := by
    obtain ⟨links, trap, _, hpid, hlink, _⟩ := AgentScheduler.mem_takeDown _ hq
    exact h.links _ links trap hpid q hlink
  aside _ _ h := h.congr (fun _ => rfl) rfl
  invoked _ _ h := h.congr (fun _ => rfl) rfl
  handler _ hout h hrun := ⟨(handled_of_runProg hrun).exitHandlers hout,
    (h.founded.exit hrun).2, h.exit hout hrun⟩
  handled {_ _ s pid} hdone h := by
    refine ⟨h.founded, h.nextPid, h.links, h.survivor.imp_right ?_⟩
    rintro ⟨entry, hentry, hable, hchild⟩
    refine ⟨entry, hentry, hable, hchild.imp_right fun hpending => ?_⟩
    refine (List.mem_cons.mp hpending).resolve_left fun heq => ?_
    rcases hdone entry hentry with hshutdown | hnone
    · exact absurd (hable.working.symm.trans hshutdown) Bool.false_ne_true
    · exact hnone child hable.recorded heq
  finish {_ _ s} pid h := by
    obtain ⟨bridge, pendingDestroys, metrics, hfinish⟩ :=
      AgentScheduler.finishTermination_cases s pid
    rw [hfinish]
    exact h.congr (fun _ => rfl) rfl

/-! ## The shutdown -/

theorem SupervisedRun.given (h : SupervisedRun agents s) : AgentScheduler.Given s := by
  have hstarts : ∀ {s s' : AgentScheduler (Supervised B S H)}
      {children : List (RunningChild B)}, AgentScheduler.Given s →
      StartsSpec agents s children s' → AgentScheduler.Given s' := by
    intro s s' children hgiven hfacts q hq
    by_cases hchild : ∃ child ∈ children, child.pid = q
    · obtain ⟨child, hchild, rfl⟩ := hchild
      exact (hfacts.fresh child hchild).2
    · rw [hfacts.others q fun child hmem heq => hchild ⟨child, hmem, heq⟩] at hq
      exact Nat.lt_of_lt_of_le (hgiven q hq) hfacts.nextPid
  induction h with
  | new bridge messageHook routing nextPid nextMonitorRef =>
      intro q hq
      exact absurd hq Bool.false_ne_true
  | @startLinked s h spec clock ih =>
      rcases startLinked_cases agents s spec clock with ⟨children, hlinked⟩ |
        ⟨sup, s', hstart, hlinked⟩
      · exact hstarts ih hlinked.facts
      · obtain ⟨children, hchildren, _⟩ := of_start hstart
        have hgiven : AgentScheduler.Given s' := hstarts ih hchildren.facts
        rw [hlinked]
        exact hgiven
  | step h fuel op hop hstep ih =>
      exact (AgentScheduler.stableRun_given (code agents)).step hstep ih

/-- Nobody is left after a graceful shutdown if all supervisors let go; and if links lead
only to pids that were given out, this is necessary. -/
theorem shutdown_leaves_nobody {workers : List Bridge.WorkerStep}
    {order : PidOrder (Supervised B S H)} (h : SupervisedRun agents s)
    (hshutdown : s.gracefulShutdown agents
      (AgentScheduler.terminateProcess (code agents) fuel) workers order = some s') :
    ((∀ entry ∈ s.exitHandlers, Harmless s entry.2) → ∀ q, s'.lookup q = none) ∧
      (AgentScheduler.LinksGiven s → (∀ q, s'.lookup q = none) →
        ∀ entry ∈ s.exitHandlers, Harmless s entry.2) := by
  obtain ⟨ready, ended, pids, hmessages, hpids, hwalk, hended⟩ :=
    AgentScheduler.gracefulShutdown_cases hshutdown
  have hlive : ∀ q, (ready.lookup q).isSome = (s.lookup q).isSome := hmessages.live
  have hgiven : ∀ q ∈ pids, q < ready.nextPid := by
    intro q hq
    rw [hmessages.nextPid]
    apply h.given q
    rw [← hlive, ← hpids]
    exact hq
  constructor
  · intro hharmless q
    have hstart : ∀ entry ∈ ready.exitHandlers, Harmless ready entry.2 := by
      intro entry hentry
      rw [hmessages.exitHandlers] at hentry
      refine (hharmless entry hentry).imp_right fun hrest => hrest.imp_right ?_
      intro hnone child
      rw [hlive]
      exact hnone child
    obtain ⟨_, hbefore⟩ := (handlerRule_harmless agents ready).walk
      (fun q hq => (hpids q).mp hq) hwalk ⟨hstart, fun _ => id⟩
    rw [hended, ← Option.not_isSome_iff_eq_none]
    intro hq
    exact (AgentScheduler.gone_of_walk hgiven hwalk q ((hpids q).mpr (hbefore q hq))).2 hq
  · intro hlinks hnobody entry hentry
    by_contra hharmful
    obtain ⟨child, hable, hchild⟩ := exists_able_of_not_harmless hharmful
    have hstart : Survived agents ready.nextPid child [] ready.exitHandlers ready := by
      refine ⟨?_, Nat.le_refl _, ?_, .inr ⟨entry, ?_, hable, .inl ?_⟩⟩
      · rw [hmessages.exitHandlers]
        exact h.allFounded.later (Nat.le_of_eq hmessages.nextPid.symm)
      · intro q links trap hkin
        rw [hmessages.kin] at hkin
        rw [hmessages.nextPid]
        exact hlinks q links trap hkin
      · rw [hmessages.exitHandlers]
        exact hentry
      · rw [hlive]
        exact hchild
    have hlast := (handlerRule_survived agents .shutdown ready.nextPid child).walk hgiven hwalk
      hstart
    have hdead : ∀ q, ¬ (ended.lookup q).isSome := by
      intro q
      rw [← hended, hnobody]
      exact Bool.false_ne_true
    rcases hlast.survivor with ⟨q, _, hq⟩ | ⟨_, _, _, hq | hpending⟩
    · exact hdead q hq
    · exact hdead child.pid hq
    · exact absurd hpending List.not_mem_nil

/-! ## One child -/

/-- A scheduler with one supervisor, and what a graceful shutdown makes of it. -/
def lonelyShutdown (maxRestarts : Nat) : Option (AgentScheduler (Supervised Unit Unit Unit)) :=
  (startLinked plainAgents (.new none none false 1 1) (lonelySpec maxRestarts)
    fun _ => 0).gracefulShutdown plainAgents
    (AgentScheduler.terminateProcess (code plainAgents) 2) [] (.latestFirst _)

theorem supervisedRun_lonely (maxRestarts : Nat) :
    SupervisedRun (S := Unit) (H := Unit) plainAgents (startLinked plainAgents
      (.new none none false 1 1) (lonelySpec maxRestarts) fun _ => 0) :=
  (SupervisedRun.new none none false 1 1).startLinked _ _

/-- Without any restart allowed, nobody is left. -/
theorem shutdown_leaves_nobody_lonely :
    ∃ s', lonelyShutdown 0 = some s' ∧ ∀ q, s'.lookup q = none := by
  have hsome : (lonelyShutdown 0).isSome := by
    rfl
  obtain ⟨s', hs'⟩ := Option.isSome_iff_exists.mp hsome
  refine ⟨s', hs', (shutdown_leaves_nobody (supervisedRun_lonely 0) hs').1 ?_⟩
  intro entry hentry
  rw [List.mem_singleton.mp hentry]
  exact .inr (.inl (by decide))

/-- The child that a shutdown ends is back after it, under the next pid. -/
theorem lonely_survives :
    ¬ ∀ s, SupervisedRun plainAgents s → ∀ fuel workers order s',
      AgentScheduler.gracefulShutdown plainAgents
        (AgentScheduler.terminateProcess (code plainAgents) fuel) s workers order = some s' →
      ∀ q, (s' : AgentScheduler (Supervised Unit Unit Unit)).lookup q = none := by
  intro hnobody
  have hshape : (lonelyShutdown 3).map (fun s => (s.lookup 2).isSome) = some true := by
    rfl
  obtain ⟨s', hs', hsurvives⟩ := Option.map_eq_some_iff.mp hshape
  have hnone := hnobody _ (supervisedRun_lonely 3) 2 [] (.latestFirst _) s' hs' 2
  rw [hnone] at hsurvives
  exact Bool.false_ne_true hsurvives

end Supervisor

end Zeptobeam
