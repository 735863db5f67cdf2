/-
A termination followed through its cascade and its exit handlers.  What holds on the way
may depend on the handlers in place and on the processes that were taken down and whose
handlers are still to run.
-/
import Zeptobeam.PidHistory

namespace Zeptobeam

namespace AgentScheduler

variable {T : AgentTypes}

/-- What each part of a termination has to keep.  `J pending handlers s` speaks of the
handlers even while they are out of the scheduler; `Ready` holds of the pids that are
terminated, and `Done` of a handler that has run for a pid. -/
structure HandlerRule (code : AgentCode T) (reason : Reason) (Ready : AgentPid → Prop)
    (Done : AgentPid → T.Handler → Prop)
    (J : List AgentPid → List (Nat × T.Handler) → AgentScheduler T → Prop) : Prop where
  down : ∀ {pending handlers s pid}, Ready pid → J pending handlers s →
    J (pid :: pending) handlers (s.takeDown code.toBehaviorCode pid reason).2
  cascade : ∀ {pending handlers s pid}, Ready pid → J pending handlers s →
    ∀ q ∈ (s.takeDown code.toBehaviorCode pid reason).1, Ready q
  aside : ∀ {pending handlers s} exitHandlers handlersOut, J pending handlers s →
    J pending handlers { s with exitHandlers, handlersOut }
  invoked : ∀ {pending handlers s} id pid, J pending handlers s →
    J pending handlers (s.log (.handlerInvoked id pid reason))
  handler : ∀ {pending first id handler handler' rest pid fuel s s'}, Ready pid →
    s.exitHandlers = [] → J (pid :: pending) (first ++ (id, handler) :: rest) s →
    runProg (perform code.toBehaviorCode (terminateProcess code fuel))
      (code.exitHandler handler pid reason s) s = some (handler', s') →
    s'.exitHandlers = [] ∧ Done pid handler' ∧
      J (pid :: pending) (first ++ (id, handler') :: rest) s'
  handled : ∀ {pending handlers s pid}, (∀ entry ∈ handlers, Done pid entry.2) →
    J (pid :: pending) handlers s → J pending handlers s
  finish : ∀ {pending handlers s} pid, J pending handlers s →
    J pending handlers (s.finishTermination pid)

namespace HandlerRule

variable {code : AgentCode T} {reason : Reason} {Ready : AgentPid → Prop}
  {Done : AgentPid → T.Handler → Prop}
  {J : List AgentPid → List (Nat × T.Handler) → AgentScheduler T → Prop}
  {s s' : AgentScheduler T} {pending : List AgentPid}

/-- The handlers run one after the other, those before have run. -/
theorem invokeAll (h : HandlerRule code reason Ready Done J) {fuel : Nat} {pid : AgentPid}
    (hready : Ready pid) {handlers handlers' first : List (Nat × T.Handler)}
    (hrun : AgentScheduler.invokeAll code (perform code.toBehaviorCode
      (AgentScheduler.terminateProcess code fuel)) pid reason handlers s =
      some (handlers', s'))
    (hout : s.exitHandlers = []) (hfirst : ∀ entry ∈ first, Done pid entry.2)
    (hs : J (pid :: pending) (first ++ handlers) s) :
    (∀ entry ∈ first ++ handlers', Done pid entry.2) ∧
      J (pid :: pending) (first ++ handlers') s' := by
  induction handlers generalizing s first handlers' with
  | nil =>
      simp only [AgentScheduler.invokeAll, Option.some.injEq, Prod.mk.injEq] at hrun
      obtain ⟨rfl, rfl⟩ := hrun
      rw [List.append_nil] at hs ⊢
      exact ⟨hfirst, hs⟩
  | cons entry rest ih =>
      obtain ⟨id, handler⟩ := entry
      unfold AgentScheduler.invokeAll at hrun
      dsimp only at hrun
      split at hrun
      · contradiction
      · rename_i handler' middle hprog
        simp only [Option.map_eq_some_iff, Prod.mk.injEq] at hrun
        obtain ⟨⟨others, final⟩, hrest, rfl, rfl⟩ := hrun
        have hlogged : (s.log (.handlerInvoked id pid reason)).exitHandlers = [] := hout
        obtain ⟨hmiddle, hdone, hJ⟩ := h.handler hready hlogged (h.invoked id pid hs) hprog
        have hfirst' : ∀ entry ∈ first ++ [(id, handler')], Done pid entry.2 := by
          intro entry hentry
          rcases List.mem_append.mp hentry with hentry | hentry
          · exact hfirst entry hentry
          · rw [List.mem_singleton.mp hentry]
            exact hdone
        rw [List.append_cons] at hJ
        have hlast := ih hrest hmiddle hfirst' hJ
        rwa [← List.append_cons] at hlast

theorem runExitHandlers (h : HandlerRule code reason Ready Done J) {fuel : Nat}
    {pid : AgentPid} (hready : Ready pid)
    (hrun : s.runExitHandlers code (perform code.toBehaviorCode
      (AgentScheduler.terminateProcess code fuel)) pid reason = some s')
    (hs : J (pid :: pending) s.exitHandlers s) : J pending s'.exitHandlers s' := by
  unfold AgentScheduler.runExitHandlers at hrun
  split at hrun
  · rename_i hnone
    cases hrun
    apply h.handled _ hs
    rw [hnone]
    exact fun entry hentry => absurd hentry List.not_mem_nil
  · simp only [Option.map_eq_some_iff] at hrun
    obtain ⟨⟨handlers, middle⟩, hinvoke, rfl⟩ := hrun
    obtain ⟨hdone, hmiddle⟩ := h.invokeAll hready hinvoke rfl
      (fun entry hentry => absurd hentry List.not_mem_nil) (h.aside [] true hs)
    exact h.aside handlers _ (h.handled hdone hmiddle)

/-- By induction on the fuel: the cascade and the handlers run with less. -/
theorem terminateProcess (h : HandlerRule code reason Ready Done J) (pending : List AgentPid)
    {fuel : Nat} {pid : AgentPid} (hready : Ready pid)
    (hrun : AgentScheduler.terminateProcess code fuel s pid reason = some s')
    (hs : J pending s.exitHandlers s) : J pending s'.exitHandlers s' := by
  induction fuel generalizing s s' pid pending with
  | zero => contradiction
  | succ fuel ih =>
      have hdown := h.down hready hs
      have hcascade := h.cascade hready hs
      have hkept := takeDown_exitHandlers code.toBehaviorCode s pid reason
      unfold AgentScheduler.terminateProcess at hrun
      generalize s.takeDown code.toBehaviorCode pid reason = taken at *
      obtain ⟨pidsToCascade, down⟩ := taken
      simp only [Option.bind_eq_bind, Option.bind_eq_some_iff, Option.some.injEq] at hrun
      obtain ⟨cascaded, hcascaded, handled, hhandlers, rfl⟩ := hrun
      have hstart : J (pid :: pending) down.exitHandlers down := by
        rw [show down.exitHandlers = s.exitHandlers from hkept]
        exact hdown
      have hall : J (pid :: pending) cascaded.exitHandlers cascaded :=
        GuardedRun.foldlM_keeps pidsToCascade
          (fun _ q _ hq hstep hs => ih (pid :: pending) (hcascade q hq) hstep hs) hcascaded hstart
      have hended := h.runExitHandlers hready hhandlers hall
      obtain ⟨bridge, pendingDestroys, metrics, hfinish⟩ := finishTermination_cases handled pid
      have hlast := h.finish pid hended
      rw [hfinish] at hlast ⊢
      exact hlast

/-- A rule for every reason covers the calls, but for registrations of handlers. -/
theorem step (h : ∀ reason, HandlerRule code reason (fun _ => True) Done J)
    (hmove : ∀ {handlers s s'}, Move code.toBehaviorCode s s' → J [] handlers s →
      J [] handlers s') {fuel : Nat} {op : RunOp T}
    (hop : ∀ handler, op ≠ .call (.addExitHandler handler))
    (hstep : s.step code fuel op = some s') (hs : J [] s.exitHandlers s) :
    J [] s'.exitHandlers s' := by
  have hstable : Stable code.toBehaviorCode fun s => J [] s.exitHandlers s := by
    intro s s' hmoves hs
    rw [hmoves.lifeless.exitHandlers]
    exact hmove hmoves hs
  cases op with
  | call call =>
      obtain ⟨⟨reply, final⟩, hperform, rfl⟩ := Option.map_eq_some_iff.mp hstep
      exact hstable.perform (fun hrun hs => (h _).terminateProcess [] trivial hrun hs)
        (fun handler hcall _ => absurd (congrArg RunOp.call hcall) (hop handler)) hperform hs
  | worker workerStep =>
      cases hstep
      exact hstable.calm.bridge hs _
  | countersAdvance pids refs =>
      cases hstep
      exact hstable (.counters s pids refs) hs

end HandlerRule

/-! ## Without handlers -/

/-- Along links, through live processes that do not trap exits. -/
inductive LinkReaches (relations : AgentPid → Option Relations) (root : AgentPid) :
    AgentPid → Prop where
  | here : LinkReaches relations root root
  | along {p q : AgentPid} {knows free : Relations} (h : LinkReaches relations root p)
      (hp : relations p = some knows) (hlink : q ∈ knows.links) (hq : relations q = some free)
      (hfree : free.trapExit = false) : LinkReaches relations root q

/-- What terminations without handlers leave: the links reach whoever is gone. -/
structure Reduced (start : AgentScheduler T) (roots : List AgentPid) (s : AgentScheduler T) :
    Prop where
  nextPid : s.nextPid = start.nextPid
  kin : ∀ q, s.kin q = start.kin q ∨
    s.kin q = none ∧ ∃ root ∈ roots, LinkReaches start.relations root q

/-- The rule for terminations that begin with no handler in place. -/
theorem handlerRule_reduced (code : AgentCode T) (reason : Reason) (start : AgentScheduler T)
    (roots : List AgentPid) :
    HandlerRule code reason (fun q => ∃ root ∈ roots, LinkReaches start.relations root q)
      (fun _ _ => True) (fun _ handlers s => handlers = [] ∧ Reduced start roots s) where
  down {_ handlers s pid} hready h := by
    refine ⟨h.1, (nextPid_takeDown _ s pid reason).trans h.2.nextPid, fun q => ?_⟩
    rw [kin_takeDown]
    by_cases hq : q = pid
    · rw [if_pos hq]
      exact .inr ⟨rfl, hq ▸ hready⟩
    · rw [if_neg hq]
      exact h.2.kin q
  cascade {_ handlers s pid} hready h q hq := by
    obtain ⟨links, trap, others, hpid, hlink, hfree⟩ := mem_takeDown _ hq
    have hsame : ∀ {p links trap}, s.kin p = some (links, trap) →
        start.kin p = some (links, trap) := by
      intro p links trap hp
      rcases h.2.kin p with heq | ⟨hgone, _⟩
      · rw [← heq, hp]
      · rw [hgone] at hp
        contradiction
    obtain ⟨knows, hknows, rfl, _⟩ := relations_of_kin (hsame hpid)
    obtain ⟨free, hfrees, _, hnot⟩ := relations_of_kin (hsame hfree)
    obtain ⟨root, hroot, hreaches⟩ := hready
    exact ⟨root, hroot, hreaches.along hknows hlink hfrees hnot⟩
  aside _ _ h := ⟨h.1, h.2.nextPid, h.2.kin⟩
  invoked _ _ h := ⟨h.1, h.2.nextPid, h.2.kin⟩
  handler _ _ h := absurd h.1 (by simp)
  handled _ h := h
  finish {_ _ s} pid h := by
    obtain ⟨bridge, pendingDestroys, metrics, hfinish⟩ := finishTermination_cases s pid
    rw [hfinish]
    exact ⟨h.1, h.2.nextPid, h.2.kin⟩

/-- Several terminations, one after the other. -/
theorem reduced_foldlM {code : AgentCode T} {fuel : Nat} {roots : List AgentPid}
    {reason : Reason} {s s' : AgentScheduler T} (hout : s.exitHandlers = [])
    (hrun : roots.foldlM (fun s pid => s.terminateProcess code fuel pid reason) s = some s') :
    s'.exitHandlers = [] ∧ Reduced s roots s' := by
  have hrule := handlerRule_reduced code reason s roots
  have hstep : ∀ (first : AgentScheduler T) (pid : AgentPid) (second : AgentScheduler T),
      pid ∈ roots → first.terminateProcess code fuel pid reason = some second →
      first.exitHandlers = [] ∧ Reduced s roots first →
      second.exitHandlers = [] ∧ Reduced s roots second := by
    intro first pid second hpid hrun hfirst
    exact hrule.terminateProcess [] ⟨pid, hpid, .here⟩ hrun hfirst
  exact GuardedRun.foldlM_keeps roots hstep hrun ⟨hout, rfl, fun _ => .inl rfl⟩

end AgentScheduler

end Zeptobeam
