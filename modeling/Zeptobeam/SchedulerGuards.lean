/-
Runs of the scheduler that stop at a call which a guard refuses, whoever makes it:
the caller of the scheduler or an exit handler.  Such a run that does not stop is a
run, and what its calls keep under the guard is kept by it.
-/
import Zeptobeam.SchedulerMoves

namespace Zeptobeam

namespace AgentScheduler

variable {T : AgentTypes}

abbrev CallGuard (T : AgentTypes) := AgentScheduler T → Call T → Bool

def guarded (guard : CallGuard T)
    (call : AgentScheduler T → Call T → Option (Reply × AgentScheduler T))
    (s : AgentScheduler T) (c : Call T) : Option (Reply × AgentScheduler T) :=
  if guard s c then call s c else none

/-- `terminateProcess`, where a call of an exit handler may be refused. -/
def guardedTerminate (guard : CallGuard T) (code : AgentCode T) :
    Nat → AgentScheduler T → AgentPid → Reason → Option (AgentScheduler T)
  | 0, _, _, _ => none
  | fuel + 1, s, pid, reason => do
      let (pidsToCascade, s) := s.takeDown code.toBehaviorCode pid reason
      let s ← pidsToCascade.foldlM
        (fun s cascade => guardedTerminate guard code fuel s cascade reason) s
      let s ← s.runExitHandlers code
        (guarded guard (perform code.toBehaviorCode (guardedTerminate guard code fuel)))
        pid reason
      some (s.finishTermination pid)

def guardedStep (guard : CallGuard T) (code : AgentCode T) (fuel : Nat)
    (s : AgentScheduler T) : RunOp T → Option (AgentScheduler T)
  | .call call =>
      (guarded guard (perform code.toBehaviorCode (guardedTerminate guard code fuel)) s
        call).map Prod.snd
  | op => s.step code fuel op

def guardedRun (guard : CallGuard T) (code : AgentCode T) (s : AgentScheduler T)
    (ops : List (Nat × RunOp T)) : Option (AgentScheduler T) :=
  ops.foldlM (fun s op => s.guardedStep guard code op.1 op.2) s

/-! ## A guarded run is a run -/

section Terminates

variable {code : BehaviorCode T}
  {terminate terminate' : AgentScheduler T → AgentPid → Reason → Option (AgentScheduler T)}
  {s s' : AgentScheduler T}

theorem runProcess_mono
    (hterminate : ∀ {s s' pid reason}, terminate s pid reason = some s' →
      terminate' s pid reason = some s')
    {pid : AgentPid} (h : s.runProcess code terminate pid = some s') :
    s.runProcess code terminate' pid = some s' := by
  unfold runProcess at h ⊢
  dsimp only at h ⊢
  generalize dispatch code pid (defaultReductions + 1) _ Deferred.none = result at h ⊢
  cases hstop : result.2.shouldStop with
  | none => simpa only [hstop] using h
  | some reason =>
      simp only [hstop] at h ⊢
      exact hterminate h

theorem tick_mono
    (hterminate : ∀ {s s' pid reason}, terminate s pid reason = some s' →
      terminate' s pid reason = some s')
    {now : Nat} {order : PidOrder T} {result : Bool × AgentScheduler T}
    (h : s.tick code terminate now order = some result) :
    s.tick code terminate' now order = some result := by
  unfold tick at h ⊢
  dsimp only at h ⊢
  generalize selectRunnable _ _ = picked at h ⊢
  obtain ⟨pid, selected⟩ := picked
  cases pid with
  | none => exact h
  | some pid =>
      simp only [Option.map_eq_some_iff] at h ⊢
      obtain ⟨final, hrun, hresult⟩ := h
      exact ⟨final, runProcess_mono hterminate hrun, hresult⟩

theorem foldlM_mono {S α : Type} {f g : S → α → Option S} (hfg : ∀ {s a s'}, f s a = some s' →
    g s a = some s') (items : List α) {s s' : S} (h : items.foldlM f s = some s') :
    items.foldlM g s = some s' := by
  induction items generalizing s with
  | nil => exact h
  | cons item rest ih =>
      simp only [List.foldlM_cons, Option.bind_eq_bind, Option.bind_eq_some_iff] at h ⊢
      obtain ⟨next, hitem, hrest⟩ := h
      exact ⟨next, hfg hitem, ih hrest⟩

theorem gracefulShutdown_mono
    (hterminate : ∀ {s s' pid reason}, terminate s pid reason = some s' →
      terminate' s pid reason = some s')
    {workers : List Bridge.WorkerStep} {order : PidOrder T}
    (h : s.gracefulShutdown code terminate workers order = some s') :
    s.gracefulShutdown code terminate' workers order = some s' := by
  simp only [gracefulShutdown, Option.bind_eq_bind, Option.bind_eq_some_iff] at h ⊢
  obtain ⟨ended, hwalk, hresult⟩ := h
  refine ⟨ended, foldlM_mono ?_ _ hwalk, hresult⟩
  intro s pid s' hpid
  split at hpid
  · rename_i hlive
    rw [if_pos hlive]
    exact hterminate hpid
  · rename_i hdead
    rw [if_neg hdead]
    exact hpid

theorem perform_mono
    (hterminate : ∀ {s s' pid reason}, terminate s pid reason = some s' →
      terminate' s pid reason = some s')
    {c : Call T} {result : Reply × AgentScheduler T}
    (h : s.perform code terminate c = some result) :
    s.perform code terminate' c = some result := by
  cases c with
  | gracefulShutdown workers order =>
      simp only [perform, Option.map_eq_some_iff] at h ⊢
      obtain ⟨final, hshutdown, hresult⟩ := h
      exact ⟨final, gracefulShutdown_mono hterminate hshutdown, hresult⟩
  | terminateProcess pid reason =>
      simp only [perform, Option.map_eq_some_iff] at h ⊢
      obtain ⟨final, hrun, hresult⟩ := h
      exact ⟨final, hterminate hrun, hresult⟩
  | tick now order =>
      simp only [perform, Option.map_eq_some_iff] at h ⊢
      obtain ⟨final, htick, hresult⟩ := h
      exact ⟨final, tick_mono hterminate htick, hresult⟩
  | _ => exact h

end Terminates

section Calls

variable {code : AgentCode T} {s s' : AgentScheduler T}
  {call call' : AgentScheduler T → Call T → Option (Reply × AgentScheduler T)}

theorem runProg_mono (hcall : ∀ {s c result}, call s c = some result → call' s c = some result)
    {prog : HandlerProg T} {result : T.Handler × AgentScheduler T}
    (h : runProg call prog s = some result) : runProg call' prog s = some result := by
  induction prog generalizing s with
  | done handler => exact h
  | call c next ih =>
      unfold runProg at h ⊢
      split at h
      · contradiction
      · rename_i reply middle hfirst
        rw [hcall hfirst]
        exact ih reply middle h

theorem invokeAll_mono
    (hcall : ∀ {s c result}, call s c = some result → call' s c = some result)
    {pid : AgentPid} {reason : Reason} {handlers : List (Nat × T.Handler)}
    {result : List (Nat × T.Handler) × AgentScheduler T}
    (h : invokeAll code call pid reason handlers s = some result) :
    invokeAll code call' pid reason handlers s = some result := by
  induction handlers generalizing s result with
  | nil => exact h
  | cons entry rest ih =>
      obtain ⟨id, handler⟩ := entry
      unfold invokeAll at h ⊢
      dsimp only at h ⊢
      split at h
      · contradiction
      · rename_i ended middle hprog
        rw [runProg_mono hcall hprog]
        simp only [Option.map_eq_some_iff] at h ⊢
        obtain ⟨others, hrest, hresult⟩ := h
        exact ⟨others, ih hrest, hresult⟩

theorem runExitHandlers_mono
    (hcall : ∀ {s c result}, call s c = some result → call' s c = some result)
    {pid : AgentPid} {reason : Reason}
    (h : s.runExitHandlers code call pid reason = some s') :
    s.runExitHandlers code call' pid reason = some s' := by
  unfold runExitHandlers at h ⊢
  split
  · rename_i hnone
    rwa [if_pos hnone] at h
  · rename_i hsome
    rw [if_neg hsome] at h
    simp only [Option.map_eq_some_iff] at h ⊢
    obtain ⟨result, hinvoke, hresult⟩ := h
    exact ⟨result, invokeAll_mono hcall hinvoke, hresult⟩

end Calls

section Runs

variable {guard : CallGuard T} {code : AgentCode T} {s s' : AgentScheduler T}

theorem perform_of_guarded
    {terminate terminate' : AgentScheduler T → AgentPid → Reason → Option (AgentScheduler T)}
    (hterminate : ∀ {s s' pid reason}, terminate s pid reason = some s' →
      terminate' s pid reason = some s')
    {c : Call T} {result : Reply × AgentScheduler T}
    (h : guarded guard (perform code.toBehaviorCode terminate) s c = some result) :
    s.perform code.toBehaviorCode terminate' c = some result := by
  unfold guarded at h
  split at h
  · exact perform_mono hterminate h
  · contradiction

theorem terminate_of_guarded {fuel : Nat} {pid : AgentPid} {reason : Reason}
    (h : guardedTerminate guard code fuel s pid reason = some s') :
    terminateProcess code fuel s pid reason = some s' := by
  induction fuel generalizing s s' pid reason with
  | zero => contradiction
  | succ fuel ih =>
      simp only [guardedTerminate, terminateProcess, Option.bind_eq_bind,
        Option.bind_eq_some_iff] at h ⊢
      obtain ⟨cascaded, hcascade, handled, hhandlers, hresult⟩ := h
      exact ⟨cascaded, foldlM_mono ih _ hcascade, handled,
        runExitHandlers_mono (perform_of_guarded ih) hhandlers, hresult⟩

theorem step_of_guarded {fuel : Nat} {op : RunOp T}
    (h : s.guardedStep guard code fuel op = some s') : s.step code fuel op = some s' := by
  cases op with
  | call c =>
      simp only [guardedStep, step, Option.map_eq_some_iff] at h ⊢
      obtain ⟨result, hcall, hresult⟩ := h
      exact ⟨result, perform_of_guarded terminate_of_guarded hcall, hresult⟩
  | worker workerStep => exact h
  | countersAdvance pids refs => exact h

theorem run_of_guarded {ops : List (Nat × RunOp T)}
    (h : s.guardedRun guard code ops = some s') : s.run code ops = some s' :=
  foldlM_mono step_of_guarded ops h

/-- A first part of a guarded run is one. -/
theorem guardedRun_prefix {pre ops : List (Nat × RunOp T)} (hpre : pre <+: ops)
    (h : s.guardedRun guard code ops = some s') :
    ∃ middle, s.guardedRun guard code pre = some middle := by
  obtain ⟨rest, rfl⟩ := hpre
  rw [guardedRun, List.foldlM_append, Option.bind_eq_bind, Option.bind_eq_some_iff] at h
  obtain ⟨middle, hmiddle, -⟩ := h
  exact ⟨middle, hmiddle⟩

/-! ## What guarded runs keep -/

/-- A property kept by the moves that leave the names alone, by terminations up to the
cascade, by what exit handlers need, and by the guarded calls about names. -/
structure GuardKeeps (guard : CallGuard T) (code : AgentCode T)
    (Inv : AgentScheduler T → Prop) : Prop where
  move : Calm code.toBehaviorCode Inv
  takeDown : ∀ {s} pid reason, Inv s → Inv (s.takeDown code.toBehaviorCode pid reason).2
  handlers : ∀ {s} exitHandlers handlersOut, Inv s →
    Inv { s with exitHandlers, handlersOut }
  handlerAdded : ∀ {s} id handlersOut, Inv s → Inv (s.log (.handlerAdded id handlersOut))
  handlerInvoked : ∀ {s} id pid reason, Inv s →
    Inv (s.log (.handlerInvoked id pid reason))
  registered : ∀ {s name pid registry}, guard s (.registerName name pid) →
    s.registry.registerName name pid = .ok registry → Inv s → Inv { s with registry }
  unregistered : ∀ {s} name, Inv s →
    Inv { s with registry := s.registry.unregisterName name }

namespace GuardKeeps

variable {Inv : AgentScheduler T → Prop}

theorem call (h : GuardKeeps guard code Inv)
    {terminate : AgentScheduler T → AgentPid → Reason → Option (AgentScheduler T)}
    (hterminate : ∀ {s s' pid reason}, terminate s pid reason = some s' → Inv s → Inv s')
    {c : Call T} {reply : Reply}
    (hcall : guarded guard (perform code.toBehaviorCode terminate) s c = some (reply, s'))
    (hs : Inv s) : Inv s' := by
  unfold guarded at hcall
  split at hcall
  · rename_i hguard
    refine h.move.perform hterminate ?_ ?_ ?_ hcall hs
    · intro s handler _ hs
      exact h.handlerAdded _ _ (h.handlers _ s.handlersOut hs)
    · rintro name pid registry rfl hregister
      exact h.registered hguard hregister hs
    · intro name _
      exact h.unregistered name hs
  · contradiction

/-- By induction on the fuel. -/
theorem terminate (h : GuardKeeps guard code Inv) {fuel : Nat} {pid : AgentPid}
    {reason : Reason} (hrun : guardedTerminate guard code fuel s pid reason = some s')
    (hs : Inv s) : Inv s' := by
  induction fuel generalizing s s' pid reason with
  | zero => contradiction
  | succ fuel ih =>
      simp only [guardedTerminate, Option.bind_eq_bind, Option.bind_eq_some_iff,
        Option.some.injEq] at hrun
      obtain ⟨cascaded, hcascade, handled, hhandlers, rfl⟩ := hrun
      have hcascaded : Inv cascaded :=
        GuardedRun.foldlM_keeps _ (fun _ _ _ _ hfirst hs => ih hfirst hs) hcascade
          (h.takeDown pid reason hs)
      have hhandled := runExitHandlers_keeps h.handlers h.handlerInvoked (h.call ih) hhandlers
        hcascaded
      exact h.move.finishTermination hhandled pid

theorem run (h : GuardKeeps guard code Inv) {ops : List (Nat × RunOp T)}
    (hrun : s.guardedRun guard code ops = some s') (hs : Inv s) : Inv s' := by
  refine GuardedRun.foldlM_keeps ops ?_ hrun hs
  intro s op s' _ hstep hs
  obtain ⟨fuel, op⟩ := op
  cases op with
  | call c =>
      simp only [guardedStep, Option.map_eq_some_iff] at hstep
      obtain ⟨⟨reply, final⟩, hcall, rfl⟩ := hstep
      exact h.call h.terminate hcall hs
  | worker workerStep =>
      simp only [guardedStep, step, Option.some.injEq] at hstep
      exact hstep ▸ h.move.bridge hs _
  | countersAdvance pids refs =>
      simp only [guardedStep, step, Option.some.injEq] at hstep
      exact hstep ▸ h.move (.counters s pids refs) rfl hs

end GuardKeeps

end Runs

end AgentScheduler

end Zeptobeam
