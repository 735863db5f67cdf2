/-
Exit handlers as they should be run: each removed process is owed to each handler that
is registered, and a handler is run for what it is owed.  The scheduler keeps to that
while nobody alive is terminated with the handlers out, nobody dead with handlers in
place, and no handler registers another.
-/
import Zeptobeam.PidHistory

namespace Zeptobeam

/-! ## The book of deaths -/

structure DeathBook where
  registered : List Nat
  owed : List (Nat × AgentPid)
  invoked : List (Nat × AgentPid)

namespace DeathBook

def empty : DeathBook := ⟨[], [], []⟩

/-- What the handlers are owed for a removed process. -/
def dues (ids : List Nat) (pid : AgentPid) : List (Nat × AgentPid) :=
  ids.map fun id => (id, pid)

def record (book : DeathBook) : Event → DeathBook
  | .handlerAdded id _ => { book with registered := book.registered ++ [id] }
  | .removed pid => { book with owed := book.owed ++ dues book.registered pid }
  | .handlerInvoked id pid _ => { book with invoked := book.invoked ++ [(id, pid)] }
  | _ => book

def ofTrace (trace : List Event) : DeathBook :=
  trace.foldl record empty

theorem record_of_not_life (book : DeathBook) {event : Event} (h : event.ofLife = false) :
    book.record event = book := by
  cases event with
  | terminating | removed | handlerAdded | handlerInvoked => contradiction
  | _ => rfl

theorem foldl_of_not_life (book : DeathBook) {events : List Event}
    (h : ∀ event ∈ events, event.ofLife = false) : events.foldl record book = book := by
  induction events with
  | nil => rfl
  | cons event rest ih =>
      rw [List.foldl_cons, record_of_not_life book (h event List.mem_cons_self)]
      exact ih fun other hother => h other (List.mem_cons_of_mem event hother)

theorem ofTrace_concat (trace : List Event) (event : Event) :
    ofTrace (trace ++ [event]) = (ofTrace trace).record event :=
  List.foldl_concat _ _ _ _

/-- Each handler was run once for each process it was owed, and for nobody else. -/
def Settled (book : DeathBook) : Prop :=
  book.invoked.Perm book.owed ∧ book.owed.Nodup

/-- Who is owed was removed, to a handler that is registered. -/
theorem mem_owed {trace : List Event} {id : Nat} {pid : AgentPid}
    (h : (id, pid) ∈ (ofTrace trace).owed) :
    id ∈ (ofTrace trace).registered ∧ pid ∈ removedPids trace := by
  induction trace using List.reverseRecOn with
  | nil => contradiction
  | append_singleton trace event ih =>
      rw [ofTrace_concat] at h ⊢
      rw [removedPids_append]
      cases event with
      | handlerAdded other out =>
          obtain ⟨hid, hpid⟩ := ih h
          exact ⟨List.mem_append_left _ hid, List.mem_append_left _ hpid⟩
      | removed other =>
          rcases List.mem_append.mp h with h | h
          · obtain ⟨hid, hpid⟩ := ih h
            exact ⟨hid, List.mem_append_left _ hpid⟩
          · obtain ⟨found, hfound, heq⟩ := List.mem_map.mp h
            obtain ⟨rfl, rfl⟩ := Prod.mk.inj heq
            exact ⟨hfound, List.mem_append_right _ List.mem_cons_self⟩
      | _ =>
          obtain ⟨hid, hpid⟩ := ih h
          exact ⟨hid, List.mem_append_left _ hpid⟩

/-- Where no pid is removed twice and no handler registered twice, nothing is owed
twice. -/
theorem owed_nodup {trace : List Event} (hremoved : (removedPids trace).Nodup)
    (hregistered : (ofTrace trace).registered.Nodup) : (ofTrace trace).owed.Nodup := by
  induction trace using List.reverseRecOn with
  | nil => exact List.nodup_nil
  | append_singleton trace event ih =>
      rw [removedPids_append] at hremoved
      rw [ofTrace_concat] at hregistered ⊢
      have hbefore := ih hremoved.of_append_left
      cases event with
      | handlerAdded other out => exact hbefore hregistered.of_append_left
      | removed pid =>
          apply (hbefore hregistered).append
          · exact hregistered.map fun _ _ heq => (Prod.mk.inj heq).1
          · intro due hdue hnew
            obtain ⟨id, _, rfl⟩ := List.mem_map.mp hnew
            exact List.disjoint_of_nodup_append hremoved (mem_owed hdue).2
              List.mem_cons_self
      | _ => exact hbefore hregistered

end DeathBook

/-- Nobody alive is terminated while the handlers are out, nobody dead while there are
some in place, and none is registered while they are out. -/
def Event.orderly : Event → Bool
  | .terminating _ live handlersOut noHandlers => if live then !handlersOut else noHandlers
  | .handlerAdded _ handlersOut => !handlersOut
  | _ => true

def Orderly (trace : List Event) : Prop :=
  ∀ event ∈ trace, event.orderly

theorem Orderly.of_append {trace events : List Event} (h : Orderly (trace ++ events)) :
    Orderly trace :=
  fun event hevent => h event (List.mem_append_left _ hevent)

theorem Orderly.of_prefix {trace trace' : List Event} (h : Orderly trace')
    (hearlier : trace <+: trace') : Orderly trace :=
  fun event hevent => h event (hearlier.subset hevent)

namespace AgentScheduler

variable {T : AgentTypes}

def deaths (s : AgentScheduler T) : DeathBook := .ofTrace s.trace

/-- With these handlers registered, in place or out, all that is owed was done but for
what is due. -/
structure Handling (out : Bool) (ids : List Nat) (due : List (Nat × AgentPid))
    (s : AgentScheduler T) : Prop where
  handlersOut : s.handlersOut = out
  exitHandlers : s.exitHandlers.map Prod.fst = if out then [] else ids
  registered : s.deaths.registered = ids
  owed : (s.deaths.invoked ++ due).Perm s.deaths.owed

/-- The invariant says something only while the trace is orderly. -/
def Handles (out : Bool) (ids : List Nat) (due : List (Nat × AgentPid))
    (s : AgentScheduler T) : Prop :=
  Orderly s.trace → Handling out ids due s

namespace Handles

variable {out : Bool} {ids : List Nat} {due : List (Nat × AgentPid)}
  {s s' : AgentScheduler T}

theorem lifeless (h : Handles out ids due s) (hmove : Lifeless s s') :
    Handles out ids due s' := by
  obtain ⟨events, htrace, hevents⟩ := hmove.trace
  intro horderly
  rw [htrace] at horderly
  obtain ⟨hout, hhandlers, hregistered, howed⟩ := h horderly.of_append
  have hdeaths : s'.deaths = s.deaths := by
    rw [deaths, htrace, DeathBook.ofTrace, List.foldl_append]
    exact DeathBook.foldl_of_not_life _ hevents
  refine ⟨hmove.handlersOut.trans hout, ?_, ?_, ?_⟩
  · rw [hmove.exitHandlers, hhandlers]
  · rw [hdeaths, hregistered]
  · rw [hdeaths]
    exact howed

theorem stable (code : BehaviorCode T) (out : Bool) (ids : List Nat)
    (due : List (Nat × AgentPid)) : Stable code (Handles out ids due) :=
  fun _ _ hmove h => h.lifeless hmove.lifeless

theorem notices (code : BehaviorCode T) (out : Bool) (ids : List Nat)
    (due : List (Nat × AgentPid)) : StableNotices code (Handles out ids due) where
  move := stable code out ids due
  dropMonitoredBy _ _ _ h := h.lifeless (.of_same rfl rfl rfl)
  dropMonitor _ _ _ h := h.lifeless (.of_same rfl rfl rfl)
  down {s} pid reason monitor h := by
    have hhanded : Lifeless s (s.log (.handed monitor.2
        (.system (.down monitor.1 pid reason)) (.monitor monitor.1 pid))) :=
      .of_event rfl rfl rfl rfl
    exact h.lifeless
      (hhanded.trans (messagesOnly_sendDown code pid reason s monitor).lifeless)

/-- An event is logged, and the book changes as it says. -/
theorem log {ids' : List Nat} {due' : List (Nat × AgentPid)} (h : Handles out ids due s)
    (event : Event)
    (hlog : event.orderly → Handling out ids due s → Handling out ids' due' (s.log event)) :
    Handles out ids' due' (s.log event) := by
  intro horderly
  exact hlog (horderly event (List.mem_append_right _ List.mem_cons_self))
    (h horderly.of_append)

theorem deaths_log (s : AgentScheduler T) (event : Event) :
    (s.log event).deaths = s.deaths.record event :=
  DeathBook.ofTrace_concat s.trace event

theorem terminating (h : Handles out ids due s) (pid : AgentPid)
    (live handlersOut noHandlers : Bool) :
    Handles out ids due (s.log (.terminating pid live handlersOut noHandlers)) := by
  apply h.log
  rintro _ ⟨hout, hhandlers, hregistered, howed⟩
  exact ⟨hout, hhandlers, by rw [deaths_log]; exact hregistered,
    by rw [deaths_log]; exact howed⟩

theorem removeProcess (h : Handles out ids due s) (pid : AgentPid)
    (hlive : (s.lookup pid).isSome) :
    Handles out ids (DeathBook.dues ids pid ++ due) (s.removeProcess pid) := by
  obtain ⟨proc, hproc⟩ := Option.isSome_iff_exists.mp hlive
  have hremoved : Handles out ids (DeathBook.dues ids pid ++ due) (s.log (.removed pid)) := by
    apply h.log
    rintro _ ⟨hout, hhandlers, hregistered, howed⟩
    refine ⟨hout, hhandlers, by rw [deaths_log]; exact hregistered, ?_⟩
    rw [deaths_log]
    change (s.deaths.invoked ++ _).Perm (s.deaths.owed ++ DeathBook.dues s.deaths.registered pid)
    rw [hregistered]
    calc (s.deaths.invoked ++ (DeathBook.dues ids pid ++ due)).Perm
            (s.deaths.invoked ++ (due ++ DeathBook.dues ids pid)) :=
          List.perm_append_comm.append_left _
      _ |>.Perm (s.deaths.owed ++ DeathBook.dues ids pid) := by
          rw [← List.append_assoc]
          exact howed.append_right _
  apply hremoved.lifeless
  refine ⟨⟨proc.mailbox.map fun msg => .discarded pid msg, ?_, ?_⟩, ?_, ?_⟩
  · rw [removeProcess_of_live hproc]
    exact List.append_cons _ _ _
  · intro event hevent
    obtain ⟨msg, _, rfl⟩ := List.mem_map.mp hevent
    rfl
  · rw [removeProcess_of_live hproc]
    rfl
  · rw [removeProcess_of_live hproc]
    rfl

/-- Taking down a live process makes it due to each handler. -/
theorem takeDown_of_live (h : Handles out ids due s) (code : BehaviorCode T)
    {pid : AgentPid} (hlive : (s.lookup pid).isSome) (reason : Reason) :
    Handles out ids (DeathBook.dues ids pid ++ due) (s.takeDown code pid reason).2 := by
  have hcancelled : Handles out ids due (s.cancel pid) :=
    h.lifeless (.of_same rfl rfl rfl)
  have hmarked := hcancelled.terminating pid (s.lookup pid).isSome s.handlersOut
    s.exitHandlers.isEmpty
  exact (notices code out ids _).notifyRelations (hmarked.removeProcess pid hlive) pid
    reason _ _ _

/-- A termination of nobody says whether there were handlers in place. -/
theorem takeDown_of_dead (h : Handles out ids due s) (code : BehaviorCode T)
    {pid : AgentPid} (hdead : s.lookup pid = none) (reason : Reason) :
    Handles out ids due (s.takeDown code pid reason).2 := by
  rw [AgentScheduler.takeDown_of_dead code hdead reason]
  have hcancelled : Handles out ids due (s.cancel pid) :=
    h.lifeless (.of_same rfl rfl rfl)
  exact hcancelled.terminating pid false s.handlersOut s.exitHandlers.isEmpty

theorem invoke {id : Nat} {pid : AgentPid}
    (h : Handles true ids ((id, pid) :: due) s) (reason : Reason) :
    Handles true ids due (s.log (.handlerInvoked id pid reason)) := by
  apply h.log
  rintro _ ⟨hout, hhandlers, hregistered, howed⟩
  refine ⟨hout, hhandlers, by rw [deaths_log]; exact hregistered, ?_⟩
  rw [deaths_log]
  change (s.deaths.invoked ++ [(id, pid)] ++ due).Perm s.deaths.owed
  rwa [List.append_assoc]

/-- A handler registers nobody in an orderly trace. -/
theorem addExitHandler (h : Handles true ids due s) (handler : T.Handler) :
    Handles true ids due (s.addExitHandler handler) := by
  intro horderly
  have hadded := horderly _ (List.mem_append_right _ List.mem_cons_self)
  have hout := (h horderly.of_append).handlersOut
  rw [Event.orderly, hout] at hadded
  contradiction

/-- The handlers pay what is due to them one after the other. -/
theorem invokeAll {code : AgentCode T}
    {call : AgentScheduler T → Call T → Option (Reply × AgentScheduler T)}
    (hcall : ∀ {due s s' c reply}, call s c = some (reply, s') → Handles true ids due s →
      Handles true ids due s') {pid : AgentPid} {reason : Reason}
    {handlers handlers' : List (Nat × T.Handler)}
    (hrun : AgentScheduler.invokeAll code call pid reason handlers s = some (handlers', s'))
    (h : Handles true ids (DeathBook.dues (handlers.map Prod.fst) pid ++ due) s) :
    Handles true ids due s' ∧ handlers'.map Prod.fst = handlers.map Prod.fst := by
  induction handlers generalizing s handlers' with
  | nil =>
      simp only [AgentScheduler.invokeAll, Option.some.injEq, Prod.mk.injEq] at hrun
      obtain ⟨rfl, rfl⟩ := hrun
      exact ⟨h, rfl⟩
  | cons entry rest ih =>
      obtain ⟨id, handler⟩ := entry
      unfold AgentScheduler.invokeAll at hrun
      dsimp only at hrun
      split at hrun
      · contradiction
      · rename_i ended middle hprog
        simp only [Option.map_eq_some_iff, Prod.mk.injEq] at hrun
        obtain ⟨⟨others, final⟩, hrest, rfl, rfl⟩ := hrun
        have hinvoked := h.invoke reason
        have hmiddle := Calm.runProg (fun hperform => hcall hperform) hprog hinvoked
        obtain ⟨hfinal, hids⟩ := ih hrest hmiddle
        exact ⟨hfinal, congrArg (id :: ·) hids⟩

/-- Handlers in place are taken out, run, and put back. -/
theorem runExitHandlers {code : AgentCode T} {fuel : Nat}
    (hterminate : ∀ {due s s' pid reason},
      AgentScheduler.terminateProcess code fuel s pid reason = some s' →
        Handles true ids due s → Handles true ids due s')
    {pid : AgentPid} {reason : Reason}
    (hrun : s.runExitHandlers code (perform code.toBehaviorCode
      (AgentScheduler.terminateProcess code fuel)) pid reason = some s')
    (h : Handles false ids (DeathBook.dues ids pid ++ due) s) : Handles false ids due s' := by
  have hcall : ∀ {due : List (Nat × AgentPid)} {s s' : AgentScheduler T} {c : Call T}
      {reply : Reply}, s.perform code.toBehaviorCode
        (AgentScheduler.terminateProcess code fuel) c = some (reply, s') →
      Handles true ids due s → Handles true ids due s' :=
    fun hperform h => (stable code.toBehaviorCode true ids _).perform hterminate
      (fun handler _ h => h.addExitHandler handler) hperform h
  unfold AgentScheduler.runExitHandlers at hrun
  split at hrun
  · cases hrun
    rename_i hnone
    intro horderly
    obtain ⟨hout, hhandlers, hregistered, howed⟩ := h horderly
    obtain rfl : [] = ids := by simpa [hnone] using hhandlers
    exact ⟨hout, hhandlers, hregistered, howed⟩
  · simp only [Option.map_eq_some_iff] at hrun
    obtain ⟨⟨handlers, middle⟩, hinvoke, rfl⟩ := hrun
    have htaken : Handles true ids
        (DeathBook.dues (s.exitHandlers.map Prod.fst) pid ++ due)
        { s with exitHandlers := [], handlersOut := true } := by
      intro horderly
      obtain ⟨_, hhandlers, hregistered, howed⟩ := h horderly
      rw [show s.exitHandlers.map Prod.fst = ids from hhandlers]
      exact ⟨rfl, rfl, hregistered, howed⟩
    obtain ⟨hmiddle, hids⟩ := invokeAll hcall hinvoke htaken
    have htrace := stableRun_trace code s.trace
    have hgrown : s.trace <+: middle.trace :=
      invokeAll_keeps htrace.handlerInvoked
        (fun hperform h => htrace.move.perform htrace.terminateProcess
          (fun handler _ => htrace.addExitHandler handler) hperform h)
        hinvoke List.prefix_rfl
    intro horderly
    obtain ⟨_, _, hregistered, howed⟩ := hmiddle horderly
    have hstart := h (horderly.of_prefix hgrown)
    exact ⟨hstart.handlersOut, hids.trans hstart.exitHandlers, hregistered, howed⟩

/-- A termination pays what it makes due, by induction on the fuel. -/
theorem terminateProcess {code : AgentCode T} {fuel : Nat} {pid : AgentPid}
    {reason : Reason} (hrun : AgentScheduler.terminateProcess code fuel s pid reason = some s')
    (h : Handles out ids due s) : Handles out ids due s' := by
  induction fuel generalizing out ids due s s' pid reason with
  | zero => contradiction
  | succ fuel ih =>
      unfold AgentScheduler.terminateProcess at hrun
      have hgrown := takeDown_grows code.toBehaviorCode s pid reason
      have hlive : (s.lookup pid).isSome → Handles out ids (DeathBook.dues ids pid ++ due)
          (s.takeDown code.toBehaviorCode pid reason).2 :=
        fun hlive => h.takeDown_of_live code.toBehaviorCode hlive reason
      have hdead : s.lookup pid = none → Handles out ids due
            (s.takeDown code.toBehaviorCode pid reason).2 ∧
          (s.takeDown code.toBehaviorCode pid reason).1 = [] ∧
          (s.takeDown code.toBehaviorCode pid reason).2.exitHandlers = s.exitHandlers := by
        intro hdead
        refine ⟨h.takeDown_of_dead code.toBehaviorCode hdead reason, ?_, ?_⟩
        · rw [AgentScheduler.takeDown_of_dead code.toBehaviorCode hdead reason]
        · rw [AgentScheduler.takeDown_of_dead code.toBehaviorCode hdead reason]
          rfl
      generalize s.takeDown code.toBehaviorCode pid reason = taken at hrun hlive hdead hgrown
      obtain ⟨pidsToCascade, down⟩ := taken
      simp only [Option.bind_eq_bind, Option.bind_eq_some_iff, Option.some.injEq] at hrun
      obtain ⟨cascaded, hcascade, handled, hhandlers, rfl⟩ := hrun
      obtain ⟨bridge, pendingDestroys, metrics, hfinish⟩ := finishTermination_cases handled pid
      have hlast : Lifeless handled (handled.finishTermination pid) := by
        rw [hfinish]
        exact .of_same rfl rfl rfl
      have htraces := stableRun_trace code down.trace
      have hgrows : down.trace <+: handled.trace :=
        htraces.runExitHandlers
          (fun hperform h => htraces.move.perform htraces.terminateProcess
            (fun handler _ => htraces.addExitHandler handler) hperform h) hhandlers
          (GuardedRun.foldlM_keeps pidsToCascade
            (fun _ _ _ _ hfirst h => htraces.terminateProcess hfirst h) hcascade
            List.prefix_rfl)
      suffices hhandled : Handles out ids due handled from hhandled.lifeless hlast
      intro horderly
      have hmark := horderly.of_prefix (hgrown.trans hgrows)
      have hstart := h hmark.of_append
      have hevent := hmark _ (List.mem_append_right _ List.mem_cons_self)
      cases hproc : s.lookup pid with
      | some proc =>
          rw [hproc] at hlive hevent
          have hcascaded : Handles out ids (DeathBook.dues ids pid ++ due) cascaded :=
            GuardedRun.foldlM_keeps pidsToCascade (fun _ _ _ _ hfirst h => ih hfirst h)
              hcascade (hlive rfl)
          cases out with
          | false => exact hcascaded.runExitHandlers ih hhandlers horderly
          | true =>
              rw [hstart.handlersOut] at hevent
              contradiction
      | none =>
          rw [hproc] at hevent
          obtain ⟨hdown, hcascades, hkept⟩ := hdead hproc
          have hnone : down.exitHandlers = [] := hkept.trans (List.isEmpty_iff.mp hevent)
          obtain rfl : down = cascaded := by
            simpa [show pidsToCascade = [] from hcascades] using hcascade
          rw [AgentScheduler.runExitHandlers, if_pos hnone, Option.some.injEq] at hhandlers
          exact (hhandlers ▸ hdown) horderly

end Handles

/-! ## Runs -/

/-- The handlers are in place, numbered as they were registered, and nothing is due. -/
def Handled (s : AgentScheduler T) : Prop :=
  ∃ n, Handles false (List.range n) [] s

theorem length_registered (trace : List Event) :
    (DeathBook.ofTrace trace).registered.length = trace.countP fun event => match event with
      | .handlerAdded _ _ => true
      | _ => false := by
  induction trace using List.reverseRecOn with
  | nil => rfl
  | append_singleton trace event ih =>
      rw [DeathBook.ofTrace_concat, List.countP_append, List.countP_singleton, ← ih]
      cases event with
      | handlerAdded id out => exact List.length_append
      | _ => rfl

theorem addExitHandler_eq (s : AgentScheduler T) (handler : T.Handler) :
    s.addExitHandler handler =
      { s with exitHandlers :=
          s.exitHandlers ++ [(s.deaths.registered.length, handler)] }.log
        (.handlerAdded s.deaths.registered.length s.handlersOut) := by
  rw [deaths, length_registered]
  rfl

namespace Handled

variable {s s' : AgentScheduler T}

theorem new (bridge : Option Bridge) (hook : Option T.Hook) (routing : Bool)
    (nextPid nextMonitorRef : Nat) :
    (new bridge hook routing nextPid nextMonitorRef : AgentScheduler T).Handled :=
  ⟨0, fun _ => ⟨rfl, rfl, rfl, .refl _⟩⟩

theorem addExitHandler (h : s.Handled) (handler : T.Handler) :
    (s.addExitHandler handler).Handled := by
  obtain ⟨n, hs⟩ := h
  refine ⟨n + 1, fun horderly => ?_⟩
  obtain ⟨hout, hhandlers, hregistered, howed⟩ := hs horderly.of_append
  have hrange : List.range (n + 1) = List.range n ++ [n] := List.range_succ
  rw [addExitHandler_eq, hregistered, List.length_range]
  refine ⟨hout, ?_, ?_, ?_⟩
  · rw [hrange]
    change (s.exitHandlers ++ [(n, handler)]).map Prod.fst = _
    rw [List.map_append, hhandlers]
    rfl
  · rw [Handles.deaths_log, hrange]
    exact congrArg (· ++ [n]) hregistered
  · rw [Handles.deaths_log]
    exact howed

theorem step {code : AgentCode T} {fuel : Nat} {op : RunOp T} (h : s.Handled)
    (hstep : s.step code fuel op = some s') : s'.Handled := by
  have hstable : Stable code.toBehaviorCode (Handled (T := T)) :=
    fun _ _ hmove ⟨n, hs⟩ => ⟨n, hs.lifeless hmove.lifeless⟩
  cases op with
  | call call =>
      obtain ⟨⟨reply, final⟩, hperform, rfl⟩ := Option.map_eq_some_iff.mp hstep
      exact hstable.perform (fun hrun ⟨n, hs⟩ => ⟨n, hs.terminateProcess hrun⟩)
        (fun handler _ h => h.addExitHandler handler) hperform h
  | worker workerStep =>
      cases hstep
      exact hstable.calm.bridge h _
  | countersAdvance pids refs =>
      cases hstep
      exact hstable (.counters s pids refs) h

theorem of_reachable {code : AgentCode T} (h : Reachable code s) : s.Handled := by
  obtain ⟨bridge, hook, routing, nextPid, nextMonitorRef, ops, hrun⟩ := h
  exact GuardedRun.foldlM_keeps ops (fun _ _ _ _ hstep h => h.step hstep) hrun
    (.new bridge hook routing nextPid nextMonitorRef)

end Handled

/-- In every run whose terminations are orderly, each registered handler was run exactly
once for each process that was removed, and for nobody else. -/
theorem deaths_settled_of_orderly {code : AgentCode T} {s : AgentScheduler T}
    (h : Reachable code s) (horderly : Orderly s.trace) : s.deaths.Settled := by
  obtain ⟨n, hs⟩ := Handled.of_reachable h
  obtain ⟨_, _, hregistered, howed⟩ := hs horderly
  refine ⟨by simpa using howed, ?_⟩
  apply DeathBook.owed_nodup (removedPids_nodup h)
  rw [show (DeathBook.ofTrace s.trace).registered = _ from hregistered]
  exact List.nodup_range

/-- Two linked processes under one handler. -/
theorem deaths_settled_of_orderly_pair :
    ∃ s, run plainCode (new none none false 1 1)
        [(0, .call (.spawn () .null)), (0, .call (.spawn () .null)), (0, .call (.link 1 2)),
          (0, .call (.addExitHandler ())), (3, .call (.terminateProcess 1 .shutdown))] =
        some s ∧
      s.deaths.invoked = [(0, 2), (0, 1)] ∧ s.deaths.Settled := by
  have hrun : (run plainCode (new none none false 1 1)
      [(0, .call (.spawn () .null)), (0, .call (.spawn () .null)), (0, .call (.link 1 2)),
        (0, .call (.addExitHandler ())), (3, .call (.terminateProcess 1 .shutdown))]).map
      (fun s => (s.deaths.invoked, s.trace.all Event.orderly)) =
      some ([(0, 2), (0, 1)], true) := by
    decide
  obtain ⟨s, hs, hshape⟩ := Option.map_eq_some_iff.mp hrun
  obtain ⟨hinvoked, horderly⟩ := Prod.mk.inj hshape
  exact ⟨s, hs, hinvoked,
    deaths_settled_of_orderly ⟨none, none, false, 1, 1, _, hs⟩ (List.all_eq_true.mp horderly)⟩

/-- In a triangle of links the third process dies in the second one's cascade, and the
handler is run for it again in the first one's. -/
theorem triangle_not_settled :
    ∃ s, run plainCode (new none none false 1 1)
        [(0, .call (.spawn () .null)), (0, .call (.spawn () .null)),
          (0, .call (.spawn () .null)), (0, .call (.link 1 2)), (0, .call (.link 2 3)),
          (0, .call (.link 1 3)), (0, .call (.addExitHandler ())),
          (4, .call (.terminateProcess 1 .shutdown))] = some s ∧
      s.deaths.invoked = [(0, 3), (0, 2), (0, 3), (0, 1)] ∧ ¬ s.deaths.Settled := by
  have hrun : (run plainCode (new none none false 1 1)
      [(0, .call (.spawn () .null)), (0, .call (.spawn () .null)),
        (0, .call (.spawn () .null)), (0, .call (.link 1 2)), (0, .call (.link 2 3)),
        (0, .call (.link 1 3)), (0, .call (.addExitHandler ())),
        (4, .call (.terminateProcess 1 .shutdown))]).map
      (fun s => (s.deaths.invoked, s.deaths.owed)) =
      some ([(0, 3), (0, 2), (0, 3), (0, 1)], [(0, 1), (0, 2), (0, 3)]) := by
    decide
  obtain ⟨s, hs, hshape⟩ := Option.map_eq_some_iff.mp hrun
  obtain ⟨hinvoked, howed⟩ := Prod.mk.inj hshape
  refine ⟨s, hs, hinvoked, fun hsettled => ?_⟩
  have hlength := hsettled.1.length_eq
  rw [hinvoked, howed] at hlength
  exact absurd hlength (by decide)

end AgentScheduler

end Zeptobeam
