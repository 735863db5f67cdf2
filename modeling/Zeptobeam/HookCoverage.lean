/-
Every run of a scheduler with a message hook leaves a trace that the hook's automaton
reads: what `send` places, the hook has just accepted.  The same holds of each
partition of a cluster.
-/
import Zeptobeam.HookLog
import Zeptobeam.Cluster

namespace Zeptobeam

namespace AgentScheduler

variable {T : AgentTypes}

/-- While the hook was not cleared it is there, and the automaton has read the trace up
to the message that waits for its place. -/
def Hooked (waiting : Option (AgentPid × Message)) (s : AgentScheduler T) : Prop :=
  .hookCleared ∉ s.trace → s.messageHook.isSome ∧ hookScan s.trace = some waiting

/-- An event the automaton passes over while nobody waits. -/
def passes (event : Event) : Prop :=
  event.acceptance = none ∧ event.placement = none

namespace Hooked

variable {s s' : AgentScheduler T}

theorem new (bridge : Option Bridge) (hook : T.Hook) (routing : Bool)
    (nextPid nextMonitorRef : Nat) :
    Hooked none (new bridge (some hook) routing nextPid nextMonitorRef :
      AgentScheduler T) :=
  fun _ => ⟨rfl, rfl⟩

theorem foldlM_passes {events : List Event} (h : ∀ event ∈ events, passes event) :
    events.foldlM hookStep none = some none := by
  induction events with
  | nil => rfl
  | cons event rest ih =>
      obtain ⟨haccepted, hplaced⟩ := h event List.mem_cons_self
      have hstep : hookStep none event = some none :=
        hookStep_eq_some.mpr (.inl ⟨rfl, hplaced, haccepted⟩)
      rw [List.foldlM_cons, hstep]
      exact ih fun other hother => h other (List.mem_cons_of_mem event hother)

/-- Nothing is offered and nothing placed. -/
theorem pass (h : Hooked none s) {events : List Event}
    (htrace : s'.trace = s.trace ++ events) (hevents : ∀ event ∈ events, passes event)
    (hhook : s.messageHook.isSome → .hookCleared ∉ events → s'.messageHook.isSome) :
    Hooked none s' := by
  intro hkept
  rw [htrace, List.mem_append, not_or] at hkept
  obtain ⟨hsome, hscan⟩ := h hkept.1
  refine ⟨hhook hsome hkept.2, ?_⟩
  rw [htrace, hookScan_append, hscan]
  exact foldlM_passes hevents

theorem congr {waiting : Option (AgentPid × Message)} (h : Hooked waiting s)
    (htrace : s'.trace = s.trace) (hhook : s'.messageHook = s.messageHook) :
    Hooked waiting s' := by
  rw [Hooked, htrace, hhook]
  exact h

theorem log (h : Hooked none s) {event : Event} (hevent : passes event) :
    Hooked none (s.log event) := by
  apply h.pass rfl
  · intro other hother
    rwa [List.mem_singleton.mp hother]
  · exact fun hsome _ => hsome

theorem step {waiting waiting' : Option (AgentPid × Message)} (h : Hooked waiting s)
    {event : Event} (htrace : s'.trace = s.trace ++ [event])
    (hstep : hookStep waiting event = some waiting')
    (hhook : s.messageHook.isSome → s'.messageHook.isSome) : Hooked waiting' s' := by
  intro hkept
  rw [htrace, List.mem_append, not_or] at hkept
  obtain ⟨hsome, hscan⟩ := h hkept.1
  refine ⟨hhook hsome, ?_⟩
  rw [htrace]
  exact hookScan_concat_eq_some.mpr ⟨waiting, hscan, hstep⟩

theorem route {dest : AgentPid} {msg : Message} (h : Hooked (some (dest, msg)) s) :
    Hooked none (s.route dest msg).2 := by
  rcases route_cases s dest msg with ⟨proc, delivered, _, _, _, _, _, _, hroute⟩ |
    ⟨reason, metrics, hroute⟩ | hroute
  all_goals
    rw [hroute]
    exact h.step rfl (hookStep_eq_some.mpr (.inr ⟨_, rfl, rfl, rfl, rfl⟩)) fun hsome => hsome

/-- Without a hook there is nothing to show. -/
theorem of_cleared (h : Hooked none s) (hnone : s.messageHook = none) :
    .hookCleared ∈ s.trace := by
  by_contra hkept
  obtain ⟨hsome, _⟩ := h hkept
  rw [hnone] at hsome
  contradiction

theorem send (h : Hooked none s) (code : BehaviorCode T) (dest : AgentPid) (msg : Message)
    (origin : Origin) : Hooked none (s.send code dest msg origin).2 := by
  have hhanded : Hooked none (s.log (.handed dest msg origin)) :=
    h.log ⟨rfl, rfl⟩
  unfold AgentScheduler.send
  rcases offer_cases code (s.log (.handed dest msg origin)) dest msg with
    ⟨hnone, hoffer⟩ | ⟨hook, _, hoffer⟩ | ⟨text, hook, _, hoffer⟩
  · rw [hoffer]
    have hcleared := hhanded.of_cleared hnone
    intro hkept
    obtain ⟨events, htrace, _⟩ := (messagesOnly_route (s.log (.handed dest msg origin))
      dest msg).trace
    rw [htrace, List.mem_append, not_or] at hkept
    exact absurd hcleared hkept.1
  · rw [hoffer]
    apply route
    exact hhanded.step rfl (hookStep_eq_some.mpr (.inl ⟨rfl, rfl, rfl⟩)) fun _ => rfl
  · rw [hoffer]
    have hoffered : Hooked none ({ s.log (.handed dest msg origin) with
        messageHook := some hook }.log (.offered dest msg false)) :=
      hhanded.step rfl (hookStep_eq_some.mpr (.inl ⟨rfl, rfl, rfl⟩)) fun _ => rfl
    exact hoffered.log ⟨rfl, rfl⟩

theorem stable (code : BehaviorCode T) : Stable code (Hooked none (T := T)) := by
  intro s s' hmove h
  cases hmove with
  | aside | rename | routing | counters | adjust | link => exact h.congr rfl rfl
  | hook => exact h.pass (List.append_nil s.trace).symm (by simp) fun _ _ => rfl
  | hookCleared =>
      intro hkept
      exact absurd (List.mem_append_right _ List.mem_cons_self) hkept
  | send dest msg origin => exact h.send code dest msg origin
  | direct dest msg =>
      unfold deliverDirect
      split
      · exact h
      · split
        · exact h.log ⟨rfl, rfl⟩
        · exact h.step rfl (hookStep_eq_some.mpr (.inl ⟨rfl, rfl, rfl⟩)) fun hsome => hsome
  | handle | discard =>
      exact h.step rfl (hookStep_eq_some.mpr (.inl ⟨rfl, rfl, rfl⟩)) fun hsome => hsome
  | acceptIo => exact h.log ⟨rfl, rfl⟩
  | spawn behavior args =>
      rcases spawn_cases code s behavior args with ⟨reason, hspawn⟩ |
        ⟨registry, state, hspawn, _⟩
      all_goals
        rw [hspawn]
        exact h.congr rfl rfl
  | monitor watcher target =>
      rcases monitor_cases s watcher target with ⟨text, hmonitor⟩ | ⟨_, _, hmonitor⟩
      · rw [hmonitor]
        exact h
      · rw [hmonitor]
        exact h.step rfl (hookStep_eq_some.mpr (.inl ⟨rfl, rfl, rfl⟩)) fun hsome => hsome
  | demonitor watcher monitorRef =>
      rcases demonitor_cases s watcher monitorRef with hdemonitor |
        ⟨proc, i, target, _, _, hdemonitor⟩
      · rw [hdemonitor]
        exact h
      · rw [hdemonitor]
        exact h.step rfl (hookStep_eq_some.mpr (.inl ⟨rfl, rfl, rfl⟩)) fun hsome => hsome
  | drain =>
      apply h.pass rfl
      · intro event hevent
        obtain ⟨message, _, rfl⟩ := List.mem_map.mp hevent
        exact ⟨rfl, rfl⟩
      · exact fun hsome _ => hsome

theorem remove (h : Hooked none s) (pid : AgentPid) : Hooked none (s.removeProcess pid) := by
  cases hproc : s.lookup pid with
  | none => rwa [removeProcess_of_dead hproc]
  | some proc =>
      rw [removeProcess_of_live hproc]
      apply h.pass rfl
      · intro event hevent
        rcases List.mem_cons.mp hevent with rfl | hevent
        · exact ⟨rfl, rfl⟩
        · obtain ⟨msg, _, rfl⟩ := List.mem_map.mp hevent
          exact ⟨rfl, rfl⟩
      · exact fun hsome _ => hsome

theorem stableRun (code : AgentCode T) : StableRun code (Hooked none (T := T)) := by
  have hnotices : StableNotices code.toBehaviorCode (Hooked none (T := T)) :=
    { move := stable code.toBehaviorCode
      dropMonitoredBy := fun _ _ _ h => h.congr rfl rfl
      dropMonitor := fun _ _ _ h => h.congr rfl rfl
      down := fun _ _ _ h => h.send code.toBehaviorCode _ _ _ }
  refine ⟨hnotices.move, ?_, ?_, ?_, ?_⟩
  · intro s pid reason h
    apply hnotices.takeDown _ (fun pid h => h.remove pid) h pid reason
    exact fun _ _ _ _ h => h.log ⟨rfl, rfl⟩
  · intro s exitHandlers handlersOut h
    exact h.congr rfl rfl
  · intro s id handlersOut h
    exact h.log ⟨rfl, rfl⟩
  · intro s id pid reason h
    exact h.log ⟨rfl, rfl⟩

/-- With the hook in place all along, it covers the run exactly when nothing bypasses
it. -/
theorem covers_iff (h : Hooked none s) (hkept : .hookCleared ∉ s.trace) :
    HookCovers s.trace ↔ ∀ event ∈ s.trace, event.bypasses = false :=
  hookCovers_iff (h hkept).2

end Hooked

end AgentScheduler

/-! ## Schedulers alone and in a cluster -/

namespace SchedulerCluster

variable {T : AgentTypes}

/-- The partitions that were given a hook. -/
def HookedParts (hook : Nat → Option T.Hook) (i : Nat) (s : AgentScheduler T) : Prop :=
  (hook i).isSome → s.Hooked none

theorem hookedParts_new (partitions : Nat) (hook : Nat → Option T.Hook)
    (nextPid nextMonitorRef : Nat) :
    (new partitions hook nextPid nextMonitorRef).Holds (HookedParts hook) := by
  intro i s hs hhook
  simp only [new, List.getElem?_map, Option.map_eq_some_iff] at hs
  obtain ⟨j, hj, rfl⟩ := hs
  obtain ⟨_, rfl⟩ := List.getElem?_eq_some_iff.mp hj
  obtain ⟨installed, hinstalled⟩ := Option.isSome_iff_exists.mp hhook
  rw [List.getElem_range, hinstalled]
  exact .new none installed true nextPid nextMonitorRef

/-- A property that depends on the partition's number as a premise only. -/
theorem hookedParts_stable (code : AgentCode T) (hook : Nat → Option T.Hook) :
    StableParts code (HookedParts hook) := by
  have hrun := AgentScheduler.Hooked.stableRun code
  refine ⟨fun i => ⟨?_, ?_, ?_, ?_, ?_⟩, ?_, ?_⟩
  · intro s s' hmove hs hhook
    exact hrun.move hmove (hs hhook)
  · intro s pid reason hs hhook
    exact hrun.takeDown pid reason (hs hhook)
  · intro s exitHandlers handlersOut hs hhook
    exact hrun.handlers exitHandlers handlersOut (hs hhook)
  · intro s id handlersOut hs hhook
    exact hrun.handlerAdded id handlersOut (hs hhook)
  · intro s id pid reason hs hhook
    exact hrun.handlerInvoked id pid reason (hs hhook)
  · intro i s bridge nextPid nextMonitorRef hs hhook
    exact (hs hhook).congr rfl rfl
  · intro i s dest msg origin _ hs hhook
    exact (hs hhook).send code.toBehaviorCode dest msg origin

end SchedulerCluster

/-- In every run with a hook that is not cleared, of a scheduler alone or as a
partition of a cluster, the hook covers the deliveries exactly when no message takes
another way. -/
theorem hookCovers_iff_straight {T : AgentTypes} (code : AgentCode T) :
    (∀ bridge hook routing nextPid nextMonitorRef ops s,
      AgentScheduler.run code (.new bridge (some hook) routing nextPid nextMonitorRef) ops =
        some s → .hookCleared ∉ s.trace →
      (HookCovers s.trace ↔ ∀ event ∈ s.trace, event.bypasses = false)) ∧
    ∀ partitions hook nextPid nextMonitorRef ops c,
      SchedulerCluster.run code (.new partitions hook nextPid nextMonitorRef) ops = some c →
      ∀ i s, c.schedulers[i]? = some s → (hook i).isSome → .hookCleared ∉ s.trace →
      (HookCovers s.trace ↔ ∀ event ∈ s.trace, event.bypasses = false) := by
  constructor
  · intro bridge hook routing nextPid nextMonitorRef ops s hrun hkept
    have hhooked : s.Hooked none := (AgentScheduler.Hooked.stableRun code).run hrun
      (.new bridge hook routing nextPid nextMonitorRef)
    exact hhooked.covers_iff hkept
  · intro partitions hook nextPid nextMonitorRef ops c hrun i s hs hhook hkept
    have hholds := (SchedulerCluster.hookedParts_stable code hook).cluster.run
      (SchedulerCluster.hookedParts_new partitions hook nextPid nextMonitorRef) hrun
    exact (hholds i s hs hhook).covers_iff hkept

/-- One message to a scheduler alone, and one to a process of a partition. -/
theorem hookCovers_of_send :
    (∃ s, AgentScheduler.run plainCode (.new none (some ()) false 1 1)
        [(0, .call (.spawn () .null)), (0, .call (.send 1 (.text "a")))] = some s ∧
      deliveries s.trace = [(1, .text "a")] ∧ HookCovers s.trace) ∧
    ∃ c s, SchedulerCluster.run plainCode (.new 1 (fun _ => some ()) 1 1)
        [(0, .spawn () .null), (0, .send 1 (.text "a"))] = some c ∧
      c.schedulers[0]? = some s ∧
      deliveries s.trace = [(1, .text "a")] ∧ HookCovers s.trace := by
  have halone : (AgentScheduler.run plainCode (.new none (some ()) false 1 1)
      [(0, .call (.spawn () .null)), (0, .call (.send 1 (.text "a")))]).map
      AgentScheduler.trace = some [.handed 1 (.text "a") .caller,
        .offered 1 (.text "a") true, .put 1 (.text "a")] := rfl
  have hpart : (SchedulerCluster.run plainCode (.new 1 (fun _ => some ()) 1 1)
      [(0, .spawn () .null), (0, .send 1 (.text "a"))]).map
      (fun c => c.schedulers.map AgentScheduler.trace) = some [[.handed 1 (.text "a") .caller,
        .offered 1 (.text "a") true, .put 1 (.text "a")]] := by
    decide
  obtain ⟨s, hrun, htrace⟩ := Option.map_eq_some_iff.mp halone
  obtain ⟨c, hclusterRun, htraces⟩ := Option.map_eq_some_iff.mp hpart
  obtain ⟨part, hparts, hpartTrace⟩ := List.map_eq_singleton_iff.mp htraces
  have hfirst : c.schedulers[0]? = some part := by rw [hparts]; rfl
  refine ⟨⟨s, hrun, by rw [htrace]; rfl, ?_⟩, c, part, hclusterRun, hfirst,
    by rw [hpartTrace]; rfl, ?_⟩
  · rw [(hookCovers_iff_straight plainCode).1 _ _ _ _ _ _ s hrun (by rw [htrace]; decide),
      htrace]
    decide
  · rw [(hookCovers_iff_straight plainCode).2 _ _ _ _ _ c hclusterRun 0 part hfirst rfl
      (by rw [hpartTrace]; decide), hpartTrace]
    decide

/-- A linked process that traps exits is told of the other's end behind the hook's
back. -/
theorem exit_signal_not_covered :
    ∃ s, AgentScheduler.run plainCode (.new none (some ()) false 1 1)
        [(0, .call (.spawn () .null)), (0, .call (.spawn () .null)),
          (0, .call (.setTrapExit 2 true)), (0, .call (.link 1 2)),
          (1, .call (.terminateProcess 1 .shutdown))] = some s ∧
      deliveries s.trace = [(2, .system (.exit 1 .shutdown))] ∧
      acceptances s.trace = [] ∧ ¬ HookCovers s.trace := by
  have htrace : (AgentScheduler.run plainCode (.new none (some ()) false 1 1)
      [(0, .call (.spawn () .null)), (0, .call (.spawn () .null)),
        (0, .call (.setTrapExit 2 true)), (0, .call (.link 1 2)),
        (1, .call (.terminateProcess 1 .shutdown))]).map AgentScheduler.trace =
      some [.terminating 1 true false true, .removed 1,
        .direct 2 (.system (.exit 1 .shutdown)) true] := rfl
  obtain ⟨s, hrun, hs⟩ := Option.map_eq_some_iff.mp htrace
  have hdeliveries : deliveries s.trace = [(2, .system (.exit 1 .shutdown))] := by
    rw [hs]
    rfl
  have hacceptances : acceptances s.trace = [] := by
    rw [hs]
    rfl
  refine ⟨s, hrun, hdeliveries, hacceptances, ?_⟩
  intro hcovers
  have hlogged := hcovers.logged
  rw [hdeliveries, hacceptances] at hlogged
  cases hlogged

end Zeptobeam
