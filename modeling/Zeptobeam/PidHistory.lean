/-
The history of pids.  A pid is spent when a process is started under it, and it never
comes back: every pid is alive or was removed once, and no pid is both.
-/
import Zeptobeam.SchedulerTermination

namespace Zeptobeam

/-- The event is about the life of processes or about exit handlers. -/
def Event.ofLife : Event → Bool
  | .terminating .. | .removed _ | .handlerAdded .. | .handlerInvoked .. => true
  | _ => false

/-- The pids removed in a trace, in order. -/
def removedPids (trace : List Event) : List AgentPid :=
  trace.filterMap fun event => match event with
    | .removed pid => some pid
    | _ => none

@[simp]
theorem removedPids_append (trace events : List Event) :
    removedPids (trace ++ events) = removedPids trace ++ removedPids events :=
  List.filterMap_append

theorem removedPids_of_not_life {events : List Event}
    (h : ∀ event ∈ events, event.ofLife = false) : removedPids events = [] := by
  apply List.filterMap_eq_nil_iff.mpr
  intro event hevent
  have hlife := h event hevent
  cases event with
  | removed pid => contradiction
  | _ => rfl

theorem Event.ofLife_of_ofMessage {event : Event} (h : event.ofMessage) :
    event.ofLife = false := by
  cases event with
  | terminating | removed | handlerAdded | handlerInvoked => contradiction
  | _ => rfl

namespace AgentScheduler

variable {T : AgentTypes}

/-! ## Moves and the life of processes -/

/-- Nothing of the life of processes or of exit handlers is recorded. -/
structure Lifeless (s s' : AgentScheduler T) : Prop where
  trace : ∃ events, s'.trace = s.trace ++ events ∧ ∀ event ∈ events, event.ofLife = false
  exitHandlers : s'.exitHandlers = s.exitHandlers
  handlersOut : s'.handlersOut = s.handlersOut

namespace Lifeless

variable {s s' s'' : AgentScheduler T}

theorem of_same (htrace : s'.trace = s.trace) (hhandlers : s'.exitHandlers = s.exitHandlers)
    (hout : s'.handlersOut = s.handlersOut) : Lifeless s s' :=
  ⟨⟨[], by simp [htrace]⟩, hhandlers, hout⟩

theorem of_event {event : Event} (hevent : event.ofLife = false)
    (htrace : s'.trace = s.trace ++ [event]) (hhandlers : s'.exitHandlers = s.exitHandlers)
    (hout : s'.handlersOut = s.handlersOut) : Lifeless s s' := by
  refine ⟨⟨[event], htrace, ?_⟩, hhandlers, hout⟩
  intro other hother
  rwa [List.mem_singleton.mp hother]

theorem trans (h : Lifeless s s') (h' : Lifeless s' s'') : Lifeless s s'' := by
  obtain ⟨events, htrace, hevents⟩ := h.trace
  obtain ⟨events', htrace', hevents'⟩ := h'.trace
  refine ⟨⟨events ++ events', by rw [htrace', htrace, List.append_assoc], ?_⟩,
    h'.exitHandlers.trans h.exitHandlers, h'.handlersOut.trans h.handlersOut⟩
  intro event hevent
  rcases List.mem_append.mp hevent with hevent | hevent
  · exact hevents event hevent
  · exact hevents' event hevent

theorem removedPids (h : Lifeless s s') : removedPids s'.trace = removedPids s.trace := by
  obtain ⟨events, htrace, hevents⟩ := h.trace
  rw [htrace, removedPids_append, removedPids_of_not_life hevents, List.append_nil]

end Lifeless

theorem MessagesOnly.lifeless {s s' : AgentScheduler T} (h : MessagesOnly s s') :
    Lifeless s s' := by
  obtain ⟨events, htrace, hevents⟩ := h.trace
  exact ⟨⟨events, htrace, fun event hevent => Event.ofLife_of_ofMessage (hevents event hevent)⟩,
    h.exitHandlers, h.handlersOut⟩

theorem MessagesOnly.live {s s' : AgentScheduler T} (h : MessagesOnly s s') (q : AgentPid) :
    (s'.lookup q).isSome = (s.lookup q).isSome := by
  rw [← isSome_kin, ← isSome_kin, h.kin q]

theorem isSome_lookup_modify (s : AgentScheduler T) (pid q : AgentPid)
    (f : AgentProcess T → AgentProcess T) :
    ((s.modify pid f).lookup q).isSome = (s.lookup q).isSome := by
  rw [lookup_modify]
  split
  · exact Option.isSome_map
  · rfl

theorem RelationMove.lifeless {code : BehaviorCode T} {s s' : AgentScheduler T}
    (h : RelationMove code s s') : Lifeless s s' := by
  cases h with
  | counters => exact .of_same rfl rfl rfl
  | adjust => exact .of_same rfl rfl rfl
  | spawn behavior args =>
      rcases spawn_cases code s behavior args with ⟨reason, h⟩ | ⟨registry, state, h, _⟩
      · rw [h]
        exact .of_same rfl rfl rfl
      · rw [h]
        exact .of_same rfl rfl rfl
  | link => exact .of_same rfl rfl rfl
  | monitor watcher target =>
      rcases monitor_cases s watcher target with ⟨text, h⟩ | ⟨_, _, h⟩
      · rw [h]
        exact .of_same rfl rfl rfl
      · rw [h]
        exact .of_event rfl rfl rfl rfl
  | demonitor watcher monitorRef =>
      rcases demonitor_cases s watcher monitorRef with h | ⟨proc, i, target, _, _, h⟩
      · rw [h]
        exact .of_same rfl rfl rfl
      · rw [h]
        exact .of_event rfl rfl rfl rfl

theorem Move.lifeless {code : BehaviorCode T} {s s' : AgentScheduler T}
    (h : Move code s s') : Lifeless s s' := by
  rcases h.messagesOnly_or_relation with hmessages | hrelation
  · exact hmessages.lifeless
  · exact hrelation.lifeless

/-- A move leaves everybody alive who was; only spawning brings somebody in. -/
theorem Move.live_or_spawn {code : BehaviorCode T} {s s' : AgentScheduler T}
    (h : Move code s s') :
    ((∀ q, (s'.lookup q).isSome = (s.lookup q).isSome) ∧ s.nextPid ≤ s'.nextPid) ∨
      ∃ behavior args, s' = (s.spawn code behavior args).2 := by
  rcases h.messagesOnly_or_relation with hmessages | hrelation
  · exact .inl ⟨hmessages.live, Nat.le_of_eq hmessages.nextPid.symm⟩
  · cases hrelation with
    | counters pids refs => exact .inl ⟨fun _ => rfl, Nat.le_add_right _ _⟩
    | adjust pid f => exact .inl ⟨fun q => isSome_lookup_modify s pid q f, Nat.le_refl _⟩
    | spawn behavior args => exact .inr ⟨behavior, args, rfl⟩
    | link first second =>
        refine .inl ⟨fun q => ?_, Nat.le_refl _⟩
        rw [AgentScheduler.link, isSome_lookup_modify, isSome_lookup_modify]
    | monitor watcher target =>
        left
        rcases monitor_cases s watcher target with ⟨text, h⟩ | ⟨_, _, h⟩
        · rw [h]
          exact ⟨fun _ => rfl, Nat.le_refl _⟩
        · rw [h]
          refine ⟨fun q => ?_, Nat.le_refl _⟩
          rw [lookup_log, isSome_lookup_modify, isSome_lookup_modify]
          rfl
    | demonitor watcher monitorRef =>
        left
        rcases demonitor_cases s watcher monitorRef with h | ⟨proc, i, target, _, _, h⟩
        · rw [h]
          exact ⟨fun _ => rfl, Nat.le_refl _⟩
        · rw [h]
          refine ⟨fun q => ?_, Nat.le_refl _⟩
          rw [lookup_log, dropMonitoredBy, isSome_lookup_modify, isSome_lookup_modify]

theorem Lifeless.grows {s s' : AgentScheduler T} (h : Lifeless s s') :
    s.trace <+: s'.trace := by
  obtain ⟨events, htrace, _⟩ := h.trace
  exact ⟨events, htrace.symm⟩

theorem removeProcess_grows (s : AgentScheduler T) (pid : AgentPid) :
    s.trace <+: (s.removeProcess pid).trace := by
  cases hproc : s.lookup pid with
  | none => rw [removeProcess_of_dead hproc]
  | some proc =>
      rw [removeProcess_of_live hproc]
      exact ⟨_, rfl⟩

theorem stableNotices_trace (code : BehaviorCode T) (trace : List Event) :
    StableNotices code fun s : AgentScheduler T => trace <+: s.trace where
  move _ _ hmove h := h.trans hmove.lifeless.grows
  dropMonitoredBy _ _ _ h := h
  dropMonitor _ _ _ h := h
  down {s} pid reason monitor h := by
    have hhanded : s.trace <+: (s.log (.handed monitor.2
        (.system (.down monitor.1 pid reason)) (.monitor monitor.1 pid))).trace := ⟨_, rfl⟩
    exact (h.trans hhanded).trans
      (messagesOnly_sendDown code pid reason s monitor).lifeless.grows

/-- Taking down begins with its mark in the trace. -/
theorem takeDown_grows (code : BehaviorCode T) (s : AgentScheduler T) (pid : AgentPid)
    (reason : Reason) :
    s.trace ++ [.terminating pid (s.lookup pid).isSome s.handlersOut
      s.exitHandlers.isEmpty] <+: (s.takeDown code pid reason).2.trace := by
  unfold takeDown
  generalize hmarked : (s.cancel pid).log _ = marked
  have htrace : marked.trace = s.trace ++ [.terminating pid (s.lookup pid).isSome
      s.handlersOut s.exitHandlers.isEmpty] := by
    rw [← hmarked]
    rfl
  rw [← htrace]
  exact (stableNotices_trace code marked.trace).notifyRelations
    (removeProcess_grows marked pid) pid reason _ _ _

/-- Whatever a scheduler does, its trace goes on from where it was. -/
theorem stableRun_trace (code : AgentCode T) (trace : List Event) :
    StableRun code fun s : AgentScheduler T => trace <+: s.trace where
  move := (stableNotices_trace code.toBehaviorCode trace).move
  takeDown {s} pid reason h := h.trans
    ((List.prefix_append _ _).trans (takeDown_grows code.toBehaviorCode s pid reason))
  handlers _ _ h := h
  handlerAdded _ _ h := h.trans ⟨_, rfl⟩
  handlerInvoked _ _ _ h := h.trans ⟨_, rfl⟩

/-! ## No pid twice -/

/-- How often a pid is there: alive, or removed. -/
def presence (s : AgentScheduler T) (q : AgentPid) : Nat :=
  (if (s.lookup q).isSome then 1 else 0) + (removedPids s.trace).count q

theorem presence_congr {s s' : AgentScheduler T} {q : AgentPid}
    (hlive : (s'.lookup q).isSome = (s.lookup q).isSome)
    (hremoved : removedPids s'.trace = removedPids s.trace) :
    s'.presence q = s.presence q := by
  rw [presence, hlive, hremoved, presence]

/-- From one state to a later one: only pids that were given out between them can have
come in, and each of them once. -/
structure Allots (start s : AgentScheduler T) : Prop where
  nextPid : start.nextPid ≤ s.nextPid
  kept : ∀ q, q < start.nextPid ∨ s.nextPid ≤ q → s.presence q = start.presence q
  once : ∀ q, s.presence q ≤ start.presence q + 1

namespace Allots

variable {start s s' : AgentScheduler T}

theorem refl (s : AgentScheduler T) : Allots s s :=
  ⟨Nat.le_refl _, fun _ _ => rfl, fun _ => Nat.le_succ _⟩

theorem congr (h : Allots start s) (hpresence : ∀ q, s'.presence q = s.presence q)
    (hnextPid : s.nextPid ≤ s'.nextPid) : Allots start s' := by
  refine ⟨h.nextPid.trans hnextPid, ?_, ?_⟩
  · intro q hq
    rw [hpresence q]
    exact h.kept q (hq.imp_right hnextPid.trans)
  · intro q
    rw [hpresence q]
    exact h.once q

theorem spawn (h : Allots start s) (code : BehaviorCode T) (behavior : T.Behavior)
    (args : Json) : Allots start (s.spawn code behavior args).2 := by
  rcases spawn_cases code s behavior args with ⟨reason, hspawn⟩ |
    ⟨registry, state, hspawn, hlookup⟩
  · rw [hspawn]
    exact h.congr (fun _ => rfl) (Nat.le_succ _)
  · rw [hspawn]
    generalize hs' : ({ s with nextPid := s.nextPid + 1, registry } : AgentScheduler T) = s'
    have hnext : s'.nextPid = s.nextPid + 1 := by rw [← hs']
    replace hlookup : ∀ q, s'.lookup q = if q = s.nextPid then
        some (.started s.nextPid behavior state AgentProcess.defaultMailboxCapacity)
      else s.lookup q := by
      rw [← hs']
      exact hlookup
    have htrace : s'.trace = s.trace := by rw [← hs']
    have hother : ∀ q, q ≠ s.nextPid → s'.presence q = s.presence q := by
      intro q hq
      exact presence_congr (by rw [hlookup q, if_neg hq]) (by rw [htrace])
    have hnew : s'.presence s.nextPid ≤ s.presence s.nextPid + 1 := by
      rw [presence, presence, hlookup, if_pos rfl, htrace, Option.isSome_some, if_pos rfl]
      omega
    refine ⟨by rw [hnext]; exact h.nextPid.trans (Nat.le_succ _), ?_, ?_⟩
    · intro q hq
      rw [hnext] at hq
      have hne : q ≠ s.nextPid := by
        rcases hq with hq | hq
        · exact Nat.ne_of_lt (Nat.lt_of_lt_of_le hq h.nextPid)
        · exact Nat.ne_of_gt hq
      rw [hother q hne]
      exact h.kept q (hq.imp_right Nat.le_of_succ_le)
    · intro q
      by_cases hq : q = s.nextPid
      · rw [hq]
        exact hnew.trans (Nat.le_of_eq (by rw [h.kept _ (.inr (Nat.le_refl _))]))
      · rw [hother q hq]
        exact h.once q

theorem stable (code : BehaviorCode T) (start : AgentScheduler T) :
    Stable code (Allots start) := by
  intro s s' hmove h
  rcases hmove.live_or_spawn with ⟨hlive, hnextPid⟩ | ⟨behavior, args, rfl⟩
  · exact h.congr (fun q => presence_congr (hlive q) hmove.lifeless.removedPids) hnextPid
  · exact h.spawn code behavior args

theorem modify (h : Allots start s) (pid : AgentPid) (f : AgentProcess T → AgentProcess T) :
    Allots start (s.modify pid f) :=
  h.congr (fun q => presence_congr (isSome_lookup_modify s pid q f) rfl) (Nat.le_refl _)

theorem log (h : Allots start s) {event : Event} (hevent : removedPids [event] = []) :
    Allots start (s.log event) := by
  apply h.congr
  · intro q
    refine presence_congr rfl ?_
    rw [AgentScheduler.log, removedPids_append, hevent, List.append_nil]
  · exact Nat.le_refl _

theorem notices (code : BehaviorCode T) (start : AgentScheduler T) :
    StableNotices code (Allots start) where
  move := stable code start
  dropMonitoredBy target monitorRef watcher h := h.modify target _
  dropMonitor watcher monitorRef target h := h.modify watcher _
  down {s} pid reason monitor h := by
    have hhanded : Allots start (s.log (.handed monitor.2
        (.system (.down monitor.1 pid reason)) (.monitor monitor.1 pid))) := h.log rfl
    have hsent := messagesOnly_sendDown code pid reason s monitor
    exact hhanded.congr (fun q => presence_congr (hsent.live q) hsent.lifeless.removedPids)
      (Nat.le_of_eq hsent.nextPid.symm)

/-- The removed process was there once, and it is there once as a removed one. -/
theorem removeProcess (h : Allots start s) (pid : AgentPid) :
    Allots start (s.removeProcess pid) := by
  cases hproc : s.lookup pid with
  | none =>
      rw [removeProcess_of_dead hproc]
      exact h
  | some proc =>
      have hdiscarded : removedPids (proc.mailbox.map fun msg => .discarded pid msg) = [] := by
        apply removedPids_of_not_life
        intro event hevent
        obtain ⟨msg, _, rfl⟩ := List.mem_map.mp hevent
        rfl
      have hremoved : removedPids (s.removeProcess pid).trace =
          removedPids s.trace ++ [pid] := by
        rw [removeProcess_of_live hproc, removedPids_append]
        exact congrArg (removedPids s.trace ++ pid :: ·) hdiscarded
      apply h.congr
      · intro q
        rw [presence, lookup_removeProcess, hremoved, presence, List.count_append]
        by_cases hq : q = pid
        · rw [hq, if_pos rfl, hproc, Option.isSome_some, if_pos rfl, List.count_singleton_self]
          simp [Nat.add_comm]
        · rw [if_neg hq, List.count_singleton, beq_eq_false_iff_ne.mpr (Ne.symm hq)]
          rfl
      · rw [removeProcess_of_live hproc]

theorem stableRun (code : AgentCode T) (start : AgentScheduler T) :
    StableRun code (Allots start) where
  move := stable code.toBehaviorCode start
  takeDown pid reason h :=
    (notices code.toBehaviorCode start).takeDown (fun _ _ _ _ h => h.log rfl)
      (fun pid h => h.removeProcess pid) h pid reason
  handlers _ _ h := h.congr (fun _ => rfl) (Nat.le_refl _)
  handlerAdded _ _ h := h.log rfl
  handlerInvoked _ _ _ h := h.log rfl

/-- In every run no pid is given to two processes. -/
theorem presence_le_one {code : AgentCode T} (h : Reachable code s) (q : AgentPid) :
    s.presence q ≤ 1 := by
  obtain ⟨bridge, hook, routing, nextPid, nextMonitorRef, ops, hrun⟩ := h
  exact ((stableRun code _).run hrun (.refl _)).once q

end Allots

theorem removedPids_nodup {code : AgentCode T} {s : AgentScheduler T}
    (h : Reachable code s) : (removedPids s.trace).Nodup := by
  apply List.nodup_iff_count_le_one.mpr
  intro q
  exact (Nat.le_add_left _ _).trans (Allots.presence_le_one h q)

/-! ## Pids and the counter -/

/-- Whoever is alive has a pid that was given out. -/
def Given (s : AgentScheduler T) : Prop :=
  ∀ q, (s.lookup q).isSome → q < s.nextPid

/-- The pid was given out, and nobody is alive under it. -/
def Gone (q : AgentPid) (s : AgentScheduler T) : Prop :=
  q < s.nextPid ∧ ¬ (s.lookup q).isSome

theorem live_takeDown (code : BehaviorCode T) {s : AgentScheduler T} {pid q : AgentPid}
    {reason : Reason} (h : ((s.takeDown code pid reason).2.lookup q).isSome) :
    q ≠ pid ∧ (s.lookup q).isSome := by
  rw [← isSome_kin, kin_takeDown] at h
  split at h
  · contradiction
  · exact ⟨‹_›, isSome_kin s q ▸ h⟩

theorem stableRun_given (code : AgentCode T) : StableRun code (Given (T := T)) where
  move s s' hmove h := by
    rcases hmove.live_or_spawn with ⟨hlive, hnextPid⟩ | ⟨behavior, args, rfl⟩
    · intro q hq
      rw [hlive] at hq
      exact Nat.lt_of_lt_of_le (h q hq) hnextPid
    · rcases spawn_cases code.toBehaviorCode s behavior args with ⟨_, hspawn⟩ |
        ⟨registry, _, hspawn, hlookup⟩
      · rw [hspawn]
        exact fun q hq => Nat.lt_succ_of_lt (h q hq)
      · rw [hspawn]
        intro q hq
        change (registry.lookup q).isSome at hq
        rw [hlookup] at hq
        split at hq
        · rename_i heq
          exact heq ▸ Nat.lt_succ_self _
        · exact Nat.lt_succ_of_lt (h q hq)
  takeDown pid reason h q hq := by
    rw [nextPid_takeDown]
    exact h q (live_takeDown code.toBehaviorCode hq).2
  handlers _ _ h := h
  handlerAdded _ _ h := h
  handlerInvoked _ _ _ h := h

/-- Nobody comes back. -/
theorem stableRun_gone (code : AgentCode T) (q : AgentPid) :
    StableRun code fun s : AgentScheduler T => Gone q s where
  move s s' hmove h := by
    rcases hmove.live_or_spawn with ⟨hlive, hnextPid⟩ | ⟨behavior, args, rfl⟩
    · exact ⟨Nat.lt_of_lt_of_le h.1 hnextPid, by rw [hlive]; exact h.2⟩
    · rcases spawn_cases code.toBehaviorCode s behavior args with ⟨_, hspawn⟩ |
        ⟨registry, _, hspawn, hlookup⟩
      · rw [hspawn]
        exact ⟨Nat.lt_succ_of_lt h.1, h.2⟩
      · rw [hspawn]
        refine ⟨Nat.lt_succ_of_lt h.1, ?_⟩
        change ¬ (registry.lookup q).isSome
        rw [hlookup, if_neg (Nat.ne_of_lt h.1)]
        exact h.2
  takeDown pid reason h := by
    refine ⟨?_, fun hlive => h.2 (live_takeDown code.toBehaviorCode hlive).2⟩
    rw [nextPid_takeDown]
    exact h.1
  handlers _ _ h := h
  handlerAdded _ _ h := h
  handlerInvoked _ _ _ h := h

/-- Who is terminated is gone. -/
theorem gone_of_terminateProcess {code : AgentCode T} {fuel : Nat} {s s' : AgentScheduler T}
    {pid : AgentPid} {reason : Reason} (hgiven : pid < s.nextPid)
    (hrun : s.terminateProcess code fuel pid reason = some s') : Gone pid s' := by
  apply (stableRun_gone code pid).terminateProcess_of_takeDown hrun
  refine ⟨?_, fun hlive => (live_takeDown code.toBehaviorCode hlive).1 rfl⟩
  rw [nextPid_takeDown]
  exact hgiven

/-! ## One behaviour for each pid -/

/-- A pid that was given out has this behaviour, if it is alive. -/
def Behaves (q : AgentPid) (behavior : T.Behavior) (s : AgentScheduler T) : Prop :=
  q < s.nextPid ∧ ∀ proc, s.lookup q = some proc → proc.behavior = behavior

namespace Behaves

variable {q : AgentPid} {behavior : T.Behavior} {s s' : AgentScheduler T}

theorem congr (h : Behaves q behavior s) (hlookup : s'.lookup q = s.lookup q)
    (hnextPid : s.nextPid ≤ s'.nextPid) : Behaves q behavior s' := by
  refine ⟨Nat.lt_of_lt_of_le h.1 hnextPid, ?_⟩
  rw [hlookup]
  exact h.2

theorem log (h : Behaves q behavior s) (event : Event) : Behaves q behavior (s.log event) :=
  h.congr rfl (Nat.le_refl _)

theorem modify (h : Behaves q behavior s) (pid : AgentPid)
    {f : AgentProcess T → AgentProcess T}
    (hf : ∀ proc, s.lookup pid = some proc → (f proc).behavior = proc.behavior) :
    Behaves q behavior (s.modify pid f) := by
  refine ⟨h.1, fun proc hproc => ?_⟩
  rw [lookup_modify] at hproc
  by_cases hq : q = pid
  · rw [if_pos hq, Option.map_eq_some_iff] at hproc
    obtain ⟨before, hbefore, rfl⟩ := hproc
    rw [hf before (hq ▸ hbefore)]
    exact h.2 before hbefore
  · rw [if_neg hq] at hproc
    exact h.2 proc hproc

theorem delivered {proc delivered : AgentProcess T} {msg : Message}
    (hdeliver : proc.deliverMessage msg = some delivered) :
    delivered.behavior = proc.behavior := by
  rw [← (AgentProcess.deliverMessage_eq_some.mp hdeliver).2]

theorem route (h : Behaves q behavior s) (dest : AgentPid) (msg : Message) :
    Behaves q behavior (s.route dest msg).2 := by
  rcases route_cases s dest msg with ⟨proc, delivered, _, _, _, _, hproc, hdeliver, hroute⟩ |
    ⟨reason, metrics, hroute⟩ | hroute
  · rw [hroute]
    have hmodified := h.modify dest (f := fun _ => delivered) (by
      intro found hfound
      cases hfound.symm.trans hproc
      exact Behaves.delivered hdeliver)
    exact hmodified.congr rfl (Nat.le_refl _)
  · rw [hroute]
    exact h.congr rfl (Nat.le_refl _)
  · rw [hroute]
    exact h.congr rfl (Nat.le_refl _)

theorem send (h : Behaves q behavior s) (code : BehaviorCode T) (dest : AgentPid)
    (msg : Message) (origin : Origin) : Behaves q behavior (s.send code dest msg origin).2 := by
  have hlogged := h.log (.handed dest msg origin)
  unfold AgentScheduler.send
  rcases offer_cases code (s.log (.handed dest msg origin)) dest msg with
    ⟨_, hoffer⟩ | ⟨hook, _, hoffer⟩ | ⟨text, hook, _, hoffer⟩
  · rw [hoffer]
    exact hlogged.route dest msg
  · rw [hoffer]
    have hasked : Behaves q behavior ({ s.log (.handed dest msg origin) with
        messageHook := some hook }.log (.offered dest msg true)) :=
      hlogged.congr rfl (Nat.le_refl _)
    exact hasked.route dest msg
  · rw [hoffer]
    exact hlogged.congr rfl (Nat.le_refl _)

theorem deliverDirect (h : Behaves q behavior s) (dest : AgentPid) (msg : Message) :
    Behaves q behavior (s.deliverDirect dest msg) := by
  unfold AgentScheduler.deliverDirect
  split
  · exact h
  · rename_i proc hproc
    split
    · exact h.congr rfl (Nat.le_refl _)
    · rename_i delivered hdeliver
      refine (h.modify dest ?_).congr rfl (Nat.le_refl _)
      intro found hfound
      cases hfound.symm.trans hproc
      exact Behaves.delivered hdeliver

theorem spawn (h : Behaves q behavior s) (code : BehaviorCode T) (other : T.Behavior)
    (args : Json) : Behaves q behavior (s.spawn code other args).2 := by
  rcases spawn_cases code s other args with ⟨reason, hspawn⟩ |
    ⟨registry, state, hspawn, hlookup⟩
  · rw [hspawn]
    exact h.congr rfl (Nat.le_succ _)
  · rw [hspawn]
    refine h.congr ?_ (Nat.le_succ _)
    change registry.lookup q = s.lookup q
    rw [hlookup q, if_neg (Nat.ne_of_lt h.1)]

theorem stable (code : BehaviorCode T) (q : AgentPid) (behavior : T.Behavior) :
    Stable code (Behaves q behavior) := by
  intro s s' hmove h
  cases hmove with
  | aside | rename | routing | hook | hookCleared | acceptIo | drain =>
      exact h.congr rfl (Nat.le_refl _)
  | counters pids refs => exact h.congr rfl (Nat.le_add_right _ _)
  | adjust pid f hquiet => exact h.modify pid fun proc _ => hquiet.behavior proc
  | send dest msg origin => exact h.send code dest msg origin
  | direct dest msg => exact h.deliverDirect dest msg
  | handle pid | discard pid =>
      refine Behaves.congr (s := s.modify pid _) (h.modify pid ?_) rfl (Nat.le_refl _)
      exact fun _ _ => rfl
  | spawn other args => exact h.spawn code other args
  | link first second =>
      unfold AgentScheduler.link
      apply modify
      · exact h.modify first fun _ _ => rfl
      · exact fun _ _ => rfl
  | monitor watcher target =>
      rcases monitor_cases s watcher target with ⟨text, hmonitor⟩ | ⟨_, _, hmonitor⟩
      · rw [hmonitor]
        exact h
      · rw [hmonitor]
        have hnext : Behaves q behavior
            { s with nextMonitorRef := s.nextMonitorRef + 1 } := h.congr rfl (Nat.le_refl _)
        apply log
        apply modify
        · exact hnext.modify watcher fun _ _ => rfl
        · exact fun _ _ => rfl
  | demonitor watcher monitorRef =>
      rcases demonitor_cases s watcher monitorRef with hsame | ⟨proc, i, target, _, _, hdone⟩
      · rw [hsame]
        exact h
      · rw [hdone]
        apply log
        apply modify
        · exact h.modify watcher fun _ _ => rfl
        · exact fun _ _ => rfl

theorem notices (code : BehaviorCode T) (q : AgentPid) (behavior : T.Behavior) :
    StableNotices code (Behaves q behavior) where
  move := stable code q behavior
  dropMonitoredBy target _ _ h := h.modify target fun _ _ => rfl
  dropMonitor watcher _ _ h := h.modify watcher fun _ _ => rfl
  down _ _ monitor h := h.send code monitor.2 _ _

theorem removeProcess (h : Behaves q behavior s) (pid : AgentPid) :
    Behaves q behavior (s.removeProcess pid) := by
  cases hproc : s.lookup pid with
  | none => rwa [removeProcess_of_dead hproc]
  | some proc =>
      refine ⟨?_, fun found hfound => ?_⟩
      · rw [removeProcess_of_live hproc]
        exact h.1
      · rw [lookup_removeProcess] at hfound
        split at hfound
        · contradiction
        · exact h.2 found hfound

/-- Whatever a scheduler does, a pid keeps its behaviour. -/
theorem stableRun (code : AgentCode T) (q : AgentPid) (behavior : T.Behavior) :
    StableRun code (Behaves q behavior) where
  move := stable code.toBehaviorCode q behavior
  takeDown pid reason h :=
    (notices code.toBehaviorCode q behavior).takeDown
      (fun _ _ _ _ h => h.log _) (fun pid h => h.removeProcess pid) h pid reason
  handlers _ _ h := h.congr rfl (Nat.le_refl _)
  handlerAdded _ _ h := h.log _
  handlerInvoked _ _ _ h := h.log _

end Behaves

/-- A pid is for life: who is alive later under a pid that was given out was alive before, and
keeps its behaviour. -/
theorem pid_for_life {code : AgentCode T} {s s' : AgentScheduler T} {ops : List (Nat × RunOp T)}
    {pid : AgentPid} {proc' : AgentProcess T} (hrun : s.run code ops = some s')
    (hgiven : pid < s.nextPid) (hproc' : s'.lookup pid = some proc') :
    ∃ proc, s.lookup pid = some proc ∧ proc'.behavior = proc.behavior := by
  cases hproc : s.lookup pid with
  | none =>
      have hgone := (stableRun_gone code pid).run hrun ⟨hgiven, by simp [hproc]⟩
      exact absurd (Option.isSome_of_eq_some hproc') hgone.2
  | some proc =>
      have hbehaves := (Behaves.stableRun code pid proc.behavior).run hrun
        ⟨hgiven, fun other hother => by cases hproc.symm.trans hother; rfl⟩
      exact ⟨proc, rfl, hbehaves.2 proc' hproc'⟩

theorem pid_for_life_second :
    let s := (run plainCode (new none none false 1 1) [(0, .call (.spawn () .null))]).get rfl
    let s' := (s.run plainCode [(0, .call (.spawn () .null))]).get rfl
    ∃ proc, s.lookup 1 = some proc ∧ ((s'.lookup 1).get rfl).behavior = proc.behavior :=
  pid_for_life (Option.some_get _).symm (by decide) (Option.some_get _).symm

end AgentScheduler

end Zeptobeam
