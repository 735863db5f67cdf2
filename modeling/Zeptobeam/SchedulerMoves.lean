/-
What a scheduler can do, once: each operation is a sequence of moves, so that a
property kept by every move is kept by a tick, by a call, and by a whole run.
-/
import Zeptobeam.SchedulerRun
import Zeptobeam.Lib.GuardedRun

namespace Zeptobeam

namespace AgentProcess

variable {T : AgentTypes}

/-- The change leaves a process's behaviour, messages and relations alone. -/
structure Quiet (f : AgentProcess T → AgentProcess T) : Prop where
  behavior : ∀ proc, (f proc).behavior = proc.behavior
  mailbox : ∀ proc, (f proc).mailbox = proc.mailbox
  links : ∀ proc, (f proc).links = proc.links
  monitors : ∀ proc, (f proc).monitors = proc.monitors
  monitoredBy : ∀ proc, (f proc).monitoredBy = proc.monitoredBy

end AgentProcess

def Origin.ofMonitor : Origin → Bool
  | .monitor _ _ => true
  | _ => false

/-- Neither a monitor's message nor one from another partition. -/
def Origin.ofPartition : Origin → Bool
  | .monitor _ _ | .routed _ _ => false
  | _ => true

theorem Origin.ofMonitor_of_ofPartition {origin : Origin} (h : origin.ofPartition) :
    origin.ofMonitor = false := by
  cases origin with
  | monitor | routed => contradiction
  | _ => rfl

namespace AgentScheduler

variable {T : AgentTypes}

/-- The moves: what a tick and the calls on a scheduler are made of, terminations
and exit handlers apart. -/
inductive Move (code : BehaviorCode T) : AgentScheduler T → AgentScheduler T → Prop where
  | aside (s : AgentScheduler T) (queueHigh queueNormal queueLow : List AgentPid)
      (advantageCount : Nat) (bridge : Option Bridge)
      (pendingDestroys : List (AgentPid × Nat)) (metrics : RuntimeMetrics) :
      Move code s { s with
        queueHigh, queueNormal, queueLow, advantageCount, bridge, pendingDestroys, metrics }
  | rename (s : AgentScheduler T) (names : AList fun _ : String => AgentPid) :
      Move code s { s with registry := { s.registry with names } }
  | routing (s : AgentScheduler T) (enabled : Bool) :
      Move code s { s with allowExternalRouting := enabled }
  | hook (s : AgentScheduler T) (hook : T.Hook) :
      Move code s { s with messageHook := some hook }
  | hookCleared (s : AgentScheduler T) : Move code s s.clearMessageHook
  | counters (s : AgentScheduler T) (pids refs : Nat) :
      Move code s { s with
        nextPid := s.nextPid + pids, nextMonitorRef := s.nextMonitorRef + refs }
  | adjust (s : AgentScheduler T) (pid : AgentPid) (f : AgentProcess T → AgentProcess T)
      (hquiet : AgentProcess.Quiet f) : Move code s (s.modify pid f)
  | send (s : AgentScheduler T) (dest : AgentPid) (msg : Message) (origin : Origin)
      (horigin : origin.ofPartition) : Move code s (s.send code dest msg origin).2
  | direct (s : AgentScheduler T) (dest : AgentPid) (msg : Message) :
      Move code s (s.deliverDirect dest msg)
  | handle (s : AgentScheduler T) (pid : AgentPid) (proc : AgentProcess T) (msg : Message)
      (rest : List Message) (state : Option T.State) (hproc : s.lookup pid = some proc)
      (hmailbox : proc.mailbox = msg :: rest) :
      Move code s ((s.takeMessage pid state).log (.handled pid msg))
  | discard (s : AgentScheduler T) (pid : AgentPid) (proc : AgentProcess T) (msg : Message)
      (rest : List Message) (state : Option T.State) (hproc : s.lookup pid = some proc)
      (hmailbox : proc.mailbox = msg :: rest) :
      Move code s ((s.takeMessage pid state).log (.discarded pid msg))
  | acceptIo (s : AgentScheduler T) (pid : AgentPid) (correlationId : Nat) :
      Move code s (s.log (.ioAccepted pid correlationId))
  | spawn (s : AgentScheduler T) (behavior : T.Behavior) (args : Json) :
      Move code s (s.spawn code behavior args).2
  | link (s : AgentScheduler T) (first second : AgentPid) : Move code s (s.link first second)
  | monitor (s : AgentScheduler T) (watcher target : AgentPid) :
      Move code s (s.monitor watcher target).2
  | demonitor (s : AgentScheduler T) (watcher : AgentPid) (monitorRef : MonitorRef) :
      Move code s (s.demonitor watcher monitorRef).2
  | drain (s : AgentScheduler T) : Move code s s.drainOutboundMessages.2

/-! ## What messages leave alone -/

end AgentScheduler

/-- The event is about a message, not about processes, monitors or handlers. -/
def Event.ofMessage : Event → Bool
  | .handed _ _ origin => !origin.ofMonitor
  | .monitored .. | .demonitored .. | .terminating .. | .removed _ | .handlerAdded ..
  | .handlerInvoked .. => false
  | _ => true

/-- How a process is related to others. -/
structure Relations where
  links : List AgentPid
  trapExit : Bool
  monitors : List (MonitorRef × AgentPid)
  monitoredBy : List (MonitorRef × AgentPid)

def AgentProcess.relations {T : AgentTypes} (proc : AgentProcess T) : Relations :=
  ⟨proc.links, proc.trapExit, proc.monitors, proc.monitoredBy⟩

namespace AgentScheduler

def relations (s : AgentScheduler T) (pid : AgentPid) : Option Relations :=
  (s.lookup pid).map AgentProcess.relations

/-- Between the two states only messages moved. -/
structure MessagesOnly (s s' : AgentScheduler T) : Prop where
  trace : ∃ events, s'.trace = s.trace ++ events ∧ ∀ event ∈ events, event.ofMessage
  relations : ∀ q, s'.relations q = s.relations q
  nextPid : s'.nextPid = s.nextPid
  nextMonitorRef : s'.nextMonitorRef = s.nextMonitorRef
  exitHandlers : s'.exitHandlers = s.exitHandlers
  handlersOut : s'.handlersOut = s.handlersOut

namespace MessagesOnly

variable {s s' s'' : AgentScheduler T}

theorem refl (s : AgentScheduler T) : MessagesOnly s s :=
  ⟨⟨[], by simp⟩, fun _ => rfl, rfl, rfl, rfl, rfl⟩

theorem trans (h : MessagesOnly s s') (h' : MessagesOnly s' s'') : MessagesOnly s s'' := by
  obtain ⟨events, htrace, hevents⟩ := h.trace
  obtain ⟨events', htrace', hevents'⟩ := h'.trace
  refine ⟨⟨events ++ events', ?_, ?_⟩, ?_, ?_, ?_, ?_, ?_⟩
  · rw [htrace', htrace, List.append_assoc]
  · intro event hevent
    rcases List.mem_append.mp hevent with hevent | hevent
    · exact hevents event hevent
    · exact hevents' event hevent
  · intro q
    rw [h'.relations q, h.relations q]
  · rw [h'.nextPid, h.nextPid]
  · rw [h'.nextMonitorRef, h.nextMonitorRef]
  · rw [h'.exitHandlers, h.exitHandlers]
  · rw [h'.handlersOut, h.handlersOut]

/-- An event of a message is logged, and at most its mailbox changes. -/
theorem of_event {event : Event} (hevent : event.ofMessage)
    (htrace : s'.trace = s.trace ++ [event])
    (hrelations : ∀ q, s'.relations q = s.relations q) (hnextPid : s'.nextPid = s.nextPid)
    (hnextRef : s'.nextMonitorRef = s.nextMonitorRef)
    (hhandlers : s'.exitHandlers = s.exitHandlers)
    (hout : s'.handlersOut = s.handlersOut) : MessagesOnly s s' := by
  refine ⟨⟨[event], htrace, ?_⟩, hrelations, hnextPid, hnextRef, hhandlers, hout⟩
  intro other hother
  rwa [List.mem_singleton.mp hother]

end MessagesOnly

theorem relations_modify {s : AgentScheduler T} {pid : AgentPid}
    {f : AgentProcess T → AgentProcess T}
    (hf : ∀ proc, s.lookup pid = some proc → (f proc).relations = proc.relations)
    (q : AgentPid) : (s.modify pid f).relations q = s.relations q := by
  rw [relations, lookup_modify]
  by_cases hq : q = pid
  · rw [if_pos hq, relations, hq]
    cases hproc : s.lookup pid with
    | none => rfl
    | some proc => simp [hf proc hproc]
  · rw [if_neg hq, relations]

/-- The same where the change of the relations is known. -/
theorem relations_modify_map {s : AgentScheduler T} {pid : AgentPid}
    {f : AgentProcess T → AgentProcess T} {g : Relations → Relations}
    (hg : ∀ proc, (f proc).relations = g proc.relations) (q : AgentPid) :
    (s.modify pid f).relations q =
      (s.relations q).map fun r => if q = pid then g r else r := by
  rw [relations, lookup_modify, relations]
  by_cases hq : q = pid
  · simp only [if_pos hq, Option.map_map]
    congr 1
    funext proc
    exact hg proc
  · simp only [if_neg hq, Option.map_id']

theorem relations_deliverMessage {proc delivered : AgentProcess T} {msg : Message}
    (h : proc.deliverMessage msg = some delivered) :
    delivered.relations = proc.relations := by
  rw [← (AgentProcess.deliverMessage_eq_some.mp h).2]
  rfl

theorem messagesOnly_offer (code : BehaviorCode T) (s : AgentScheduler T)
    (dest : AgentPid) (msg : Message) : MessagesOnly s (s.offer code dest msg).2 := by
  rcases offer_cases code s dest msg with ⟨_, h⟩ | ⟨hook, _, h⟩ | ⟨text, hook, _, h⟩
  · rw [h]
    exact .refl s
  · rw [h]
    exact .of_event rfl rfl (fun _ => rfl) rfl rfl rfl rfl
  · rw [h]
    exact .of_event rfl rfl (fun _ => rfl) rfl rfl rfl rfl

theorem messagesOnly_route (s : AgentScheduler T) (dest : AgentPid) (msg : Message) :
    MessagesOnly s (s.route dest msg).2 := by
  rcases route_cases s dest msg with ⟨proc, delivered, _, _, _, _, hproc, hdeliver, h⟩ |
    ⟨reason, metrics, h⟩ | h
  · rw [h]
    refine .of_event rfl rfl ?_ rfl rfl rfl rfl
    apply relations_modify (s := s)
    intro found hfound
    cases hfound.symm.trans hproc
    exact relations_deliverMessage hdeliver
  · rw [h]
    exact .of_event rfl rfl (fun _ => rfl) rfl rfl rfl rfl
  · rw [h]
    exact .of_event rfl rfl (fun _ => rfl) rfl rfl rfl rfl

/-- All that `send` does after the message was handed to it. -/
theorem messagesOnly_handed (code : BehaviorCode T) (s : AgentScheduler T)
    (dest : AgentPid) (msg : Message) (origin : Origin) :
    MessagesOnly (s.log (.handed dest msg origin)) (s.send code dest msg origin).2 := by
  have hasked := messagesOnly_offer code (s.log (.handed dest msg origin)) dest msg
  unfold send
  generalize (s.log (.handed dest msg origin)).offer code dest msg = asked at hasked
  obtain ⟨answer, asked⟩ := asked
  cases answer with
  | error text => exact hasked.trans (.of_event rfl rfl (fun _ => rfl) rfl rfl rfl rfl)
  | ok => exact hasked.trans (messagesOnly_route asked dest msg)

theorem messagesOnly_send (code : BehaviorCode T) (s : AgentScheduler T) (dest : AgentPid)
    (msg : Message) {origin : Origin} (horigin : origin.ofMonitor = false) :
    MessagesOnly s (s.send code dest msg origin).2 := by
  have hhanded : MessagesOnly s (s.log (.handed dest msg origin)) :=
    .of_event (by simp [Event.ofMessage, horigin]) rfl (fun _ => rfl) rfl rfl rfl rfl
  exact hhanded.trans (messagesOnly_handed code s dest msg origin)

theorem messagesOnly_deliverDirect (s : AgentScheduler T) (dest : AgentPid)
    (msg : Message) : MessagesOnly s (s.deliverDirect dest msg) := by
  cases hproc : s.lookup dest with
  | none =>
      rw [deliverDirect, hproc]
      exact .refl s
  | some proc =>
      cases hdeliver : proc.deliverMessage msg with
      | none =>
          simp only [deliverDirect, hproc, hdeliver]
          exact .of_event rfl rfl (fun _ => rfl) rfl rfl rfl rfl
      | some delivered =>
          simp only [deliverDirect, hproc, hdeliver]
          refine .of_event rfl rfl ?_ rfl rfl rfl rfl
          apply relations_modify (s := s)
          intro found hfound
          cases hfound.symm.trans hproc
          exact relations_deliverMessage hdeliver

theorem messagesOnly_enqueue (s : AgentScheduler T) (pid : AgentPid) :
    MessagesOnly s (s.enqueue pid) := by
  unfold enqueue
  split
  · exact .refl s
  · split
    all_goals exact ⟨⟨[], by simp⟩, fun _ => rfl, rfl, rfl, rfl, rfl⟩

/-- The moves that are no message's. -/
inductive RelationMove (code : BehaviorCode T) :
    AgentScheduler T → AgentScheduler T → Prop where
  | counters (s : AgentScheduler T) (pids refs : Nat) :
      RelationMove code s { s with
        nextPid := s.nextPid + pids, nextMonitorRef := s.nextMonitorRef + refs }
  | adjust (s : AgentScheduler T) (pid : AgentPid) (f : AgentProcess T → AgentProcess T)
      (hquiet : AgentProcess.Quiet f) : RelationMove code s (s.modify pid f)
  | spawn (s : AgentScheduler T) (behavior : T.Behavior) (args : Json) :
      RelationMove code s (s.spawn code behavior args).2
  | link (s : AgentScheduler T) (first second : AgentPid) :
      RelationMove code s (s.link first second)
  | monitor (s : AgentScheduler T) (watcher target : AgentPid) :
      RelationMove code s (s.monitor watcher target).2
  | demonitor (s : AgentScheduler T) (watcher : AgentPid) (monitorRef : MonitorRef) :
      RelationMove code s (s.demonitor watcher monitorRef).2

theorem Move.messagesOnly_or_relation {code : BehaviorCode T} {s s' : AgentScheduler T}
    (h : Move code s s') : MessagesOnly s s' ∨ RelationMove code s s' := by
  have htaken : ∀ (pid : AgentPid) (state : Option T.State) (event : Event),
      event.ofMessage → MessagesOnly s ((s.takeMessage pid state).log event) := by
    intro pid state event hevent
    refine .of_event hevent rfl ?_ rfl rfl rfl rfl
    exact relations_modify (s := s) (fun _ _ => rfl)
  cases h with
  | aside | rename | routing | hook =>
      exact .inl ⟨⟨[], by simp⟩, fun _ => rfl, rfl, rfl, rfl, rfl⟩
  | hookCleared => exact .inl (.of_event rfl rfl (fun _ => rfl) rfl rfl rfl rfl)
  | counters pids refs => exact .inr (.counters s pids refs)
  | adjust pid f hquiet => exact .inr (.adjust s pid f hquiet)
  | send dest msg origin horigin =>
      exact .inl (messagesOnly_send code s dest msg (Origin.ofMonitor_of_ofPartition horigin))
  | direct dest msg => exact .inl (messagesOnly_deliverDirect s dest msg)
  | handle pid proc msg rest state => exact .inl (htaken pid state _ rfl)
  | discard pid proc msg rest state => exact .inl (htaken pid state _ rfl)
  | acceptIo => exact .inl (.of_event rfl rfl (fun _ => rfl) rfl rfl rfl rfl)
  | spawn behavior args => exact .inr (.spawn s behavior args)
  | link first second => exact .inr (.link s first second)
  | monitor watcher target => exact .inr (.monitor s watcher target)
  | demonitor watcher monitorRef => exact .inr (.demonitor s watcher monitorRef)
  | drain =>
      refine .inl ⟨⟨_, rfl, ?_⟩, fun _ => rfl, rfl, rfl, rfl, rfl⟩
      intro event hevent
      obtain ⟨message, _, rfl⟩ := List.mem_map.mp hevent
      rfl

/-! ## What leaves the names alone -/

theorem names_modify (s : AgentScheduler T) (pid : AgentPid)
    (f : AgentProcess T → AgentProcess T) :
    (s.modify pid f).registry.names = s.registry.names := by
  unfold modify AgentRegistry.modify
  dsimp only
  split <;> rfl

theorem names_route (s : AgentScheduler T) (dest : AgentPid) (msg : Message) :
    (s.route dest msg).2.registry.names = s.registry.names := by
  rcases route_cases s dest msg with ⟨_, delivered, _, _, _, _, _, _, h⟩ | ⟨_, _, h⟩ | h
  · rw [h]
    exact names_modify s dest fun _ => delivered
  · rw [h]
    rfl
  · rw [h]
    rfl

theorem names_send (code : BehaviorCode T) (s : AgentScheduler T) (dest : AgentPid)
    (msg : Message) (origin : Origin) :
    (s.send code dest msg origin).2.registry.names = s.registry.names := by
  unfold send
  rcases offer_cases code (s.log (.handed dest msg origin)) dest msg with
    ⟨_, h⟩ | ⟨hook, _, h⟩ | ⟨text, hook, _, h⟩
  · rw [h]
    exact names_route _ dest msg
  · rw [h]
    exact names_route _ dest msg
  · rw [h]
    rfl

theorem names_deliverDirect (s : AgentScheduler T) (dest : AgentPid) (msg : Message) :
    (s.deliverDirect dest msg).registry.names = s.registry.names := by
  unfold deliverDirect
  split
  · rfl
  · split
    · rfl
    · exact names_modify _ _ _

theorem names_takeMessage (s : AgentScheduler T) (pid : AgentPid) (state : Option T.State)
    (event : Event) :
    ((s.takeMessage pid state).log event).registry.names = s.registry.names :=
  names_modify s pid _

theorem names_spawn (code : BehaviorCode T) (s : AgentScheduler T) (behavior : T.Behavior)
    (args : Json) : (s.spawn code behavior args).2.registry.names = s.registry.names := by
  unfold spawn AgentRegistry.spawn AgentProcess.new AgentProcess.newWithMailboxCapacity
  dsimp only
  cases code.init behavior args <;> rfl

theorem names_link (s : AgentScheduler T) (first second : AgentPid) :
    (s.link first second).registry.names = s.registry.names :=
  (names_modify _ _ _).trans (names_modify _ _ _)

theorem names_monitor (s : AgentScheduler T) (watcher target : AgentPid) :
    (s.monitor watcher target).2.registry.names = s.registry.names := by
  rcases monitor_cases s watcher target with ⟨text, h⟩ | ⟨_, _, h⟩
  · rw [h]
  · rw [h]
    exact (names_modify _ _ _).trans (names_modify _ _ _)

theorem names_demonitor (s : AgentScheduler T) (watcher : AgentPid)
    (monitorRef : MonitorRef) :
    (s.demonitor watcher monitorRef).2.registry.names = s.registry.names := by
  rcases demonitor_cases s watcher monitorRef with h | ⟨_, _, _, _, _, h⟩
  · rw [h]
  · rw [h]
    exact (names_modify _ _ _).trans (names_modify _ _ _)

/-! ## Properties that the moves keep -/

/-- A property that every move keeps. -/
def Stable (code : BehaviorCode T) (Inv : AgentScheduler T → Prop) : Prop :=
  ∀ ⦃s s' : AgentScheduler T⦄, Move code s s' → Inv s → Inv s'

/-- A property that the moves keep which leave the names alone. -/
def Calm (code : BehaviorCode T) (Inv : AgentScheduler T → Prop) : Prop :=
  ∀ ⦃s s' : AgentScheduler T⦄, Move code s s' → s'.registry.names = s.registry.names →
    Inv s → Inv s'

theorem Stable.calm {code : BehaviorCode T} {Inv : AgentScheduler T → Prop}
    (h : Stable code Inv) : Calm code Inv :=
  fun _ _ hmove _ hs => h hmove hs

namespace Calm

variable {code : BehaviorCode T} {Inv : AgentScheduler T → Prop}
  {s : AgentScheduler T}

theorem adjust (h : Calm code Inv) (hs : Inv s) (pid : AgentPid)
    (f : AgentProcess T → AgentProcess T) (hquiet : AgentProcess.Quiet f) :
    Inv (s.modify pid f) :=
  h (.adjust s pid f hquiet) (names_modify ..) hs

/-! ## Parts of a tick -/

theorem bridge (h : Calm code Inv) (hs : Inv s) (bridge : Option Bridge) :
    Inv { s with bridge } :=
  h (.aside s s.queueHigh s.queueNormal s.queueLow s.advantageCount bridge
    s.pendingDestroys s.metrics) rfl hs

theorem metrics (h : Calm code Inv) (hs : Inv s) (metrics : RuntimeMetrics) :
    Inv { s with metrics } :=
  h (.aside s s.queueHigh s.queueNormal s.queueLow s.advantageCount s.bridge
    s.pendingDestroys metrics) rfl hs

theorem queues (h : Calm code Inv) (hs : Inv s)
    (queueHigh queueNormal queueLow : List AgentPid) (advantageCount : Nat) :
    Inv { s with queueHigh, queueNormal, queueLow, advantageCount } :=
  h (.aside s queueHigh queueNormal queueLow advantageCount s.bridge
    s.pendingDestroys s.metrics) rfl hs

theorem enqueue (h : Calm code Inv) (hs : Inv s) (pid : AgentPid) :
    Inv (s.enqueue pid) := by
  cases hproc : s.lookup pid with
  | none =>
      simp only [AgentScheduler.enqueue, hproc]
      exact hs
  | some proc =>
      simp only [AgentScheduler.enqueue, hproc]
      cases proc.priority with
      | high => exact h.queues hs _ _ _ _
      | normal => exact h.queues hs _ _ _ _
      | low => exact h.queues hs _ _ _ _

theorem enqueueAll (h : Calm code Inv) (hs : Inv s) (pids : List AgentPid) :
    Inv (pids.foldl AgentScheduler.enqueue s) := by
  induction pids generalizing s with
  | nil => exact hs
  | cons pid rest ih => exact ih (h.enqueue hs pid)

theorem sendAll (h : Calm code Inv) (hs : Inv s) (origin : Origin)
    (horigin : origin.ofPartition) (messages : List (AgentPid × Message)) :
    Inv (s.sendAll code origin messages) := by
  induction messages generalizing s with
  | nil => exact hs
  | cons message rest ih => exact ih (h (.send s message.1 message.2 origin horigin) (names_send ..) hs)

theorem deliverResponses (h : Calm code Inv) (hs : Inv s) :
    Inv (s.deliverResponses code) := by
  cases hbridge : s.bridge with
  | none =>
      simp only [AgentScheduler.deliverResponses, hbridge]
      exact hs
  | some bridge =>
      simp only [AgentScheduler.deliverResponses, hbridge]
      exact h.sendAll (h.bridge hs _) .scheduler rfl _

theorem retryPendingDestroys (h : Calm code Inv) (hs : Inv s) :
    Inv s.retryPendingDestroys := by
  cases hbridge : s.bridge with
  | none =>
      simp only [AgentScheduler.retryPendingDestroys, hbridge]
      exact hs
  | some bridge =>
      simp only [AgentScheduler.retryPendingDestroys, hbridge]
      exact h (.aside s s.queueHigh s.queueNormal s.queueLow s.advantageCount _ _
        s.metrics) rfl hs

theorem fireTimeout (h : Calm code Inv) (hs : Inv s) (pid : AgentPid) :
    Inv (s.fireTimeout code pid) := by
  have hcleared := h.adjust hs pid ({ · with receiveTimeout := none })
    ⟨fun _ => rfl, fun _ => rfl, fun _ => rfl, fun _ => rfl, fun _ => rfl⟩
  exact h (.send _ pid (.system .receiveTimeout) .scheduler rfl) (names_send ..) hcleared

theorem fireTimeouts (h : Calm code Inv) (hs : Inv s) (now : Nat) (order : PidOrder T) :
    Inv (s.fireTimeouts code now order) := by
  unfold AgentScheduler.fireTimeouts
  generalize (order.walk s.registry).filter (s.timedOut now) = pids
  induction pids generalizing s with
  | nil => exact hs
  | cons pid rest ih => exact ih (h.fireTimeout hs pid)

theorem nextRunnable (h : Calm code Inv) (hs : Inv s) : Inv s.nextRunnable.2 := by
  unfold AgentScheduler.nextRunnable
  split
  · exact h.queues hs _ _ _ _
  · split
    · dsimp only
      split
      · exact h.queues hs _ _ _ _
      · split
        · exact h.queues hs _ _ _ _
        · exact h.queues hs _ _ _ _
    · exact h.queues hs _ _ _ _

theorem selectRunnable (h : Calm code Inv) (hs : Inv s) (fuel : Nat) :
    Inv (s.selectRunnable fuel).2 := by
  induction fuel generalizing s with
  | zero => exact hs
  | succ fuel ih =>
      have hnext := h.nextRunnable hs
      unfold AgentScheduler.selectRunnable
      cases hpid : s.nextRunnable with
      | mk pid next =>
          rw [hpid] at hnext
          cases pid with
          | none => exact hnext
          | some pid =>
              dsimp only
              split
              · exact hnext
              · exact ih hnext

theorem charge (h : Calm code Inv) (hs : Inv s) (pid : AgentPid) (cost : Nat) :
    Inv (s.charge pid cost) :=
  h.adjust hs pid _ ⟨fun _ => rfl, fun _ => rfl, fun _ => rfl, fun _ => rfl, fun _ => rfl⟩

theorem failIo (h : Calm code Inv) (hs : Inv s) (pid : AgentPid) (text : String) :
    Inv (s.failIo pid text) := by
  have htext := h (.direct s pid (.text text)) (names_deliverDirect ..) hs
  exact h.enqueue (h.adjust htext pid ({ · with status := .runnable })
    ⟨fun _ => rfl, fun _ => rfl, fun _ => rfl, fun _ => rfl, fun _ => rfl⟩) pid

theorem requestIo (h : Calm code Inv) (hs : Inv s) (pid : AgentPid) (op : IoOp) :
    Inv (s.requestIo pid op) := by
  have hwaiting := h.adjust hs pid
    (fun proc => { proc with reductions := proc.reductions - 1, status := .waiting })
    ⟨fun _ => rfl, fun _ => rfl, fun _ => rfl, fun _ => rfl, fun _ => rfl⟩
  unfold AgentScheduler.requestIo
  dsimp only
  split
  · exact h.failIo hwaiting _ _
  · split
    · exact h (.acceptIo _ pid _) rfl (h.bridge hwaiting _)
    · exact h.failIo (h.bridge hwaiting _) _ _

theorem dispatch (h : Calm code Inv) (hs : Inv s) (pid : AgentPid) (fuel : Nat)
    (deferred : Deferred T) : Inv (s.dispatch code pid fuel deferred).1 := by
  induction fuel generalizing s deferred with
  | zero => exact hs
  | succ fuel ih =>
      unfold AgentScheduler.dispatch
      split
      · exact hs
      · rename_i proc hproc
        split
        · exact hs
        · split
          · exact hs
          · rename_i msg rest hmailbox
            split
            · exact h (.discard s pid proc msg rest none hproc hmailbox) (names_takeMessage ..) hs
            · rename_i state _
              have htaken := h (.handle s pid proc msg rest
                (runCallback code proc.behavior msg state).2 hproc hmailbox)
                (names_takeMessage ..) hs
              dsimp only
              split
              · exact ih htaken _
              · exact ih (h.charge htaken pid 2) _
              · exact htaken
              · exact h.requestIo htaken pid _
              · exact ih (h.charge htaken pid 10) _

theorem monitorChild (h : Calm code Inv) (hs : Inv s) (pid child : AgentPid) :
    Inv (s.monitorChild pid child).2 := by
  have hmonitor := h (.monitor s pid child) (names_monitor ..) hs
  unfold AgentScheduler.monitorChild
  cases hanswer : s.monitor pid child with
  | mk answer next =>
      rw [hanswer] at hmonitor
      cases answer with
      | ok monitorRef => exact hmonitor
      | error text => exact hmonitor

theorem spawnPending (h : Calm code Inv) (hs : Inv s) (pid : AgentPid)
    (request : T.Behavior × Json × Bool × Bool) :
    Inv (s.spawnPending code pid request) := by
  obtain ⟨behavior, args, link, monitor⟩ := request
  have hspawn := h (.spawn s behavior args) (names_spawn ..) hs
  unfold AgentScheduler.spawnPending
  cases hanswer : s.spawn code behavior args with
  | mk answer next =>
      rw [hanswer] at hspawn
      cases answer with
      | error reason => simpa only [hanswer] using hspawn
      | ok child =>
          simp only [hanswer]
          have hlink : Inv (if link then next.link pid child else next) := by
            split
            · exact h (.link next pid child) (names_link ..) hspawn
            · exact hspawn
          generalize (if link then next.link pid child else next) = linked at hlink
          apply h.enqueue
          apply h (.send _ pid _ .scheduler rfl) (names_send ..)
          split
          · exact h.monitorChild hlink pid child
          · exact hlink

theorem spawnAll (h : Calm code Inv) (hs : Inv s) (pid : AgentPid)
    (requests : List (T.Behavior × Json × Bool × Bool)) :
    Inv (requests.foldl (AgentScheduler.spawnPending code pid) s) := by
  induction requests generalizing s with
  | nil => exact hs
  | cons request rest ih => exact ih (h.spawnPending hs pid request)

section Terminating

/-! ## Ticks and calls, over what termination keeps -/

variable {terminate : AgentScheduler T → AgentPid → Reason → Option (AgentScheduler T)}

theorem runProcess (h : Calm code Inv)
    (hterminate : ∀ {s s' pid reason}, terminate s pid reason = some s' → Inv s → Inv s')
    {s' : AgentScheduler T} {pid : AgentPid} (hrun : s.runProcess code terminate pid = some s')
    (hs : Inv s) : Inv s' := by
  have hstart := h.adjust hs pid ({ · with reductions := defaultReductions })
    ⟨fun _ => rfl, fun _ => rfl, fun _ => rfl, fun _ => rfl, fun _ => rfl⟩
  have hloop := h.dispatch hstart pid (defaultReductions + 1) .none
  unfold AgentScheduler.runProcess at hrun
  dsimp only at hrun
  generalize AgentScheduler.dispatch code pid (defaultReductions + 1) _ Deferred.none =
    result at hrun hloop
  obtain ⟨left, deferred⟩ := result
  have hwaited : Inv (if deferred.shouldWait then left.setWaiting pid else left) := by
    split
    · exact h.adjust hloop pid _
        ⟨fun _ => rfl, fun _ => rfl, fun _ => rfl, fun _ => rfl, fun _ => rfl⟩
    · exact hloop
  have hqueued : Inv (if deferred.outOfReductions then
      (if deferred.shouldWait then left.setWaiting pid else left).enqueue pid
    else if deferred.shouldWait then left.setWaiting pid else left) := by
    split
    · exact h.enqueue hwaited pid
    · exact hwaited
  have hsent := h.sendAll hqueued (.action pid) rfl deferred.pendingSends
  have hspawned := h.spawnAll hsent pid deferred.pendingSpawns
  cases hstop : deferred.shouldStop with
  | none =>
      simp only [hstop, Option.some.injEq] at hrun
      exact hrun ▸ hspawned
  | some reason =>
      simp only [hstop] at hrun
      exact hterminate hrun hspawned

theorem tick (h : Calm code Inv)
    (hterminate : ∀ {s s' pid reason}, terminate s pid reason = some s' → Inv s → Inv s')
    {now : Nat} {order : PidOrder T} {worked : Bool} {s' : AgentScheduler T}
    (htick : s.tick code terminate now order = some (worked, s')) (hs : Inv s) : Inv s' := by
  have hready := h.fireTimeouts (h.retryPendingDestroys (h.deliverResponses hs)) now order
  unfold AgentScheduler.tick at htick
  dsimp only at htick
  generalize (((s.deliverResponses code).retryPendingDestroys).fireTimeouts code now order) =
    ready at htick hready
  have hselected := h.selectRunnable hready (ready.queued + 1)
  generalize ready.selectRunnable (ready.queued + 1) = picked at htick hselected
  obtain ⟨pid, selected⟩ := picked
  cases pid with
  | none =>
      simp only [Option.some.injEq, Prod.mk.injEq] at htick
      exact htick.2 ▸ hselected
  | some pid =>
      simp only [Option.map_eq_some_iff, Prod.mk.injEq] at htick
      obtain ⟨final, hrun, _, rfl⟩ := htick
      exact h.runProcess hterminate hrun hselected

theorem gracefulShutdown (h : Calm code Inv)
    (hterminate : ∀ {s s' pid reason}, terminate s pid reason = some s' → Inv s → Inv s')
    {workers : List Bridge.WorkerStep} {order : PidOrder T} {s' : AgentScheduler T}
    (hshutdown : s.gracefulShutdown code terminate workers order = some s')
    (hs : Inv s) : Inv s' := by
  have hdelivered := h.deliverResponses
    (h.bridge hs (s.bridge.map (workers.foldl Bridge.workerStep)))
  simp only [AgentScheduler.gracefulShutdown, Option.bind_eq_bind,
    Option.bind_eq_some_iff, Option.some.injEq] at hshutdown
  obtain ⟨ended, hrun, rfl⟩ := hshutdown
  apply h (.aside _ [] [] [] _ none _ _) rfl
  apply GuardedRun.foldlM_keeps _ _ hrun hdelivered
  intro s pid s' _ hpid hs
  split at hpid
  · exact hterminate hpid hs
  · exact (Option.some.inj hpid) ▸ hs

/-- A call keeps what the moves, terminations, and registrations of handlers and names
keep. -/
theorem perform (h : Calm code Inv)
    (hterminate : ∀ {s s' pid reason}, terminate s pid reason = some s' → Inv s → Inv s')
    {call : Call T}
    (hhandler : ∀ {s} handler, call = .addExitHandler handler → Inv s →
      Inv (s.addExitHandler handler))
    (hregistered : ∀ {name pid registry}, call = .registerName name pid →
      s.registry.registerName name pid = .ok registry → Inv { s with registry })
    (hunregister : ∀ {name}, call = .unregisterName name →
      Inv { s with registry := s.registry.unregisterName name })
    {reply : Reply} {s' : AgentScheduler T}
    (hcall : s.perform code terminate call = some (reply, s')) (hs : Inv s) : Inv s' := by
  have hdone : ∀ {s' : AgentScheduler T} {answer : Reply} {next : AgentScheduler T},
      Inv next → some (answer, next) = some (reply, s') → Inv s' := by
    intro s' answer next hnext heq
    simp only [Option.some.injEq, Prod.mk.injEq] at heq
    exact heq.2 ▸ hnext
  cases call with
  | spawn behavior args => exact hdone (h (.spawn s behavior args) (names_spawn ..) hs) hcall
  | setPriority pid priority =>
      exact hdone (h.adjust hs pid ({ · with priority })
        ⟨fun _ => rfl, fun _ => rfl, fun _ => rfl, fun _ => rfl, fun _ => rfl⟩) hcall
  | setTrapExit pid trapExit =>
      exact hdone (h.adjust hs pid ({ · with trapExit })
        ⟨fun _ => rfl, fun _ => rfl, fun _ => rfl, fun _ => rfl, fun _ => rfl⟩) hcall
  | enqueue pid => exact hdone (h.enqueue hs pid) hcall
  | send dest msg => exact hdone (h (.send s dest msg .caller rfl) (names_send ..) hs) hcall
  | link first second => exact hdone (h (.link s first second) (names_link ..) hs) hcall
  | monitor watcher target => exact hdone (h (.monitor s watcher target) (names_monitor ..) hs) hcall
  | demonitor watcher monitorRef =>
      exact hdone (h (.demonitor s watcher monitorRef) (names_demonitor ..) hs) hcall
  | setReceiveTimeout pid deadline =>
      have htimeout : Inv (s.setReceiveTimeout pid deadline).2 := by
        unfold AgentScheduler.setReceiveTimeout
        split
        · exact hs
        · split
          · exact hs
          · exact h.adjust hs pid _
              ⟨fun _ => rfl, fun _ => rfl, fun _ => rfl, fun _ => rfl, fun _ => rfl⟩
      exact hdone htimeout hcall
  | cancel pid => exact hdone (h.bridge hs _) hcall
  | registerName name pid =>
      simp only [AgentScheduler.perform] at hcall
      split at hcall
      · exact hdone hs hcall
      · rename_i registry hregister
        exact hdone (hregistered rfl hregister) hcall
  | unregisterName name => exact hdone (hunregister rfl) hcall
  | drainOutboundMessages => exact hdone (h (.drain s) rfl hs) hcall
  | addExitHandler handler => exact hdone (hhandler handler rfl hs) hcall
  | setMessageHook hook => exact hdone (h (.hook s hook) rfl hs) hcall
  | clearMessageHook => exact hdone (h (.hookCleared s) rfl hs) hcall
  | setBridge bridge => exact hdone (h.bridge hs _) hcall
  | clearBridge => exact hdone (h.bridge hs _) hcall
  | setExternalRouting enabled => exact hdone (h (.routing s enabled) rfl hs) hcall
  | gracefulShutdown workers order =>
      simp only [AgentScheduler.perform, Option.map_eq_some_iff, Prod.mk.injEq] at hcall
      obtain ⟨final, hrun, _, rfl⟩ := hcall
      exact h.gracefulShutdown hterminate hrun hs
  | terminateProcess pid reason =>
      simp only [AgentScheduler.perform, Option.map_eq_some_iff, Prod.mk.injEq] at hcall
      obtain ⟨final, hrun, _, rfl⟩ := hcall
      exact hterminate hrun hs
  | tick now order =>
      simp only [AgentScheduler.perform, Option.map_eq_some_iff, Prod.mk.injEq] at hcall
      obtain ⟨⟨worked, final⟩, hrun, _, rfl⟩ := hcall
      exact h.tick hterminate hrun hs

/-- A handler's program keeps what each of its calls keeps. -/
theorem runProg {call : AgentScheduler T → Call T → Option (Reply × AgentScheduler T)}
    (hcall : ∀ {s s' c reply}, call s c = some (reply, s') → Inv s → Inv s')
    {prog : HandlerProg T} {handler : T.Handler} {s' : AgentScheduler T}
    (hrun : AgentScheduler.runProg call prog s = some (handler, s')) (hs : Inv s) :
    Inv s' := by
  induction prog generalizing s with
  | done ended =>
      simp only [AgentScheduler.runProg, Option.some.injEq, Prod.mk.injEq] at hrun
      exact hrun.2 ▸ hs
  | call c next ih =>
      unfold AgentScheduler.runProg at hrun
      split at hrun
      · contradiction
      · rename_i reply middle hfirst
        exact ih reply middle hrun (hcall hfirst hs)

end Terminating

end Calm

theorem names_registerName {registry registry' : AgentRegistry T} {name : String}
    {pid : AgentPid} (h : registry.registerName name pid = .ok registry') :
    registry' = { registry with names := registry'.names } := by
  unfold AgentRegistry.registerName at h
  split at h
  · split at h
    · contradiction
    · rw [← Except.ok.inj h]
  · rw [← Except.ok.inj h]

/-- A call keeps what the moves, terminations and registrations of handlers keep. -/
theorem Stable.perform {code : BehaviorCode T} {Inv : AgentScheduler T → Prop}
    {terminate : AgentScheduler T → AgentPid → Reason → Option (AgentScheduler T)}
    {s s' : AgentScheduler T} {call : Call T} {reply : Reply} (h : Stable code Inv)
    (hterminate : ∀ {s s' pid reason}, terminate s pid reason = some s' → Inv s → Inv s')
    (hhandler : ∀ {s} handler, call = .addExitHandler handler → Inv s →
      Inv (s.addExitHandler handler))
    (hcall : s.perform code terminate call = some (reply, s')) (hs : Inv s) : Inv s' := by
  refine h.calm.perform hterminate hhandler ?_ ?_ hcall hs
  · intro name pid registry _ hregister
    rw [names_registerName hregister]
    exact h (.rename s registry.names) hs
  · intro name _
    exact h (.rename s _) hs


/-! ## Terminations and runs -/

/-- A property kept by the moves, and by what the relations of a removed process
learn besides. -/
structure StableNotices (code : BehaviorCode T) (Inv : AgentScheduler T → Prop) : Prop where
  move : Stable code Inv
  dropMonitoredBy : ∀ {s} target monitorRef watcher, Inv s →
    Inv (s.dropMonitoredBy target monitorRef watcher)
  dropMonitor : ∀ {s} watcher monitorRef target, Inv s →
    Inv (s.dropMonitor watcher monitorRef target)
  down : ∀ {s} pid reason monitor, Inv s → Inv (sendDown code pid reason s monitor)

namespace StableNotices

variable {code : BehaviorCode T} {Inv : AgentScheduler T → Prop} {s : AgentScheduler T}

theorem notifyLinks (h : StableNotices code Inv) (pid : AgentPid) (reason : Reason)
    (links : List AgentPid) (notices : LinkNotices T) (hs : Inv notices.scheduler) :
    Inv (links.foldl (notifyLink pid reason) notices).scheduler := by
  induction links generalizing notices with
  | nil => exact hs
  | cons linked rest ih =>
      apply ih
      unfold notifyLink
      split
      · exact hs
      · split
        · exact h.move (.direct _ _ _) hs
        · split
          · exact hs
          · exact hs

theorem notifyRelations (h : StableNotices code Inv) (hs : Inv s) (pid : AgentPid)
    (reason : Reason) (links : List AgentPid)
    (monitors monitoredBy : List (MonitorRef × AgentPid)) :
    Inv (s.notifyRelations code pid reason links monitors monitoredBy).2 := by
  have hmonitors : Inv (monitors.foldl
      (fun s record => s.dropMonitoredBy record.2 record.1 pid) s) := by
    induction monitors generalizing s with
    | nil => exact hs
    | cons record rest ih => exact ih (h.dropMonitoredBy record.2 record.1 pid hs)
  have hlinks := h.notifyLinks pid reason links ⟨_, [], []⟩ hmonitors
  have hwatchers : ∀ (records : List (MonitorRef × AgentPid)) {s : AgentScheduler T},
      Inv s → Inv (records.foldl
        (fun s record => s.dropMonitor record.2 record.1 pid) s) := by
    intro records
    induction records with
    | nil => exact fun hs => hs
    | cons record rest ih =>
        intro s hs
        exact ih (h.dropMonitor record.2 record.1 pid hs)
  have hdowns : ∀ (records : List (MonitorRef × AgentPid)) {s : AgentScheduler T},
      Inv s → Inv (records.foldl (sendDown code pid reason) s) := by
    intro records
    induction records with
    | nil => exact fun hs => hs
    | cons record rest ih =>
        intro s hs
        exact ih (h.down pid reason record hs)
  exact hdowns monitoredBy (h.move.calm.enqueueAll (hwatchers monitoredBy hlinks) _)

/-- What is kept by the removal besides is kept by the whole of it. -/
theorem takeDown (h : StableNotices code Inv)
    (hterminating : ∀ {s} pid live handlersOut noHandlers, Inv s →
      Inv (s.log (.terminating pid live handlersOut noHandlers)))
    (hremoved : ∀ {s} pid, Inv s → Inv (s.removeProcess pid))
    (hs : Inv s) (pid : AgentPid) (reason : Reason) :
    Inv (s.takeDown code pid reason).2 :=
  h.notifyRelations (hremoved pid (hterminating pid _ _ _ (h.move.calm.bridge hs _))) pid reason
    _ _ _

end StableNotices

theorem Calm.finishTermination {code : BehaviorCode T} {Inv : AgentScheduler T → Prop}
    {s : AgentScheduler T} (h : Calm code Inv) (hs : Inv s) (pid : AgentPid) :
    Inv (s.finishTermination pid) := by
  unfold AgentScheduler.finishTermination
  dsimp only
  split
  · exact h.metrics hs _
  · split
    · exact h (.aside s _ _ _ _ _ _ _) rfl hs
    · exact h (.aside s _ _ _ _ _ _ _) rfl hs

section Handlers

variable {code : AgentCode T} {Inv : AgentScheduler T → Prop} {s s' : AgentScheduler T}
  {call : AgentScheduler T → Call T → Option (Reply × AgentScheduler T)} {pid : AgentPid}
  {reason : Reason}

theorem invokeAll_keeps
    (hinvoked : ∀ {s} id pid reason, Inv s → Inv (s.log (.handlerInvoked id pid reason)))
    (hcall : ∀ {s s' c reply}, call s c = some (reply, s') → Inv s → Inv s')
    {handlers handlers' : List (Nat × T.Handler)}
    (hrun : invokeAll code call pid reason handlers s = some (handlers', s'))
    (hs : Inv s) : Inv s' := by
  induction handlers generalizing s handlers' with
  | nil =>
      simp only [invokeAll, Option.some.injEq, Prod.mk.injEq] at hrun
      exact hrun.2 ▸ hs
  | cons entry rest ih =>
      obtain ⟨id, handler⟩ := entry
      unfold invokeAll at hrun
      dsimp only at hrun
      split at hrun
      · contradiction
      · rename_i ended middle hprog
        simp only [Option.map_eq_some_iff, Prod.mk.injEq] at hrun
        obtain ⟨⟨others, final⟩, hrest, _, rfl⟩ := hrun
        exact ih hrest (Calm.runProg hcall hprog (hinvoked id pid reason hs))

theorem runExitHandlers_keeps
    (hhandlers : ∀ {s} exitHandlers handlersOut, Inv s → Inv { s with exitHandlers, handlersOut })
    (hinvoked : ∀ {s} id pid reason, Inv s → Inv (s.log (.handlerInvoked id pid reason)))
    (hcall : ∀ {s s' c reply}, call s c = some (reply, s') → Inv s → Inv s')
    (hrun : s.runExitHandlers code call pid reason = some s') (hs : Inv s) : Inv s' := by
  unfold runExitHandlers at hrun
  split at hrun
  · exact (Option.some.inj hrun) ▸ hs
  · simp only [Option.map_eq_some_iff] at hrun
    obtain ⟨⟨handlers, middle⟩, hinvoke, rfl⟩ := hrun
    exact hhandlers _ _ (invokeAll_keeps hinvoked hcall hinvoke (hhandlers [] true hs))

end Handlers

/-- A property kept by all a scheduler does, exit handlers included. -/
structure StableRun (code : AgentCode T) (Inv : AgentScheduler T → Prop) : Prop where
  move : Stable code.toBehaviorCode Inv
  takeDown : ∀ {s} pid reason, Inv s → Inv (s.takeDown code.toBehaviorCode pid reason).2
  handlers : ∀ {s} exitHandlers handlersOut, Inv s →
    Inv { s with exitHandlers, handlersOut }
  handlerAdded : ∀ {s} id handlersOut, Inv s → Inv (s.log (.handlerAdded id handlersOut))
  handlerInvoked : ∀ {s} id pid reason, Inv s →
    Inv (s.log (.handlerInvoked id pid reason))

namespace StableRun

variable {code : AgentCode T} {Inv : AgentScheduler T → Prop} {s s' : AgentScheduler T}

theorem addExitHandler (h : StableRun code Inv) (handler : T.Handler) (hs : Inv s) :
    Inv (s.addExitHandler handler) :=
  h.handlerAdded _ _ (h.handlers _ s.handlersOut hs)

theorem runExitHandlers (h : StableRun code Inv)
    {call : AgentScheduler T → Call T → Option (Reply × AgentScheduler T)}
    (hcall : ∀ {s s' c reply}, call s c = some (reply, s') → Inv s → Inv s')
    {pid : AgentPid} {reason : Reason}
    (hrun : s.runExitHandlers code call pid reason = some s') (hs : Inv s) : Inv s' :=
  runExitHandlers_keeps h.handlers h.handlerInvoked hcall hrun hs

/-- The cascade and the handlers run with less fuel, after the process was taken down. -/
theorem afterTakeDown (h : StableRun code Inv) {fuel : Nat}
    (hless : ∀ {s s' pid reason}, AgentScheduler.terminateProcess code fuel s pid reason =
      some s' → Inv s → Inv s') {pid : AgentPid} {reason : Reason}
    (hrun : AgentScheduler.terminateProcess code (fuel + 1) s pid reason = some s')
    (hdown : Inv (s.takeDown code.toBehaviorCode pid reason).2) : Inv s' := by
  unfold AgentScheduler.terminateProcess at hrun
  generalize s.takeDown code.toBehaviorCode pid reason = taken at hrun hdown
  obtain ⟨pidsToCascade, down⟩ := taken
  simp only [Option.bind_eq_bind, Option.bind_eq_some_iff, Option.some.injEq] at hrun
  obtain ⟨cascaded, hcascade, handled, hhandlers, rfl⟩ := hrun
  have hcascaded : Inv cascaded :=
    GuardedRun.foldlM_keeps pidsToCascade (fun _ _ _ _ hfirst hs => hless hfirst hs)
      hcascade hdown
  have hcall : ∀ {s s' : AgentScheduler T} {c : Call T} {reply : Reply},
      s.perform code.toBehaviorCode (AgentScheduler.terminateProcess code fuel) c =
        some (reply, s') → Inv s → Inv s' :=
    fun hperform hs => h.move.perform hless (fun handler _ => h.addExitHandler handler)
      hperform hs
  have hended := h.runExitHandlers hcall hhandlers hcascaded
  exact h.move.calm.finishTermination hended pid

/-- By induction on the fuel. -/
theorem terminateProcess (h : StableRun code Inv) {fuel : Nat} {pid : AgentPid}
    {reason : Reason} (hrun : AgentScheduler.terminateProcess code fuel s pid reason = some s')
    (hs : Inv s) : Inv s' := by
  induction fuel generalizing s s' pid reason with
  | zero => contradiction
  | succ fuel ih => exact h.afterTakeDown ih hrun (h.takeDown pid reason hs)

/-- What holds once the process is taken down holds at the end of its termination. -/
theorem terminateProcess_of_takeDown (h : StableRun code Inv) {fuel : Nat} {pid : AgentPid}
    {reason : Reason} (hrun : AgentScheduler.terminateProcess code fuel s pid reason = some s')
    (hdown : Inv (s.takeDown code.toBehaviorCode pid reason).2) : Inv s' := by
  cases fuel with
  | zero => contradiction
  | succ fuel => exact h.afterTakeDown h.terminateProcess hrun hdown

theorem step (h : StableRun code Inv) {fuel : Nat} {op : RunOp T}
    (hstep : s.step code fuel op = some s') (hs : Inv s) : Inv s' := by
  cases op with
  | call call =>
      simp only [AgentScheduler.step, Option.map_eq_some_iff] at hstep
      obtain ⟨⟨reply, final⟩, hperform, rfl⟩ := hstep
      exact h.move.perform h.terminateProcess (fun handler _ => h.addExitHandler handler)
        hperform hs
  | worker workerStep =>
      simp only [AgentScheduler.step, Option.some.injEq] at hstep
      exact hstep ▸ h.move.calm.bridge hs _
  | countersAdvance pids refs =>
      simp only [AgentScheduler.step, Option.some.injEq] at hstep
      exact hstep ▸ h.move (.counters s pids refs) hs

theorem run (h : StableRun code Inv) {ops : List (Nat × RunOp T)}
    (hrun : s.run code ops = some s') (hs : Inv s) : Inv s' :=
  GuardedRun.foldlM_keeps ops (fun _ _ _ _ hstep hs => h.step hstep hs) hrun hs

end StableRun

end AgentScheduler

end Zeptobeam
