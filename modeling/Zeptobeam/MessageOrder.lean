/-
The order of messages in one scheduler.  Send actions are handed to `send` in their order,
and a mailbox or the outbound queue hands on the messages of one origin in that order.
-/
import Zeptobeam.MailboxTags

namespace Zeptobeam

open TaggedQueue

/-- What was handed to `send`, and by whom. -/
def handedMessages (trace : List Event) : List ((AgentPid × Message) × Origin) :=
  trace.filterMap fun event => match event with
    | .handed dest msg origin => some ((dest, msg), origin)
    | _ => none

def picks (dest : AgentPid) (origin : Origin) (entry : (AgentPid × Message) × Origin) : Bool :=
  entry.1.1 = dest && entry.2 = origin

/-- The messages for one process that one origin handed over. -/
def picked (dest : AgentPid) (origin : Origin)
    (entries : List ((AgentPid × Message) × Origin)) : List Message :=
  (entries.filter (picks dest origin)).map fun entry => entry.1.2

/-- The messages one process sent another by Send actions, oldest first. -/
def sentTo (sender dest : AgentPid) (trace : List Event) : List Message :=
  picked dest (.action sender) (handedMessages trace)

/-- The messages of one origin that a process has handled, oldest first. -/
def handledFrom (dest : AgentPid) (origin : Origin) (trace : List Event) : List Message :=
  picked dest origin (mailboxBook dest trace).taken

theorem handedMessages_append (trace events : List Event) :
    handedMessages (trace ++ events) = handedMessages trace ++ handedMessages events :=
  List.filterMap_append

theorem picked_append (dest : AgentPid) (origin : Origin)
    (entries more : List ((AgentPid × Message) × Origin)) :
    picked dest origin (entries ++ more) =
      picked dest origin entries ++ picked dest origin more := by
  rw [picked, List.filter_append, List.map_append]
  rfl

theorem picked_sublist {dest : AgentPid} {origin : Origin}
    {entries more : List ((AgentPid × Message) × Origin)}
    (h : entries.Sublist more) : (picked dest origin entries).Sublist (picked dest origin more) :=
  (h.filter _).map _

/-- Either book is told of what was handed over. -/
theorem announced_mailbox (pid : AgentPid) (trace : List Event) :
    Book.announced (trace.map (Event.mailboxStep pid)) = handedMessages trace := by
  rw [Book.announced, List.filterMap_map, handedMessages]
  congr 1
  funext event
  cases event with
  | put dest | handled dest | discarded dest =>
      by_cases h : dest = pid <;> simp [Event.mailboxStep, h]
  | direct dest msg delivered =>
      by_cases h : dest = pid <;> cases delivered <;> simp [Event.mailboxStep, h]
  | _ => rfl

theorem announced_outbound (trace : List Event) :
    Book.announced (trace.map Event.outboundStep) = handedMessages trace := by
  rw [Book.announced, List.filterMap_map, handedMessages]
  congr 1
  funext event
  cases event with
  | _ => rfl

/-- A mailbox hands out the messages of one origin in the order they were handed over. -/
theorem handledFrom_sublist (dest : AgentPid) {origin : Origin} (horigin : origin ≠ .scheduler)
    (trace : List Event) :
    (handledFrom dest origin trace).Sublist (picked dest origin (handedMessages trace)) := by
  rw [← announced_mailbox dest trace]
  apply List.Sublist.map
  apply Book.filter_taken_replay
  intro item
  simp [picks, Ne.symm horigin]

/-- So does the outbound queue. -/
theorem drained_sublist (dest : AgentPid) {origin : Origin} (horigin : origin ≠ .scheduler)
    (trace : List Event) :
    (picked dest origin (outboundBook trace).taken).Sublist
      (picked dest origin (handedMessages trace)) := by
  rw [← announced_outbound trace]
  apply List.Sublist.map
  apply Book.filter_taken_replay
  intro item
  simp [picks, Ne.symm horigin]

/-- What was handed over once goes into one place once: into the mailbox or out. -/
structure KeptOnce (mailbox outbound : Book (AgentPid × Message) Origin)
    (handed : List ((AgentPid × Message) × Origin)) : Prop where
  last : outbound.last = mailbox.last
  once : ∀ entry, entry.2 ≠ .scheduler → mailbox.kept entry + outbound.kept entry +
    Book.times entry mailbox.last.toList ≤ Book.times entry handed

theorem KeptOnce.record {mailbox outbound : Book (AgentPid × Message) Origin}
    {handed : List ((AgentPid × Message) × Origin)} (h : KeptOnce mailbox outbound handed)
    (pid : AgentPid) (event : Event) :
    KeptOnce (mailbox.record .scheduler (event.mailboxStep pid))
      (outbound.record .scheduler event.outboundStep) (handed ++ handedMessages [event]) := by
  have hsame : ∀ {mailbox' : Book (AgentPid × Message) Origin},
      (∀ entry, entry.2 ≠ .scheduler → mailbox'.kept entry ≤ mailbox.kept entry) →
      mailbox'.last = mailbox.last →
      KeptOnce mailbox' outbound (handed ++ []) := by
    intro mailbox' hkept hlast
    refine ⟨h.last.trans hlast.symm, fun entry hentry => ?_⟩
    have honce := h.once entry hentry
    have hle := hkept entry hentry
    rw [hlast, List.append_nil]
    omega
  have hpass : ∀ {mailbox' : Book (AgentPid × Message) Origin},
      (∀ entry, entry.2 ≠ .scheduler →
        mailbox'.kept entry ≤ mailbox.kept entry + Book.times entry mailbox.last.toList) →
      mailbox'.last = none → KeptOnce mailbox' { outbound with last := none }
        (handed ++ []) := by
    intro mailbox' hkept hlast
    refine ⟨hlast.symm, fun entry hentry => ?_⟩
    have honce := h.once entry hentry
    have hle := hkept entry hentry
    have hout : ({ outbound with last := none } : Book (AgentPid × Message) Origin).kept
      entry = outbound.kept entry := rfl
    rw [hlast, List.append_nil, hout]
    exact Nat.le_trans (Nat.add_le_add_right hle _) (by omega)
  cases event with
  | handed dest msg origin =>
      refine ⟨rfl, fun entry hentry => ?_⟩
      have honce := h.once entry hentry
      have hmailbox : (mailbox.record .scheduler
        (.announce (dest, msg) origin)).kept entry = mailbox.kept entry := rfl
      have hout : (outbound.record .scheduler
        (.announce (dest, msg) origin)).kept entry = outbound.kept entry := rfl
      change (mailbox.record .scheduler (.announce (dest, msg) origin)).kept entry +
        (outbound.record .scheduler (.announce (dest, msg) origin)).kept entry +
          Book.times entry [((dest, msg), origin)] ≤
            Book.times entry (handed ++ [((dest, msg), origin)])
      rw [Book.times_append, hmailbox, hout]
      omega
  | put dest msg =>
      rw [Event.mailboxStep]
      split
      · exact hpass (fun entry hentry => Book.kept_enter _ hentry mailbox _) rfl
      · exact hpass (fun _ _ => Nat.le_add_right _ _) rfl
  | queuedOutbound dest msg =>
      refine ⟨rfl, fun entry hentry => ?_⟩
      have honce := h.once entry hentry
      have hle := Book.kept_enter _ hentry outbound (dest, msg)
      have hmailbox : (mailbox.record .scheduler .pass).kept entry = mailbox.kept entry := rfl
      change (mailbox.record .scheduler .pass).kept entry +
        (outbound.record .scheduler (.enter (dest, msg))).kept entry + 0 ≤
          Book.times entry (handed ++ [])
      rw [hmailbox, List.append_nil]
      rw [h.last] at hle
      omega
  | direct dest msg delivered =>
      rw [Event.mailboxStep]
      split
      · exact hsame (fun entry hentry =>
          Nat.le_of_eq (Book.kept_stray _ hentry mailbox _)) rfl
      · exact hsame (fun _ _ => Nat.le_refl _) rfl
  | handled dest msg =>
      rw [Event.mailboxStep]
      split
      · exact hsame (fun entry _ => Book.kept_leave _ mailbox true entry)
          (Book.last_leave _ mailbox true)
      · exact hsame (fun _ _ => Nat.le_refl _) rfl
  | discarded dest msg =>
      rw [Event.mailboxStep]
      split
      · exact hsame (fun entry _ => Book.kept_leave _ mailbox false entry)
          (Book.last_leave _ mailbox false)
      · exact hsame (fun _ _ => Nat.le_refl _) rfl
  | drainedOutbound dest msg =>
      refine ⟨?_, fun entry hentry => ?_⟩
      · exact (Book.last_leave _ outbound true).trans h.last
      · have honce := h.once entry hentry
        have hle := Book.kept_leave Origin.scheduler outbound true entry
        change mailbox.kept entry + (outbound.record .scheduler (.leave true)).kept entry +
          Book.times entry mailbox.last.toList ≤ Book.times entry (handed ++ [])
        rw [List.append_nil]
        omega
  | _ => exact hsame (fun _ _ => Nat.le_refl _) rfl

theorem keptOnce (pid : AgentPid) (trace : List Event) :
    KeptOnce (mailboxBook pid trace) (outboundBook trace) (handedMessages trace) := by
  induction trace using List.reverseRecOn with
  | nil => exact ⟨rfl, fun _ _ => Nat.le_refl _⟩
  | append_singleton trace event ih =>
      have hrecorded := ih.record pid event
      rw [mailboxBook, outboundBook, handedMessages_append, List.map_append, List.map_append,
        Book.replay_append, Book.replay_append]
      exact hrecorded

theorem count_picked (dest : AgentPid) (origin : Origin) (msg : Message)
    (entries : List ((AgentPid × Message) × Origin)) :
    (picked dest origin entries).count msg = Book.times ((dest, msg), origin) entries := by
  rw [picked, List.count, List.countP_map, List.countP_filter, Book.times]
  apply List.countP_congr
  rintro ⟨⟨q, other⟩, tag⟩ _
  simp [picks]
  tauto

/-- A message is not both handled in its sender's partition and drained from it. -/
theorem handled_or_drained_once (sender dest : AgentPid) (trace : List Event)
    (msg : Message) :
    (handledFrom dest (.action sender) trace).count msg +
      (picked dest (.action sender) (outboundBook trace).taken).count msg ≤
        (sentTo sender dest trace).count msg := by
  have honce := (keptOnce dest trace).once ((dest, msg), .action sender) (by simp)
  have htaken : ∀ book : Book (AgentPid × Message) Origin, ∀ entry,
      Book.times entry book.taken ≤ book.kept entry := by
    intro book entry
    rw [Book.kept, Book.times_append]
    exact Nat.le_add_right _ _
  have hmailbox := htaken (mailboxBook dest trace) ((dest, msg), .action sender)
  have houtbound := htaken (outboundBook trace) ((dest, msg), .action sender)
  rw [handledFrom, sentTo, count_picked, count_picked, count_picked]
  omega

/-- What the cluster has handed over for other partitions. -/
def routedMessages (trace : List Event) : List ((AgentPid × Message) × Origin) :=
  (handedMessages trace).filter fun entry => match entry.2 with
    | .routed .. => true
    | _ => false

/-- What is picked for a route was routed. -/
theorem picked_routed (dest : AgentPid) (i : Nat) (sender : AgentPid) (trace : List Event) :
    picked dest (.routed i sender) (routedMessages trace) =
      picked dest (.routed i sender) (handedMessages trace) := by
  rw [picked, routedMessages, List.filter_filter, picked]
  congr 2
  funext entry
  obtain ⟨item, origin⟩ := entry
  cases origin with
  | _ => simp [picks]

/-! ## From the actions to `send` -/

def Action.sends {T : AgentTypes} : Action T → Option (AgentPid × Message)
  | .send dest msg => some (dest, msg)
  | _ => none

namespace AgentScheduler

variable {T : AgentTypes}

/-- The actions that a process returns in one dispatch loop, in their order. -/
def actionsOf (code : BehaviorCode T) (pid : AgentPid) : Nat → AgentScheduler T → List (Action T)
  | 0, _ => []
  | fuel + 1, s =>
      match s.lookup pid with
      | none => []
      | some proc =>
          if proc.reductions = 0 then []
          else
            match proc.mailbox, proc.state with
            | msg :: _, some state =>
                let (action, state) := runCallback code proc.behavior msg state
                let s := (s.takeMessage pid state).log (.handled pid msg)
                action :: match action with
                  | .continue => actionsOf code pid fuel s
                  | .send .. => actionsOf code pid fuel (s.charge pid 2)
                  | .spawn .. => actionsOf code pid fuel (s.charge pid 10)
                  | _ => []
            | _, _ => []

/-- The Send actions are kept in their order for after the loop. -/
theorem pendingSends_dispatch (code : BehaviorCode T) (pid : AgentPid) (fuel : Nat)
    (s : AgentScheduler T) (deferred : Deferred T) :
    (dispatch code pid fuel s deferred).2.pendingSends =
      deferred.pendingSends ++ (actionsOf code pid fuel s).filterMap Action.sends := by
  induction fuel generalizing s deferred with
  | zero => exact (List.append_nil _).symm
  | succ fuel ih =>
      unfold dispatch actionsOf
      cases hproc : s.lookup pid with
      | none => exact (List.append_nil _).symm
      | some proc =>
          dsimp only
          split
          · exact (List.append_nil _).symm
          · cases hmailbox : proc.mailbox with
            | nil => exact (List.append_nil _).symm
            | cons msg rest =>
                cases hstate : proc.state with
                | none => exact (List.append_nil _).symm
                | some state =>
                    dsimp only
                    generalize runCallback code proc.behavior msg state = result
                    obtain ⟨action, state⟩ := result
                    cases action with
                    | «continue» => exact ih _ deferred
                    | send dest msg =>
                        refine (ih _ _).trans ?_
                        rw [List.append_assoc]
                        rfl
                    | stop reason => exact (List.append_nil _).symm
                    | ioRequest op => exact (List.append_nil _).symm
                    | spawn behavior args link monitor => exact ih _ _

/-- The trace goes on, and nothing is handed over. -/
def Silent (s s' : AgentScheduler T) : Prop :=
  ∃ events, s'.trace = s.trace ++ events ∧ handedMessages events = []

namespace Silent

variable {s s' s'' : AgentScheduler T}

theorem refl (s : AgentScheduler T) : Silent s s := ⟨[], (List.append_nil _).symm, rfl⟩

theorem of_same (htrace : s'.trace = s.trace) : Silent s s' :=
  ⟨[], by rw [htrace, List.append_nil], rfl⟩

theorem trans (h : Silent s s') (h' : Silent s' s'') : Silent s s'' := by
  obtain ⟨events, htrace, hnone⟩ := h
  obtain ⟨events', htrace', hnone'⟩ := h'
  refine ⟨events ++ events', by rw [htrace', htrace, List.append_assoc], ?_⟩
  rw [handedMessages_append, hnone, hnone']
  rfl

theorem log (h : Silent s s') {event : Event} (hnone : handedMessages [event] = []) :
    Silent s (s'.log event) :=
  h.trans ⟨[event], rfl, hnone⟩

theorem modify (h : Silent s s') (pid : AgentPid) (f : AgentProcess T → AgentProcess T) :
    Silent s (s'.modify pid f) :=
  h.trans (of_same rfl)

theorem handed (h : Silent s s') :
    handedMessages s'.trace = handedMessages s.trace := by
  obtain ⟨events, htrace, hnone⟩ := h
  rw [htrace, handedMessages_append, hnone, List.append_nil]

theorem enqueue (h : Silent s s') (pid : AgentPid) : Silent s (s'.enqueue pid) := by
  apply h.trans
  unfold AgentScheduler.enqueue
  split
  · exact refl _
  · split
    · exact of_same rfl
    · exact of_same rfl
    · exact of_same rfl

theorem deliverDirect (h : Silent s s') (dest : AgentPid) (msg : Message) :
    Silent s (s'.deliverDirect dest msg) := by
  unfold AgentScheduler.deliverDirect
  split
  · exact h
  · split
    · exact h.log rfl
    · exact (h.modify _ _).log rfl

theorem requestIo (h : Silent s s') (pid : AgentPid) (op : IoOp) :
    Silent s (s'.requestIo pid op) := by
  have hfail : ∀ {s' : AgentScheduler T} (text : String), Silent s s' →
      Silent s (s'.failIo pid text) :=
    fun text h => ((h.deliverDirect pid (.text text)).modify pid _).enqueue pid
  unfold AgentScheduler.requestIo
  dsimp only
  split
  · exact hfail _ (h.modify pid _)
  · generalize Bridge.submit _ pid op = answer
    obtain ⟨answer, bridge⟩ := answer
    cases answer with
    | ok correlationId => exact h.trans ⟨[.ioAccepted pid correlationId], rfl, rfl⟩
    | error text => exact hfail text (h.trans (of_same rfl))

theorem dispatch (h : Silent s s') (code : BehaviorCode T) (pid : AgentPid) (fuel : Nat)
    (deferred : Deferred T) : Silent s (AgentScheduler.dispatch code pid fuel s' deferred).1 := by
  induction fuel generalizing s' deferred with
  | zero => exact h
  | succ fuel ih =>
      have htaken : ∀ state event, handedMessages [event] = [] →
          Silent s ((s'.takeMessage pid state).log event) :=
        fun state event hnone => (h.trans (of_same rfl)).log hnone
      unfold AgentScheduler.dispatch
      split
      · exact h
      · split
        · exact h
        · split
          · exact h
          · rename_i msg _ _
            split
            · exact htaken none _ rfl
            · generalize runCallback code _ msg _ = result
              obtain ⟨action, state⟩ := result
              have hhandled := htaken state (.handled pid msg) rfl
              cases action with
              | «continue» => exact ih hhandled _
              | send => exact ih (hhandled.modify pid _) _
              | stop => exact hhandled
              | ioRequest op => exact hhandled.requestIo pid op
              | spawn => exact ih (hhandled.modify pid _) _

end Silent

/-- `send` hands over one message. -/
theorem send_hands (code : BehaviorCode T) (s : AgentScheduler T) (dest : AgentPid)
    (msg : Message) (origin : Origin) :
    Silent (s.log (.handed dest msg origin)) (s.send code dest msg origin).2 := by
  have hasked : Silent (s.log (.handed dest msg origin))
      ((s.log (.handed dest msg origin)).offer code dest msg).2 := by
    rcases offer_cases code (s.log (.handed dest msg origin)) dest msg with ⟨_, hoffer⟩ |
      ⟨hook, _, hoffer⟩ | ⟨text, hook, _, hoffer⟩
    · rw [hoffer]
      exact .refl _
    · rw [hoffer]
      exact Silent.log (.of_same rfl) rfl
    · rw [hoffer]
      exact Silent.log (.of_same rfl) rfl
  unfold AgentScheduler.send
  generalize (s.log (.handed dest msg origin)).offer code dest msg = asked at hasked
  obtain ⟨answer, asked⟩ := asked
  cases answer with
  | error text => exact hasked.log rfl
  | ok =>
      apply hasked.trans
      dsimp only
      rcases route_cases asked dest msg with ⟨_, _, _, _, _, _, _, _, hroute⟩ |
        ⟨reason, metrics, hroute⟩ | hroute
      · rw [hroute]
        exact ⟨_, rfl, rfl⟩
      · rw [hroute]
        exact ⟨_, rfl, rfl⟩
      · rw [hroute]
        exact ⟨_, rfl, rfl⟩

theorem handedMessages_send (code : BehaviorCode T) (s : AgentScheduler T) (dest : AgentPid)
    (msg : Message) (origin : Origin) :
    handedMessages (s.send code dest msg origin).2.trace =
      handedMessages s.trace ++ [((dest, msg), origin)] := by
  rw [(send_hands code s dest msg origin).handed, AgentScheduler.log, handedMessages_append]
  rfl

theorem handedMessages_sendAll (code : BehaviorCode T) (s : AgentScheduler T) (origin : Origin)
    (messages : List (AgentPid × Message)) :
    handedMessages (s.sendAll code origin messages).trace =
      handedMessages s.trace ++ messages.map (·, origin) := by
  induction messages generalizing s with
  | nil => exact (List.append_nil _).symm
  | cons message rest ih =>
      have hrest := ih (s.send code message.1 message.2 origin).2
      rw [handedMessages_send, List.append_assoc] at hrest
      exact hrest

/-- What a process hands over in one run is what its Send actions say, in their order. -/
theorem runProcess_hands {code : AgentCode T} {fuel : Nat} {s s' : AgentScheduler T}
    {pid : AgentPid}
    (hrun : s.runProcess code.toBehaviorCode (terminateProcess code fuel) pid = some s') :
    ∃ sent, sent <+: s'.trace ∧ handedMessages sent = handedMessages s.trace ++
      ((actionsOf code.toBehaviorCode pid (defaultReductions + 1)
        (s.modify pid ({ · with reductions := defaultReductions }))).filterMap
          Action.sends).map (·, .action pid) := by
  have hloop := Silent.dispatch ((Silent.refl s).modify pid
    ({ · with reductions := defaultReductions })) code.toBehaviorCode pid
    (defaultReductions + 1) .none
  have hsends := pendingSends_dispatch code.toBehaviorCode pid (defaultReductions + 1)
    (s.modify pid ({ · with reductions := defaultReductions })) .none
  unfold runProcess at hrun
  dsimp only at hrun
  generalize dispatch code.toBehaviorCode pid (defaultReductions + 1) _ Deferred.none = result
    at hrun hloop hsends
  obtain ⟨left, deferred⟩ := result
  have hqueued : Silent s (if deferred.outOfReductions then
      (if deferred.shouldWait then left.setWaiting pid else left).enqueue pid
    else if deferred.shouldWait then left.setWaiting pid else left) := by
    have hwaited : Silent s (if deferred.shouldWait then left.setWaiting pid else left) := by
      split
      · exact hloop.modify pid _
      · exact hloop
    split
    · exact hwaited.enqueue pid
    · exact hwaited
  generalize (if deferred.outOfReductions then
      (if deferred.shouldWait then left.setWaiting pid else left).enqueue pid
    else if deferred.shouldWait then left.setWaiting pid else left) = queued at hrun hqueued
  refine ⟨(queued.sendAll code.toBehaviorCode (.action pid) deferred.pendingSends).trace,
    ?_, ?_⟩
  · -- spawning and stopping come after the sends
    have hgrows := stableRun_trace code
      (queued.sendAll code.toBehaviorCode (.action pid) deferred.pendingSends).trace
    have hspawned := hgrows.move.calm.spawnAll (List.prefix_refl _) pid deferred.pendingSpawns
    cases hstop : deferred.shouldStop with
    | none =>
        simp only [hstop, Option.some.injEq] at hrun
        exact hrun ▸ hspawned
    | some reason =>
        simp only [hstop] at hrun
        exact hgrows.terminateProcess hrun hspawned
  · rw [handedMessages_sendAll, hqueued.handed]
    exact congrArg (fun sends => handedMessages s.trace ++ sends.map (·, .action pid)) hsends

/-! ## What a partition hands over on its own -/

theorem Silent.routed {s s' : AgentScheduler T} (h : Silent s s') :
    routedMessages s'.trace = routedMessages s.trace := by
  rw [routedMessages, h.handed, routedMessages]

theorem drain_silent (s : AgentScheduler T) : Silent s s.drainOutboundMessages.2 := by
  refine ⟨_, rfl, ?_⟩
  apply List.filterMap_eq_nil_iff.mpr
  intro event hevent
  obtain ⟨message, _, rfl⟩ := List.mem_map.mp hevent
  rfl

theorem Move.routed {code : BehaviorCode T} {s s' : AgentScheduler T} (h : Move code s s') :
    routedMessages s'.trace = routedMessages s.trace := by
  have hsilent : (∃ dest msg origin, origin.ofPartition ∧
      s' = (s.send code dest msg origin).2) ∨ Silent s s' := by
    cases h with
    | send dest msg origin horigin => exact .inl ⟨dest, msg, origin, horigin, rfl⟩
    | direct dest msg => exact .inr ((Silent.refl s).deliverDirect dest msg)
    | spawn behavior args =>
        right
        rcases spawn_cases code s behavior args with ⟨reason, hspawn⟩ |
          ⟨registry, state, hspawn, _⟩
        · rw [hspawn]
          exact .of_same rfl
        · rw [hspawn]
          exact .of_same rfl
    | monitor watcher target =>
        right
        rcases monitor_cases s watcher target with ⟨text, hmonitor⟩ | ⟨_, _, hmonitor⟩
        · rw [hmonitor]
          exact .refl s
        · rw [hmonitor]
          exact ⟨_, rfl, rfl⟩
    | demonitor watcher monitorRef =>
        right
        rcases demonitor_cases s watcher monitorRef with hdemonitor |
          ⟨proc, i, target, _, _, hdemonitor⟩
        · rw [hdemonitor]
          exact .refl s
        · rw [hdemonitor]
          exact ⟨_, rfl, rfl⟩
    | drain => exact .inr (drain_silent s)
    | hookCleared => exact .inr ⟨[.hookCleared], rfl, rfl⟩
    | acceptIo pid correlationId => exact .inr ⟨[.ioAccepted pid correlationId], rfl, rfl⟩
    | handle pid proc msg rest state => exact .inr ⟨[.handled pid msg], rfl, rfl⟩
    | discard pid proc msg rest state => exact .inr ⟨[.discarded pid msg], rfl, rfl⟩
    | _ => exact .inr (.of_same rfl)
  rcases hsilent with ⟨dest, msg, origin, horigin, rfl⟩ | hsilent
  · rw [routedMessages, handedMessages_send, List.filter_append]
    cases origin with
    | routed => contradiction
    | _ => exact List.append_nil _
  · exact hsilent.routed

theorem removeProcess_silent (s : AgentScheduler T) (pid : AgentPid) :
    Silent s (s.removeProcess pid) := by
  cases hproc : s.lookup pid with
  | none =>
      rw [removeProcess_of_dead hproc]
      exact .refl s
  | some proc =>
      rw [removeProcess_of_live hproc]
      refine ⟨_, rfl, ?_⟩
      apply List.filterMap_eq_nil_iff.mpr
      intro event hevent
      rcases List.mem_cons.mp hevent with rfl | hevent
      · rfl
      · obtain ⟨msg, _, rfl⟩ := List.mem_map.mp hevent
        rfl

/-- A partition by itself routes nothing. -/
theorem stableRun_routed (code : AgentCode T)
    (routed : List ((AgentPid × Message) × Origin)) :
    StableRun code fun s : AgentScheduler T => routedMessages s.trace = routed := by
  have hnotices : StableNotices code.toBehaviorCode fun s : AgentScheduler T =>
      routedMessages s.trace = routed :=
    { move := fun _ _ hmove h => hmove.routed.trans h
      dropMonitoredBy := fun _ _ _ h => h
      dropMonitor := fun _ _ _ h => h
      down := fun {s} pid reason monitor h => by
        rw [sendDown, routedMessages, handedMessages_send, List.filter_append]
        exact (List.append_nil _).trans h }
  refine ⟨hnotices.move, ?_, fun _ _ h => h, ?_, ?_⟩
  · intro s pid reason h
    refine hnotices.takeDown ?_ ?_ h pid reason
    · intro s pid live handlersOut noHandlers h
      exact (Silent.log (.refl s) rfl).routed.trans h
    · exact fun pid h => (removeProcess_silent _ pid).routed.trans h
  · intro s id handlersOut h
    exact (Silent.log (.refl s) rfl).routed.trans h
  · intro s id pid reason h
    exact (Silent.log (.refl s) rfl).routed.trans h

end AgentScheduler

end Zeptobeam
