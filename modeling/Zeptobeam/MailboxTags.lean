/-
The tags of the trace lie on the messages that are really there: in every mailbox, in the
outbound queue, and on each message that is handled.
-/
import Zeptobeam.PidHistory
import Zeptobeam.MessageLedger
import Zeptobeam.MessageTags

namespace Zeptobeam

open TaggedQueue

/-- The messages a process was given by its mailbox to handle, oldest first. -/
def handledBy (pid : AgentPid) (trace : List Event) : List (AgentPid × Message) :=
  trace.filterMap fun event => match event with
    | .handled dest msg => if dest = pid then some (dest, msg) else none
    | _ => none

theorem handledBy_append (pid : AgentPid) (trace events : List Event) :
    handledBy pid (trace ++ events) = handledBy pid trace ++ handledBy pid events :=
  List.filterMap_append

def Event.ofHandled : Event → Bool
  | .handled .. => true
  | _ => false

theorem handledBy_of_none {pid : AgentPid} {events : List Event}
    (h : ∀ event ∈ events, event.ofHandled = false) : handledBy pid events = [] := by
  apply List.filterMap_eq_nil_iff.mpr
  intro event hevent
  have hnone := h event hevent
  cases event with
  | handled => contradiction
  | _ => rfl

theorem Event.mailboxStep_ne_leave {event : Event} (h : event.ofHandled = false)
    (pid : AgentPid) : event.mailboxStep pid ≠ .leave true := by
  cases event with
  | handled => contradiction
  | put => simp only [mailboxStep]; split <;> simp
  | direct => simp only [mailboxStep]; split <;> simp
  | discarded => simp only [mailboxStep]; split <;> simp
  | _ => simp [mailboxStep]

namespace AgentScheduler

variable {T : AgentTypes}

/-- The messages of a mailbox, as the trace names them. -/
def mailItems (s : AgentScheduler T) (pid : AgentPid) : List (AgentPid × Message) :=
  (s.mailboxOf pid).map (pid, ·)

/-- The books of the trace are about the scheduler's own queues. -/
structure Tagged (s : AgentScheduler T) : Prop where
  mailbox : ∀ pid, (mailboxBook pid s.trace).items = s.mailItems pid
  handled : ∀ pid, (mailboxBook pid s.trace).taken.map Prod.fst = handledBy pid s.trace
  outbound : (outboundBook s.trace).items = s.outboundMessages

namespace Tagged

variable {s s' : AgentScheduler T}

theorem new (bridge : Option Bridge) (hook : Option T.Hook) (routing : Bool)
    (nextPid nextMonitorRef : Nat) :
    Tagged (new bridge hook routing nextPid nextMonitorRef : AgentScheduler T) :=
  ⟨fun _ => rfl, fun _ => rfl, rfl⟩

/-- The new events, none of which is a handled message, account for what changed. -/
theorem step (h : Tagged s) {events : List Event} (htrace : s'.trace = s.trace ++ events)
    (hnone : ∀ event ∈ events, event.ofHandled = false)
    (hmailbox : ∀ pid, (events.map (Event.mailboxStep pid)).foldl Step.onItems
      (s.mailItems pid) = s'.mailItems pid)
    (houtbound : (events.map Event.outboundStep).foldl Step.onItems s.outboundMessages =
      s'.outboundMessages) : Tagged s' := by
  refine ⟨fun pid => ?_, fun pid => ?_, ?_⟩
  · rw [← hmailbox pid, ← h.mailbox pid, htrace, mailboxBook, List.map_append,
      Book.replay_append, Book.items_foldl]
    rfl
  · have hleave : ∀ step ∈ events.map (Event.mailboxStep pid), step ≠ .leave true := by
      intro step hstep
      obtain ⟨event, hevent, rfl⟩ := List.mem_map.mp hstep
      exact Event.mailboxStep_ne_leave (hnone event hevent) pid
    have htaken := Book.taken_foldl_of_none Origin.scheduler hleave
    rw [htrace, handledBy_append, handledBy_of_none hnone, List.append_nil, ← h.handled pid,
      mailboxBook, List.map_append, Book.replay_append, htaken]
    rfl
  · rw [← houtbound, ← h.outbound, htrace, outboundBook, List.map_append,
      Book.replay_append, Book.items_foldl]
    rfl

/-- Nothing is recorded, and the queues are the same. -/
theorem congr (h : Tagged s) (htrace : s'.trace = s.trace)
    (hmailbox : ∀ pid, s'.mailboxOf pid = s.mailboxOf pid)
    (houtbound : s'.outboundMessages = s.outboundMessages) : Tagged s' := by
  have hnothing : s'.trace = s.trace ++ [] := by rw [htrace, List.append_nil]
  apply h.step hnothing (fun _ hevent => by contradiction)
  · intro pid
    rw [mailItems, mailItems, hmailbox pid]
    rfl
  · exact houtbound.symm

theorem same (h : Tagged s) (htrace : s'.trace = s.trace)
    (hlookup : ∀ q, s'.lookup q = s.lookup q)
    (houtbound : s'.outboundMessages = s.outboundMessages) : Tagged s' :=
  h.congr htrace (fun q => by rw [mailboxOf, hlookup q, mailboxOf]) houtbound

theorem modify (h : Tagged s) (pid : AgentPid)
    {f : AgentProcess T → AgentProcess T} (hf : ∀ proc, (f proc).mailbox = proc.mailbox) :
    Tagged (s.modify pid f) :=
  h.congr rfl (mailboxOf_modify_same hf) rfl

theorem log (h : Tagged s) {event : Event} (hnone : event.ofHandled = false)
    (hmailbox : ∀ pid items, (event.mailboxStep pid).onItems items = items)
    (houtbound : ∀ items, event.outboundStep.onItems items = items) :
    Tagged (s.log event) := by
  apply h.step rfl
  · intro other hother
    rwa [List.mem_singleton.mp hother]
  · exact fun pid => hmailbox pid _
  · exact houtbound _

/-! ## What `send` does -/

theorem handed (h : Tagged s) (dest : AgentPid) (msg : Message) (origin : Origin) :
    Tagged (s.log (.handed dest msg origin)) :=
  h.log rfl (fun _ _ => rfl) fun _ => rfl

theorem offer (h : Tagged s) (code : BehaviorCode T) (dest : AgentPid)
    (msg : Message) : Tagged (s.offer code dest msg).2 := by
  rcases offer_cases code s dest msg with ⟨_, hoffer⟩ | ⟨hook, _, hoffer⟩ |
    ⟨text, hook, _, hoffer⟩
  · rw [hoffer]
    exact h
  all_goals
    rw [hoffer]
    have hhook : Tagged { s with messageHook := some hook } :=
      h.same rfl (fun _ => rfl) rfl
    exact hhook.log rfl (fun _ _ => rfl) fun _ => rfl

/-- A message that is put at the end of a mailbox. -/
theorem mailItems_deliver {proc delivered : AgentProcess T} {dest : AgentPid}
    {msg : Message} (hproc : s.lookup dest = some proc)
    (hdeliver : proc.deliverMessage msg = some delivered) (q : AgentPid) :
    (s.modify dest fun _ => delivered).mailItems q =
      if dest = q then s.mailItems q ++ [(dest, msg)] else s.mailItems q := by
  rw [mailItems, Ledger.mailboxOf_deliver hproc hdeliver]
  by_cases hq : dest = q
  · rw [if_pos hq, if_pos hq.symm, List.map_append, hq]
    rfl
  · rw [if_neg hq, if_neg (Ne.symm hq), mailItems]

theorem deadLetter (h : Tagged s) (dest : AgentPid) (msg : Message)
    (reason : DeadLetterReason) : Tagged (s.pushDeadLetter dest msg reason) := by
  have hpushed : Tagged { s with deadLetters := s.deadLetters.push ⟨none, dest, reason⟩ } :=
    h.same rfl (fun _ => rfl) rfl
  exact hpushed.log rfl (fun _ _ => rfl) fun _ => rfl

theorem route (h : Tagged s) (dest : AgentPid) (msg : Message) :
    Tagged (s.route dest msg).2 := by
  rcases route_cases s dest msg with ⟨proc, delivered, _, _, _, _, hproc, hdeliver, hroute⟩ |
    ⟨reason, metrics, hroute⟩ | hroute
  · rw [hroute]
    refine h.step rfl (List.forall_mem_singleton.mpr rfl) (fun q => ?_) rfl
    have hitems := mailItems_deliver hproc hdeliver q
    change Step.onItems (s.mailItems q) ((Event.put dest msg).mailboxStep q) =
      (s.modify dest fun _ => delivered).mailItems q
    rw [hitems, Event.mailboxStep]
    split
    · rfl
    · rfl
  · rw [hroute]
    have hcounted : Tagged { s with metrics } := h.same rfl (fun _ => rfl) rfl
    exact hcounted.deadLetter dest msg reason
  · rw [hroute]
    exact h.step rfl (List.forall_mem_singleton.mpr rfl) (fun _ => rfl) rfl

theorem send (h : Tagged s) (code : BehaviorCode T) (dest : AgentPid) (msg : Message)
    (origin : Origin) : Tagged (s.send code dest msg origin).2 := by
  have hasked := (h.handed dest msg origin).offer code dest msg
  unfold AgentScheduler.send
  generalize (s.log (.handed dest msg origin)).offer code dest msg = asked at hasked
  obtain ⟨answer, asked⟩ := asked
  cases answer with
  | error text => exact hasked.log rfl (fun _ _ => rfl) fun _ => rfl
  | ok => exact hasked.route dest msg

/-! ## The other moves -/

theorem direct (h : Tagged s) (dest : AgentPid) (msg : Message) :
    Tagged (s.deliverDirect dest msg) := by
  unfold deliverDirect
  split
  · exact h
  · rename_i proc hproc
    split
    · refine h.log rfl (fun pid items => ?_) fun _ => rfl
      simp [Event.mailboxStep, Step.onItems]
    · rename_i delivered hdeliver
      refine h.step rfl (List.forall_mem_singleton.mpr rfl) (fun q => ?_) rfl
      have hitems := mailItems_deliver hproc hdeliver q
      change Step.onItems (s.mailItems q) ((Event.direct dest msg true).mailboxStep q) =
        (s.modify dest fun _ => delivered).mailItems q
      rw [hitems]
      by_cases hq : dest = q
      · simp [Event.mailboxStep, Step.onItems, hq]
      · simp [Event.mailboxStep, Step.onItems, hq]

theorem mailItems_take {pid : AgentPid} {proc : AgentProcess T} {msg : Message}
    {rest : List Message} (hproc : s.lookup pid = some proc)
    (hmailbox : proc.mailbox = msg :: rest) (state : Option T.State) (q : AgentPid) :
    (s.takeMessage pid state).mailItems q =
      if pid = q then (s.mailItems q).tail else s.mailItems q := by
  have hafter : (s.takeMessage pid state).mailboxOf q =
      if q = pid then rest else s.mailboxOf q := by
    change (s.modify pid _).mailboxOf q = _
    rw [mailboxOf_modify]
    by_cases hq : q = pid
    · rw [if_pos hq, if_pos hq, hq, hproc]
      simp [hmailbox]
    · rw [if_neg hq, if_neg hq]
  rw [mailItems, hafter]
  by_cases hq : pid = q
  · have hbefore : s.mailboxOf q = msg :: rest := by
      rw [← hq, mailboxOf, hproc]
      exact hmailbox
    rw [if_pos hq, if_pos hq.symm, mailItems, hbefore]
    rfl
  · rw [if_neg hq, if_neg (Ne.symm hq), mailItems]

theorem discard (h : Tagged s) {pid : AgentPid} {proc : AgentProcess T} {msg : Message}
    {rest : List Message} (hproc : s.lookup pid = some proc)
    (hmailbox : proc.mailbox = msg :: rest) (state : Option T.State) :
    Tagged ((s.takeMessage pid state).log (.discarded pid msg)) := by
  refine h.step rfl (List.forall_mem_singleton.mpr rfl) (fun q => ?_) rfl
  have hitems := mailItems_take hproc hmailbox state q
  change Step.onItems (s.mailItems q) ((Event.discarded pid msg).mailboxStep q) =
    (s.takeMessage pid state).mailItems q
  rw [hitems, Event.mailboxStep]
  split
  · rfl
  · rfl

/-- The behaviour is given the first message of its mailbox. -/
theorem handle (h : Tagged s) {pid : AgentPid} {proc : AgentProcess T} {msg : Message}
    {rest : List Message} (hproc : s.lookup pid = some proc)
    (hmailbox : proc.mailbox = msg :: rest) (state : Option T.State) :
    Tagged ((s.takeMessage pid state).log (.handled pid msg)) := by
  have htrace : ((s.takeMessage pid state).log (.handled pid msg)).trace =
      s.trace ++ [.handled pid msg] := rfl
  have hbook : ∀ q, mailboxBook q (s.trace ++ [.handled pid msg]) =
      (mailboxBook q s.trace).record .scheduler ((Event.handled pid msg).mailboxStep q) := by
    intro q
    rw [mailboxBook, List.map_append, Book.replay_append]
    rfl
  refine ⟨fun q => ?_, fun q => ?_, ?_⟩
  · have hitems := mailItems_take hproc hmailbox state q
    change _ = (s.takeMessage pid state).mailItems q
    rw [htrace, hbook, Book.items_record, h.mailbox q, hitems, Event.mailboxStep]
    split
    · rfl
    · rfl
  · have hfirst : (s.mailItems pid).head? = some (pid, msg) := by
      rw [mailItems, mailboxOf, hproc, Option.elim_some, hmailbox]
      rfl
    rw [htrace, hbook, Book.taken_record, h.handled q, h.mailbox q, handledBy_append]
    congr 1
    by_cases hq : pid = q
    · rw [← hq]
      simp [Event.mailboxStep, Step.takes, hfirst, handledBy]
    · simp [Event.mailboxStep, Step.takes, handledBy, hq]
  · change (outboundBook (s.trace ++ [.handled pid msg])).items = s.outboundMessages
    rw [outboundBook, List.map_append, Book.replay_append, Book.items_foldl, ← h.outbound]
    rfl

theorem drain (h : Tagged s) : Tagged s.drainOutboundMessages.2 := by
  refine h.step rfl ?_ ?_ ?_
  · intro event hevent
    obtain ⟨message, _, rfl⟩ := List.mem_map.mp hevent
    rfl
  · intro pid
    have hother : ∀ messages items : List (AgentPid × Message),
        ((messages.map fun message => Event.drainedOutbound message.1 message.2).map
          (Event.mailboxStep pid)).foldl Step.onItems items = items := by
      intro messages items
      induction messages with
      | nil => rfl
      | cons message rest ih => exact ih
    exact hother _ _
  · have hleave : ∀ messages : List (AgentPid × Message),
        ((messages.map fun message => Event.drainedOutbound message.1 message.2).map
          Event.outboundStep).foldl Step.onItems messages = [] := by
      intro messages
      induction messages with
      | nil => rfl
      | cons message rest ih => exact ih
    exact hleave _

/-- All that is in the mailbox goes with its process. -/
theorem discards (pid q : AgentPid) (messages : List Message)
    (items : List (AgentPid × Message)) :
    ((messages.map fun msg => Event.discarded pid msg).map (Event.mailboxStep q)).foldl
      Step.onItems items =
        if pid = q then items.drop messages.length else items := by
  induction messages generalizing items with
  | nil => simp
  | cons msg rest ih =>
      rw [List.map_cons, List.map_cons, List.foldl_cons, ih]
      by_cases hq : pid = q
      · simp [hq, Event.mailboxStep, Step.onItems]
      · simp [hq, Event.mailboxStep, Step.onItems]

theorem remove (h : Tagged s) (pid : AgentPid) : Tagged (s.removeProcess pid) := by
  cases hproc : s.lookup pid with
  | none => rwa [removeProcess_of_dead hproc]
  | some proc =>
      have hafter : ∀ q, (s.removeProcess pid).mailboxOf q =
          if q = pid then [] else s.mailboxOf q := by
        intro q
        rw [mailboxOf, lookup_removeProcess]
        split
        · rfl
        · rfl
      have hquiet : ∀ event ∈ proc.mailbox.map fun msg => Event.discarded pid msg,
          event.ofHandled = false ∧ event.outboundStep = .other := by
        intro event hevent
        obtain ⟨msg, _, rfl⟩ := List.mem_map.mp hevent
        exact ⟨rfl, rfl⟩
      refine h.step (by rw [removeProcess_of_live hproc]) ?_ ?_ ?_
      · intro event hevent
        rcases List.mem_cons.mp hevent with rfl | hevent
        · rfl
        · exact (hquiet event hevent).1
      · intro q
        have hremoved : Step.onItems (s.mailItems q) ((Event.removed pid).mailboxStep q) =
            s.mailItems q := rfl
        rw [List.map_cons, List.foldl_cons, hremoved, discards, mailItems, mailItems, hafter q]
        by_cases hq : pid = q
        · have hbefore : s.mailboxOf q = proc.mailbox := by
            rw [← hq, mailboxOf, hproc]
            rfl
          simp [hq, hbefore]
        · rw [if_neg hq, if_neg (Ne.symm hq)]
      · have hother : ∀ (events : List Event) (items : List (AgentPid × Message)),
            (∀ event ∈ events, event.outboundStep = .other) →
            (events.map Event.outboundStep).foldl Step.onItems items = items := by
          intro events items hevents
          induction events with
          | nil => rfl
          | cons event rest ih =>
              rw [List.map_cons, List.foldl_cons, hevents event List.mem_cons_self]
              exact ih fun later hlater => hevents later (.tail _ hlater)
        rw [hother _ _ (List.forall_mem_cons.mpr
          ⟨rfl, fun event hevent => (hquiet event hevent).2⟩), removeProcess_of_live hproc]

/-- A process starts with an empty mailbox; its pid must be new. -/
theorem spawn (h : Tagged s) (hnew : s.lookup s.nextPid = none) (code : BehaviorCode T)
    (behavior : T.Behavior) (args : Json) : Tagged (s.spawn code behavior args).2 := by
  rcases spawn_cases code s behavior args with ⟨reason, hspawn⟩ |
    ⟨registry, state, hspawn, hlookup⟩
  · rw [hspawn]
    exact h.same rfl (fun _ => rfl) rfl
  · rw [hspawn]
    refine h.congr rfl ?_ rfl
    intro q
    change (registry.lookup q).elim [] AgentProcess.mailbox = s.mailboxOf q
    rw [hlookup q, mailboxOf]
    by_cases hq : q = s.nextPid
    · rw [if_pos hq, hq, hnew]
      rfl
    · rw [if_neg hq]

/-! ## Every run -/

/-- The tags, from a state on where pids are given out from the counter. -/
def Since (start s : AgentScheduler T) : Prop :=
  Allots start s ∧ Tagged s

theorem fresh {start : AgentScheduler T}
    (hstart : ∀ q, start.nextPid ≤ q → start.presence q = 0) (h : Allots start s) :
    s.lookup s.nextPid = none := by
  have hpresence := h.kept s.nextPid (.inr (Nat.le_refl _))
  rw [hstart _ h.nextPid, presence] at hpresence
  cases hlookup : s.lookup s.nextPid with
  | none => rfl
  | some proc =>
      rw [hlookup, Option.isSome_some, if_pos rfl] at hpresence
      omega

theorem stable (code : BehaviorCode T) {start : AgentScheduler T}
    (hstart : ∀ q, start.nextPid ≤ q → start.presence q = 0) :
    Stable code (Since start) := by
  intro s s' hmove h
  refine ⟨Allots.stable code start hmove h.1, ?_⟩
  obtain ⟨hallots, h⟩ := h
  cases hmove with
  | aside => exact h.same rfl (fun _ => rfl) rfl
  | rename => exact h.same rfl (fun _ => rfl) rfl
  | routing => exact h.same rfl (fun _ => rfl) rfl
  | hook => exact h.same rfl (fun _ => rfl) rfl
  | hookCleared =>
      have hcleared : Tagged { s with messageHook := none } := h.same rfl (fun _ => rfl) rfl
      exact hcleared.log rfl (fun _ _ => rfl) fun _ => rfl
  | counters => exact h.same rfl (fun _ => rfl) rfl
  | adjust pid f hquiet => exact h.modify pid hquiet.mailbox
  | send dest msg origin => exact h.send code dest msg origin
  | direct dest msg => exact h.direct dest msg
  | handle pid proc msg rest state hproc hmailbox => exact h.handle hproc hmailbox state
  | discard pid proc msg rest state hproc hmailbox => exact h.discard hproc hmailbox state
  | acceptIo pid correlationId => exact h.log rfl (fun _ _ => rfl) fun _ => rfl
  | spawn behavior args => exact h.spawn (fresh hstart hallots) code behavior args
  | link first second =>
      unfold link
      apply modify
      · exact h.modify first fun _ => rfl
      · exact fun _ => rfl
  | monitor watcher target =>
      rcases monitor_cases s watcher target with ⟨text, hmonitor⟩ | ⟨_, _, hmonitor⟩
      · rw [hmonitor]
        exact h
      · rw [hmonitor]
        have hnext : Tagged { s with nextMonitorRef := s.nextMonitorRef + 1 } :=
          h.same rfl (fun _ => rfl) rfl
        apply log
        · apply modify
          · exact hnext.modify watcher fun _ => rfl
          · exact fun _ => rfl
        · rfl
        · exact fun _ _ => rfl
        · exact fun _ => rfl
  | demonitor watcher monitorRef =>
      rcases demonitor_cases s watcher monitorRef with hdemonitor |
        ⟨proc, i, target, _, _, hdemonitor⟩
      · rw [hdemonitor]
        exact h
      · rw [hdemonitor]
        apply log
        · apply modify
          · exact h.modify watcher fun _ => rfl
          · exact fun _ => rfl
        · rfl
        · exact fun _ _ => rfl
        · exact fun _ => rfl
  | drain => exact h.drain

theorem notices (code : BehaviorCode T) {start : AgentScheduler T}
    (hstart : ∀ q, start.nextPid ≤ q → start.presence q = 0) :
    StableNotices code (Since start) where
  move := stable code hstart
  dropMonitoredBy target monitorRef watcher h :=
    ⟨(Allots.notices code start).dropMonitoredBy target monitorRef watcher h.1,
      h.2.modify target fun _ => rfl⟩
  dropMonitor watcher monitorRef target h :=
    ⟨(Allots.notices code start).dropMonitor watcher monitorRef target h.1,
      h.2.modify watcher fun _ => rfl⟩
  down pid reason monitor h :=
    ⟨(Allots.notices code start).down pid reason monitor h.1,
      h.2.send code _ _ _⟩

/-- The tags stay on their messages, whatever the scheduler does. -/
theorem stableRun (code : AgentCode T) {start : AgentScheduler T}
    (hstart : ∀ q, start.nextPid ≤ q → start.presence q = 0) :
    StableRun code (Since start) := by
  have hnotices := notices code.toBehaviorCode hstart
  have hallots := Allots.stableRun code start
  refine ⟨hnotices.move, ?_, ?_, ?_, ?_⟩
  · intro s pid reason h
    refine hnotices.takeDown ?_ ?_ h pid reason
    · exact fun _ _ _ _ h => ⟨h.1.log rfl, h.2.log rfl (fun _ _ => rfl) fun _ => rfl⟩
    · exact fun pid h => ⟨h.1.removeProcess pid, h.2.remove pid⟩
  · exact fun exitHandlers handlersOut h => ⟨hallots.handlers exitHandlers handlersOut h.1,
      h.2.same rfl (fun _ => rfl) rfl⟩
  · exact fun id handlersOut h => ⟨hallots.handlerAdded id handlersOut h.1,
      h.2.log rfl (fun _ _ => rfl) fun _ => rfl⟩
  · exact fun id pid reason h => ⟨hallots.handlerInvoked id pid reason h.1,
      h.2.log rfl (fun _ _ => rfl) fun _ => rfl⟩

end Tagged

end AgentScheduler

end Zeptobeam
