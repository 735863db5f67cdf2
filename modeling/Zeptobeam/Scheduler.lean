/-
The scheduler's state and its operations on single processes: run queues, message
delivery through the hook, monitors, timeouts.  The global pid and reference
counters are fields here.  The trace is no field of the source: it records what
happened, oldest first, for statements about runs.
-/
import Zeptobeam.Bridge

namespace Zeptobeam

inductive DeadLetterReason where
  | mailboxFull
  | processNotFound
  | processTerminated
deriving DecidableEq, Repr

structure DeadLetter where
  senderPid : Option AgentPid
  targetPid : AgentPid
  reason : DeadLetterReason
deriving DecidableEq, Repr

/-- Bounded ring buffer of dropped deliveries. -/
structure DeadLetterQueue where
  buffer : List DeadLetter
  capacity : Nat
  totalCount : Nat
deriving DecidableEq, Repr

namespace DeadLetterQueue

def new (capacity : Nat) : DeadLetterQueue := ⟨[], capacity, 0⟩

def push (queue : DeadLetterQueue) (letter : DeadLetter) : DeadLetterQueue :=
  let buffer :=
    if queue.buffer.length ≥ queue.capacity then queue.buffer.tail else queue.buffer
  { queue with buffer := buffer ++ [letter], totalCount := queue.totalCount + 1 }

end DeadLetterQueue

structure RuntimeMetrics where
  messagesSent : Nat
  messagesProcessed : Nat
  mailboxRejections : Nat
  processTerminations : Nat

/-- Who hands a message to `send`: its caller, the scheduler itself, the scheduler for a
Send action or for a monitor whose target ended, or the cluster for a Send action in
another partition. -/
inductive Origin where
  | caller
  | scheduler
  | action (sender : AgentPid)
  | monitor (monitorRef : MonitorRef) (target : AgentPid)
  | routed (partition : Nat) (sender : AgentPid)
deriving DecidableEq

/-- What the trace records. -/
inductive Event where
  /-- A message was handed to `send`. -/
  | handed (dest : AgentPid) (msg : Message) (origin : Origin)
  /-- The hook was asked about a message and accepted or refused it. -/
  | offered (dest : AgentPid) (msg : Message) (accepted : Bool)
  /-- `send` gave up a message because the hook refused it. -/
  | refused (dest : AgentPid) (msg : Message) (origin : Origin)
  /-- `send` put the message into the mailbox. -/
  | put (dest : AgentPid) (msg : Message)
  /-- A message was given to a mailbox without `send`; it went in or was dropped. -/
  | direct (dest : AgentPid) (msg : Message) (delivered : Bool)
  | queuedOutbound (dest : AgentPid) (msg : Message)
  | drainedOutbound (dest : AgentPid) (msg : Message)
  /-- A dead letter was pushed; `evicting` when the buffer was full. -/
  | deadLetter (dest : AgentPid) (msg : Message) (evicting : Bool)
  /-- The message left the mailbox and was given to the behaviour. -/
  | handled (pid : AgentPid) (msg : Message)
  /-- The message left the mailbox and nobody got it. -/
  | discarded (pid : AgentPid) (msg : Message)
  | ioAccepted (pid : AgentPid) (correlationId : Nat)
  | monitored (monitorRef : MonitorRef) (watcher target : AgentPid)
  | demonitored (monitorRef : MonitorRef) (watcher : AgentPid)
  /-- `terminate_process` was called, for a live process or not, while the exit
  handlers were out of the scheduler or not, with none in it or some. -/
  | terminating (pid : AgentPid) (live handlersOut noHandlers : Bool)
  | removed (pid : AgentPid)
  | handlerAdded (id : Nat) (handlersOut : Bool)
  | handlerInvoked (id : Nat) (pid : AgentPid) (reason : Reason)
  | hookCleared
deriving DecidableEq

structure AgentScheduler (T : AgentTypes) where
  registry : AgentRegistry T
  queueHigh : List AgentPid
  queueNormal : List AgentPid
  queueLow : List AgentPid
  allowExternalRouting : Bool
  outboundMessages : List (AgentPid × Message)
  advantageCount : Nat
  bridge : Option Bridge
  pendingDestroys : List (AgentPid × Nat)
  deadLetters : DeadLetterQueue
  metrics : RuntimeMetrics
  /-- Each handler with the number it was registered under. -/
  exitHandlers : List (Nat × T.Handler)
  messageHook : Option T.Hook
  nextPid : AgentPid
  nextMonitorRef : MonitorRef
  trace : List Event
  /-- The handlers are out while they run; no field of the source either. -/
  handlersOut : Bool

/-- Why `send` refuses a message. -/
inductive SendError where
  | hook (text : String)
  | mailboxFull (pid : AgentPid)
  | notFound (pid : AgentPid)
deriving DecidableEq

namespace AgentScheduler

variable {T : AgentTypes}

def normalAdvantage : Nat := 8

/-- `new`, with the bridge, the hook and the routing mode that are set before the
run, at the counters' present values. -/
def new (bridge : Option Bridge) (messageHook : Option T.Hook)
    (allowExternalRouting : Bool) (nextPid nextMonitorRef : Nat) : AgentScheduler T :=
  { registry := .empty, queueHigh := [], queueNormal := [], queueLow := []
    allowExternalRouting, outboundMessages := [], advantageCount := 0, bridge
    pendingDestroys := [], deadLetters := .new 256, metrics := ⟨0, 0, 0, 0⟩
    exitHandlers := [], messageHook, nextPid, nextMonitorRef, trace := []
    handlersOut := false }

def lookup (s : AgentScheduler T) (pid : AgentPid) : Option (AgentProcess T) :=
  s.registry.lookup pid

def modify (s : AgentScheduler T) (pid : AgentPid)
    (f : AgentProcess T → AgentProcess T) : AgentScheduler T :=
  { s with registry := s.registry.modify pid f }

def log (s : AgentScheduler T) (event : Event) : AgentScheduler T :=
  { s with trace := s.trace ++ [event] }

@[simp]
theorem lookup_log (s : AgentScheduler T) (event : Event) (q : AgentPid) :
    (s.log event).lookup q = s.lookup q := rfl

@[simp]
theorem lookup_modify (s : AgentScheduler T) (pid q : AgentPid)
    (f : AgentProcess T → AgentProcess T) :
    (s.modify pid f).lookup q = if q = pid then (s.lookup q).map f else s.lookup q :=
  AgentRegistry.lookup_modify s.registry pid q f

/-! ## Run queues -/

def enqueue (s : AgentScheduler T) (pid : AgentPid) : AgentScheduler T :=
  match s.lookup pid with
  | none => s
  | some proc =>
      match proc.priority with
      | .high => { s with queueHigh := s.queueHigh ++ [pid] }
      | .normal => { s with queueNormal := s.queueNormal ++ [pid] }
      | .low => { s with queueLow := s.queueLow ++ [pid] }

def popNormal (s : AgentScheduler T) : Option AgentPid × AgentScheduler T :=
  (s.queueNormal.head?, { s with queueNormal := s.queueNormal.tail })

def popLow (s : AgentScheduler T) : Option AgentPid × AgentScheduler T :=
  (s.queueLow.head?, { s with queueLow := s.queueLow.tail })

/-- High always first; Normal has an advantage over Low. -/
def nextRunnable (s : AgentScheduler T) : Option AgentPid × AgentScheduler T :=
  match s.queueHigh with
  | pid :: rest => (some pid, { s with queueHigh := rest })
  | [] =>
      if s.queueNormal ≠ [] then
        let s := { s with advantageCount := s.advantageCount + 1 }
        if s.advantageCount < normalAdvantage ∨ s.queueLow = [] then s.popNormal
        else
          let s := { s with advantageCount := 0 }
          match s.queueLow with
          | pid :: rest => (some pid, { s with queueLow := rest })
          | [] => s.popNormal
      else s.popLow

/-! ## Messages -/

def pushDeadLetter (s : AgentScheduler T) (dest : AgentPid) (msg : Message)
    (reason : DeadLetterReason) : AgentScheduler T :=
  let evicting := decide (s.deadLetters.buffer.length ≥ s.deadLetters.capacity)
  { s with deadLetters := s.deadLetters.push ⟨none, dest, reason⟩ }.log
    (.deadLetter dest msg evicting)

/-- Ask the hook, if there is one. -/
def offer (code : BehaviorCode T) (s : AgentScheduler T) (dest : AgentPid)
    (msg : Message) : Except String Unit × AgentScheduler T :=
  match s.messageHook with
  | none => (.ok (), s)
  | some hook =>
      let (answer, hook) := code.onSend hook dest msg
      let accepted := match answer with
        | .ok _ => true
        | .error _ => false
      (answer, { s with messageHook := some hook }.log (.offered dest msg accepted))

/-- What `send` does once the hook has accepted the message. -/
def route (s : AgentScheduler T) (dest : AgentPid) (msg : Message) :
    Except SendError Unit × AgentScheduler T :=
  match s.lookup dest with
  | some proc =>
      match proc.deliverMessage msg with
      | none =>
          let s := { s with metrics := { s.metrics with
            mailboxRejections := s.metrics.mailboxRejections + 1 } }
          (.error (.mailboxFull dest), s.pushDeadLetter dest msg .mailboxFull)
      | some delivered =>
          let s := (s.modify dest fun _ => delivered).log (.put dest msg)
          let s := { s with metrics := { s.metrics with
            messagesSent := s.metrics.messagesSent + 1 } }
          (.ok (), if proc.status = .waiting then s.enqueue dest else s)
  | none =>
      if s.allowExternalRouting then
        (.ok (), { s with outboundMessages := s.outboundMessages ++ [(dest, msg)] }.log
          (.queuedOutbound dest msg))
      else (.error (.notFound dest), s.pushDeadLetter dest msg .processNotFound)

/-- `send`; the origin is only for the trace. -/
def send (code : BehaviorCode T) (s : AgentScheduler T) (dest : AgentPid)
    (msg : Message) (origin : Origin) : Except SendError Unit × AgentScheduler T :=
  match (s.log (.handed dest msg origin)).offer code dest msg with
  | (.error text, s) => (.error (.hook text), s.log (.refused dest msg origin))
  | (.ok _, s) => s.route dest msg

theorem offer_cases (code : BehaviorCode T) (s : AgentScheduler T) (dest : AgentPid)
    (msg : Message) :
    (s.messageHook = none ∧ s.offer code dest msg = (.ok (), s)) ∨
    (∃ hook, s.messageHook.isSome ∧ s.offer code dest msg =
      (.ok (), { s with messageHook := some hook }.log (.offered dest msg true))) ∨
    ∃ text hook, s.messageHook.isSome ∧ s.offer code dest msg =
      (.error text, { s with messageHook := some hook }.log (.offered dest msg false)) := by
  cases hhook : s.messageHook with
  | none => exact .inl ⟨rfl, by simp [offer, hhook]⟩
  | some hook =>
      right
      cases hanswer : code.onSend hook dest msg with
      | mk answer next =>
          cases answer with
          | ok => exact .inl ⟨next, rfl, by simp [offer, hhook, hanswer]⟩
          | error text => exact .inr ⟨text, next, rfl, by simp [offer, hhook, hanswer]⟩

/-- An accepted message goes into a mailbox, to the dead letters, or out. -/
theorem route_cases (s : AgentScheduler T) (dest : AgentPid) (msg : Message) :
    (∃ proc delivered queueHigh queueNormal queueLow metrics,
      s.lookup dest = some proc ∧ proc.deliverMessage msg = some delivered ∧
      (s.route dest msg).2 = { s with
        registry := s.registry.modify dest fun _ => delivered
        trace := s.trace ++ [.put dest msg]
        queueHigh, queueNormal, queueLow, metrics }) ∨
    (∃ reason metrics,
      (s.route dest msg).2 = { s with metrics }.pushDeadLetter dest msg reason) ∨
    (s.route dest msg).2 =
      { s with outboundMessages := s.outboundMessages ++ [(dest, msg)] }.log
        (.queuedOutbound dest msg) := by
  cases hproc : s.lookup dest with
  | none =>
      right
      by_cases hrouting : s.allowExternalRouting
      · right
        simp [route, hproc, hrouting]
      · left
        refine ⟨.processNotFound, s.metrics, ?_⟩
        simp only [route, hproc, if_neg hrouting]
  | some proc =>
      cases hdeliver : proc.deliverMessage msg with
      | none =>
          right
          left
          refine ⟨.mailboxFull, { s.metrics with
            mailboxRejections := s.metrics.mailboxRejections + 1 }, ?_⟩
          simp only [route, hproc, hdeliver]
      | some delivered =>
          left
          simp only [route, hproc, hdeliver]
          by_cases hwaiting : proc.status = .waiting
          · rw [if_pos hwaiting]
            unfold enqueue
            split
            · exact ⟨proc, delivered, _, _, _, _, rfl, hdeliver, rfl⟩
            · split <;> exact ⟨proc, delivered, _, _, _, _, rfl, hdeliver, rfl⟩
          · rw [if_neg hwaiting]
            exact ⟨proc, delivered, _, _, _, _, rfl, hdeliver, rfl⟩

/-- `let _ = self.send(..)` on each message in turn. -/
def sendAll (code : BehaviorCode T) (s : AgentScheduler T) (origin : Origin)
    (messages : List (AgentPid × Message)) : AgentScheduler T :=
  messages.foldl (fun s message => (s.send code message.1 message.2 origin).2) s

/-- `deliver_message(..).ok()` on a process found by `lookup_mut`. -/
def deliverDirect (s : AgentScheduler T) (dest : AgentPid) (msg : Message) :
    AgentScheduler T :=
  match s.lookup dest with
  | none => s
  | some proc =>
      match proc.deliverMessage msg with
      | none => s.log (.direct dest msg false)
      | some delivered => (s.modify dest fun _ => delivered).log (.direct dest msg true)

def drainOutboundMessages (s : AgentScheduler T) :
    List (AgentPid × Message) × AgentScheduler T :=
  (s.outboundMessages,
    { s with
      outboundMessages := []
      trace := s.trace ++
        s.outboundMessages.map fun message => .drainedOutbound message.1 message.2 })

/-! ## Processes, links and monitors -/

def spawn (code : BehaviorCode T) (s : AgentScheduler T) (behavior : T.Behavior)
    (args : Json) : Except Reason AgentPid × AgentScheduler T :=
  let pid := s.nextPid
  let s := { s with nextPid := pid + 1 }
  match s.registry.spawn code pid behavior args with
  | .error reason => (.error reason, s)
  | .ok (pid, registry) => (.ok pid, { s with registry })

/-- The counter moves on, and the new process is there unless `init` failed. -/
theorem spawn_cases (code : BehaviorCode T) (s : AgentScheduler T) (behavior : T.Behavior)
    (args : Json) :
    (∃ reason, s.spawn code behavior args =
      (.error reason, { s with nextPid := s.nextPid + 1 })) ∨
    ∃ registry state, s.spawn code behavior args =
        (.ok s.nextPid, { s with nextPid := s.nextPid + 1, registry }) ∧
      ∀ q, registry.lookup q =
        if q = s.nextPid then
          some (.started s.nextPid behavior state AgentProcess.defaultMailboxCapacity)
        else s.lookup q := by
  cases hspawn : s.registry.spawn code s.nextPid behavior args with
  | error reason =>
      left
      exact ⟨reason, by simp only [spawn, hspawn]⟩
  | ok result =>
      right
      obtain ⟨pid, registry⟩ := result
      obtain ⟨rfl, state, hlookup⟩ := AgentRegistry.lookup_spawn hspawn
      exact ⟨registry, state, by simp only [spawn, hspawn], hlookup⟩

/-- Link two processes, each in the other's list. -/
def link (s : AgentScheduler T) (first second : AgentPid) : AgentScheduler T :=
  let s := s.modify first fun proc => { proc with links := proc.links ++ [second] }
  s.modify second fun proc => { proc with links := proc.links ++ [first] }

def monitor (s : AgentScheduler T) (watcher target : AgentPid) :
    Except String MonitorRef × AgentScheduler T :=
  match s.lookup watcher with
  | none => (.error s!"Watcher AgentPid({watcher}) not found", s)
  | some _ =>
      match s.lookup target with
      | none => (.error s!"Target AgentPid({target}) not found", s)
      | some _ =>
          let monitorRef := s.nextMonitorRef
          let s := { s with nextMonitorRef := monitorRef + 1 }
          let s := s.modify watcher fun proc =>
            { proc with monitors := proc.monitors ++ [(monitorRef, target)] }
          let s := s.modify target fun proc =>
            { proc with monitoredBy := proc.monitoredBy ++ [(monitorRef, watcher)] }
          (.ok monitorRef, s.log (.monitored monitorRef watcher target))

theorem monitor_cases (s : AgentScheduler T) (watcher target : AgentPid) :
    (∃ text, s.monitor watcher target = (.error text, s)) ∨
    (s.lookup watcher).isSome ∧ (s.lookup target).isSome ∧
      s.monitor watcher target =
        (.ok s.nextMonitorRef,
          ((({ s with nextMonitorRef := s.nextMonitorRef + 1 } : AgentScheduler T).modify
            watcher fun proc =>
              { proc with monitors := proc.monitors ++ [(s.nextMonitorRef, target)] }).modify
            target fun proc =>
              { proc with
                monitoredBy := proc.monitoredBy ++ [(s.nextMonitorRef, watcher)] }).log
            (.monitored s.nextMonitorRef watcher target)) := by
  cases hwatcher : s.lookup watcher with
  | none =>
      left
      simp only [monitor, hwatcher]
      exact ⟨_, rfl⟩
  | some watcherProc =>
      cases htarget : s.lookup target with
      | none =>
          left
          simp only [monitor, hwatcher, htarget]
          exact ⟨_, rfl⟩
      | some targetProc =>
          right
          refine ⟨rfl, rfl, ?_⟩
          simp only [monitor, hwatcher, htarget]

/-- `monitored_by.retain(|(r, w)| !(*r == mon_ref && *w == watcher))`. -/
def dropMonitoredBy (s : AgentScheduler T) (target : AgentPid) (monitorRef : MonitorRef)
    (watcher : AgentPid) : AgentScheduler T :=
  s.modify target fun proc =>
    { proc with monitoredBy := proc.monitoredBy.filter (· ≠ (monitorRef, watcher)) }

def dropMonitor (s : AgentScheduler T) (watcher : AgentPid) (monitorRef : MonitorRef)
    (target : AgentPid) : AgentScheduler T :=
  s.modify watcher fun proc =>
    { proc with monitors := proc.monitors.filter (· ≠ (monitorRef, target)) }

def demonitor (s : AgentScheduler T) (watcher : AgentPid) (monitorRef : MonitorRef) :
    Bool × AgentScheduler T :=
  match s.lookup watcher with
  | none => (false, s)
  | some proc =>
      match proc.monitors.findIdx? (fun record => record.1 = monitorRef) with
      | none => (false, s)
      | some i =>
          match proc.monitors[i]? with
          | none => (false, s)
          | some (_, target) =>
              let s := s.modify watcher fun proc =>
                { proc with monitors := swapRemove proc.monitors i }
              let s := s.dropMonitoredBy target monitorRef watcher
              (true, s.log (.demonitored monitorRef watcher))

theorem demonitor_cases (s : AgentScheduler T) (watcher : AgentPid)
    (monitorRef : MonitorRef) :
    s.demonitor watcher monitorRef = (false, s) ∨
    ∃ proc i target, s.lookup watcher = some proc ∧
      proc.monitors[i]? = some (monitorRef, target) ∧
      s.demonitor watcher monitorRef =
        (true, ((s.modify watcher fun proc =>
            { proc with monitors := swapRemove proc.monitors i }).dropMonitoredBy target
              monitorRef watcher).log (.demonitored monitorRef watcher)) := by
  cases hwatcher : s.lookup watcher with
  | none => exact .inl (by simp only [demonitor, hwatcher])
  | some proc =>
      cases hindex : proc.monitors.findIdx? fun record => record.1 = monitorRef with
      | none => exact .inl (by simp only [demonitor, hwatcher, hindex])
      | some i =>
          obtain ⟨hi, href, _⟩ := List.findIdx?_eq_some_iff_getElem.mp hindex
          have hrecord : proc.monitors[i]? = some (monitorRef, proc.monitors[i].2) := by
            rw [List.getElem?_eq_getElem hi]
            simp only [decide_eq_true_eq] at href
            rw [← href]
          right
          refine ⟨proc, i, proc.monitors[i].2, rfl, hrecord, ?_⟩
          simp only [demonitor, hwatcher, hindex, hrecord]

/-- `set_receive_timeout`; `deadline` is what `Instant::now().checked_add` gives. -/
def setReceiveTimeout (s : AgentScheduler T) (pid : AgentPid) (deadline : Option Nat) :
    Except String Unit × AgentScheduler T :=
  match s.lookup pid with
  | none => (.error s!"Process AgentPid({pid}) not found", s)
  | some _ =>
      match deadline with
      | none => (.error "timeout duration overflow", s)
      | some deadline =>
          (.ok (), s.modify pid fun proc => { proc with receiveTimeout := some deadline })

/-- `add_exit_handler`, under the next number. -/
def addExitHandler (s : AgentScheduler T) (handler : T.Handler) : AgentScheduler T :=
  let id := s.trace.countP fun event => match event with
    | .handlerAdded _ _ => true
    | _ => false
  { s with exitHandlers := s.exitHandlers ++ [(id, handler)] }.log
    (.handlerAdded id s.handlersOut)

def clearMessageHook (s : AgentScheduler T) : AgentScheduler T :=
  { s with messageHook := none }.log .hookCleared

def cancel (s : AgentScheduler T) (pid : AgentPid) : AgentScheduler T :=
  { s with bridge := s.bridge.map fun bridge => (bridge.cancel pid).2 }

end AgentScheduler

end Zeptobeam
