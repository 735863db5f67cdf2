/-
Termination of processes and runs of the scheduler.  `terminate_process` calls
itself for linked processes and hands the scheduler to the exit handlers, which
may call anything; so it takes fuel, and the result is `none` when it runs out.
-/
import Zeptobeam.SchedulerTick

namespace Zeptobeam

/-- The calls on a scheduler. -/
inductive Call (T : AgentTypes) where
  | spawn (behavior : T.Behavior) (args : Json)
  | setPriority (pid : AgentPid) (priority : Priority)
  | setTrapExit (pid : AgentPid) (trapExit : Bool)
  | enqueue (pid : AgentPid)
  | send (dest : AgentPid) (msg : Message)
  | link (first second : AgentPid)
  | monitor (watcher target : AgentPid)
  | demonitor (watcher : AgentPid) (monitorRef : MonitorRef)
  | setReceiveTimeout (pid : AgentPid) (deadline : Option Nat)
  | cancel (pid : AgentPid)
  | registerName (name : String) (pid : AgentPid)
  | unregisterName (name : String)
  | drainOutboundMessages
  | addExitHandler (handler : T.Handler)
  | setMessageHook (hook : T.Hook)
  | clearMessageHook
  | setBridge (bridge : Bridge)
  | clearBridge
  | setExternalRouting (enabled : Bool)
  /-- The workers go on working while the bridge shuts down. -/
  | gracefulShutdown (workers : List Bridge.WorkerStep) (order : PidOrder T)
  | terminateProcess (pid : AgentPid) (reason : Reason)
  | tick (now : Nat) (order : PidOrder T)

/-- What a call answers. -/
inductive Reply where
  | done
  | spawned (answer : Except Reason AgentPid)
  | sent (answer : Except SendError Unit)
  | monitored (answer : Except String MonitorRef)
  | flag (value : Bool)
  | checked (answer : Except String Unit)
  | drained (messages : List (AgentPid × Message))

/-- An exit handler at work: it makes calls, sees the answer and the scheduler after
each, and ends in its next state. -/
inductive HandlerProg (T : AgentTypes) where
  | done (handler : T.Handler)
  | call (call : Call T) (next : Reply → AgentScheduler T → HandlerProg T)

structure AgentCode (T : AgentTypes) extends BehaviorCode T where
  exitHandler : T.Handler → AgentPid → Reason → AgentScheduler T → HandlerProg T

namespace AgentScheduler

variable {T : AgentTypes}

/-! ## Taking a process down -/

/-- The loop over the links of a terminated process. -/
structure LinkNotices (T : AgentTypes) where
  scheduler : AgentScheduler T
  pidsToCascade : List AgentPid
  pidsToWake : List AgentPid

def notifyLink (pid : AgentPid) (reason : Reason) (notices : LinkNotices T)
    (linked : AgentPid) : LinkNotices T :=
  match notices.scheduler.lookup linked with
  | none => notices
  | some proc =>
      if proc.trapExit then
        { notices with
          scheduler := notices.scheduler.deliverDirect linked (.system (.exit pid reason))
          pidsToWake :=
            if proc.status = .waiting then notices.pidsToWake ++ [linked]
            else notices.pidsToWake }
      else if reason ≠ .normal then
        { notices with pidsToCascade := notices.pidsToCascade ++ [linked] }
      else notices

/-- Take the process out of the registry, with its unread mailbox. -/
def removeProcess (s : AgentScheduler T) (pid : AgentPid) : AgentScheduler T :=
  match s.lookup pid with
  | none => s
  | some proc =>
      { s with
        registry := s.registry.remove pid
        trace := s.trace ++ .removed pid :: proc.mailbox.map fun msg => .discarded pid msg }

/-- Hand a Down message to `send`. -/
def sendDown (code : BehaviorCode T) (pid : AgentPid) (reason : Reason)
    (s : AgentScheduler T) (monitor : MonitorRef × AgentPid) : AgentScheduler T :=
  (s.send code monitor.2 (.system (.down monitor.1 pid reason)) (.monitor monitor.1 pid)).2

/-- The monitors of a removed process go at both ends, its links are notified, and
who slept is woken; the linked processes to terminate next are returned. -/
def settleRelations (s : AgentScheduler T) (pid : AgentPid) (reason : Reason)
    (links : List AgentPid) (monitors monitoredBy : List (MonitorRef × AgentPid)) :
    List AgentPid × AgentScheduler T :=
  let s := monitors.foldl (fun s record => s.dropMonitoredBy record.2 record.1 pid) s
  let notices := links.foldl (notifyLink pid reason) ⟨s, [], []⟩
  let s := monitoredBy.foldl (fun s record => s.dropMonitor record.2 record.1 pid)
    notices.scheduler
  (notices.pidsToCascade, notices.pidsToWake.foldl enqueue s)

/-- What the relations of a removed process learn. -/
def notifyRelations (code : BehaviorCode T) (s : AgentScheduler T) (pid : AgentPid)
    (reason : Reason) (links : List AgentPid)
    (monitors monitoredBy : List (MonitorRef × AgentPid)) :
    List AgentPid × AgentScheduler T :=
  let (pidsToCascade, s) := s.settleRelations pid reason links monitors monitoredBy
  (pidsToCascade, monitoredBy.foldl (sendDown code pid reason) s)

/-- All that happens before the cascade. -/
def takeDown (code : BehaviorCode T) (s : AgentScheduler T) (pid : AgentPid)
    (reason : Reason) : List AgentPid × AgentScheduler T :=
  let links := (s.lookup pid).elim [] AgentProcess.links
  let monitoredBy := (s.lookup pid).elim [] AgentProcess.monitoredBy
  let monitors := (s.lookup pid).elim [] AgentProcess.monitors
  let s := (s.cancel pid).log
    (.terminating pid (s.lookup pid).isSome s.handlersOut s.exitHandlers.isEmpty)
  (s.removeProcess pid).notifyRelations code pid reason links monitors monitoredBy

/-- The last part: metrics, and the destruction of the agent on the bridge. -/
def finishTermination (s : AgentScheduler T) (pid : AgentPid) : AgentScheduler T :=
  let s := { s with metrics := { s.metrics with
    processTerminations := s.metrics.processTerminations + 1 } }
  match s.bridge with
  | none => s
  | some bridge =>
      match bridge.submit pid (.agentDestroy pid) with
      | (.ok _, bridge) => { s with bridge := some bridge }
      | (.error _, bridge) =>
          { s with bridge := some bridge, pendingDestroys := s.pendingDestroys ++ [(pid, 0)] }

/-- `graceful_shutdown`: the responses that are there, and then the processes that
are still alive. -/
def gracefulShutdown (code : BehaviorCode T)
    (terminate : AgentScheduler T → AgentPid → Reason → Option (AgentScheduler T))
    (s : AgentScheduler T) (workers : List Bridge.WorkerStep) (order : PidOrder T) :
    Option (AgentScheduler T) := do
  let bridge := s.bridge.map (workers.foldl Bridge.workerStep)
  let s := { s with bridge }.deliverResponses code
  let s ← (order.walk s.registry).foldlM
    (fun s pid => if (s.lookup pid).isSome then terminate s pid .shutdown else some s) s
  some { s with bridge := none, queueHigh := [], queueNormal := [], queueLow := [] }

/-! ## Calls and handlers -/

/-- A call, given how processes are terminated. -/
def perform (code : BehaviorCode T)
    (terminate : AgentScheduler T → AgentPid → Reason → Option (AgentScheduler T))
    (s : AgentScheduler T) : Call T → Option (Reply × AgentScheduler T)
  | .spawn behavior args =>
      let (answer, s) := s.spawn code behavior args
      some (.spawned answer, s)
  | .setPriority pid priority => some (.done, s.modify pid ({ · with priority }))
  | .setTrapExit pid trapExit => some (.done, s.modify pid ({ · with trapExit }))
  | .enqueue pid => some (.done, s.enqueue pid)
  | .send dest msg =>
      let (answer, s) := s.send code dest msg .caller
      some (.sent answer, s)
  | .link first second => some (.done, s.link first second)
  | .monitor watcher target =>
      let (answer, s) := s.monitor watcher target
      some (.monitored answer, s)
  | .demonitor watcher monitorRef =>
      let (answer, s) := s.demonitor watcher monitorRef
      some (.flag answer, s)
  | .setReceiveTimeout pid deadline =>
      let (answer, s) := s.setReceiveTimeout pid deadline
      some (.checked answer, s)
  | .cancel pid => some (.done, s.cancel pid)
  | .registerName name pid =>
      match s.registry.registerName name pid with
      | .error text => some (.checked (.error text), s)
      | .ok registry => some (.checked (.ok ()), { s with registry })
  | .unregisterName name =>
      some (.done, { s with registry := s.registry.unregisterName name })
  | .drainOutboundMessages =>
      let (messages, s) := s.drainOutboundMessages
      some (.drained messages, s)
  | .addExitHandler handler => some (.done, s.addExitHandler handler)
  | .setMessageHook hook => some (.done, { s with messageHook := some hook })
  | .clearMessageHook => some (.done, s.clearMessageHook)
  | .setBridge bridge => some (.done, { s with bridge := some bridge })
  | .clearBridge => some (.done, { s with bridge := none })
  | .setExternalRouting enabled => some (.done, { s with allowExternalRouting := enabled })
  | .gracefulShutdown workers order =>
      (s.gracefulShutdown code terminate workers order).map fun s => (.done, s)
  | .terminateProcess pid reason => (terminate s pid reason).map fun s => (.done, s)
  | .tick now order => (s.tick code terminate now order).map fun result =>
      (.flag result.1, result.2)

def runProg (call : AgentScheduler T → Call T → Option (Reply × AgentScheduler T)) :
    HandlerProg T → AgentScheduler T → Option (T.Handler × AgentScheduler T)
  | .done handler, s => some (handler, s)
  | .call c next, s =>
      match call s c with
      | none => none
      | some (reply, s) => runProg call (next reply s) s

/-- Invoke the handlers one after the other; they come back with their new states. -/
def invokeAll (code : AgentCode T)
    (call : AgentScheduler T → Call T → Option (Reply × AgentScheduler T))
    (pid : AgentPid) (reason : Reason) :
    List (Nat × T.Handler) → AgentScheduler T →
      Option (List (Nat × T.Handler) × AgentScheduler T)
  | [], s => some ([], s)
  | (id, handler) :: rest, s =>
      let s := s.log (.handlerInvoked id pid reason)
      match runProg call (code.exitHandler handler pid reason s) s with
      | none => none
      | some (handler, s) =>
          (invokeAll code call pid reason rest s).map fun result =>
            ((id, handler) :: result.1, result.2)

/-- The handlers are taken out of the scheduler while they run, and put back over
whatever was registered meanwhile. -/
def runExitHandlers (code : AgentCode T)
    (call : AgentScheduler T → Call T → Option (Reply × AgentScheduler T))
    (s : AgentScheduler T) (pid : AgentPid) (reason : Reason) :
    Option (AgentScheduler T) :=
  if s.exitHandlers = [] then some s
  else
    (invokeAll code call pid reason s.exitHandlers
      { s with exitHandlers := [], handlersOut := true }).map fun result =>
        { result.2 with exitHandlers := result.1, handlersOut := s.handlersOut }

def terminateProcess (code : AgentCode T) :
    Nat → AgentScheduler T → AgentPid → Reason → Option (AgentScheduler T)
  | 0, _, _, _ => none
  | fuel + 1, s, pid, reason => do
      let (pidsToCascade, s) := s.takeDown code.toBehaviorCode pid reason
      let s ← pidsToCascade.foldlM
        (fun s cascade => terminateProcess code fuel s cascade reason) s
      let s ← s.runExitHandlers code
        (perform code.toBehaviorCode (terminateProcess code fuel)) pid reason
      some (s.finishTermination pid)

/-! ## Runs -/

end AgentScheduler

/-- A step of a run: a call, a step of a bridge worker, or other schedulers of the
process drawing from the global counters. -/
inductive RunOp (T : AgentTypes) where
  | call (call : Call T)
  | worker (step : Bridge.WorkerStep)
  | countersAdvance (pids refs : Nat)

namespace AgentScheduler

variable {T : AgentTypes}

def step (code : AgentCode T) (fuel : Nat) (s : AgentScheduler T) :
    RunOp T → Option (AgentScheduler T)
  | .call call =>
      (perform code.toBehaviorCode (terminateProcess code fuel) s call).map Prod.snd
  | .worker step =>
      some { s with bridge := s.bridge.map fun bridge => bridge.workerStep step }
  | .countersAdvance pids refs =>
      some { s with nextPid := s.nextPid + pids, nextMonitorRef := s.nextMonitorRef + refs }

/-- A run; each call is given fuel of its own. -/
def run (code : AgentCode T) (s : AgentScheduler T) (ops : List (Nat × RunOp T)) :
    Option (AgentScheduler T) :=
  ops.foldlM (fun s op => s.step code op.1 op.2) s

/-- What a run reaches from a new scheduler, whatever bridge, hook and routing mode it
was given. -/
def Reachable (code : AgentCode T) (s : AgentScheduler T) : Prop :=
  ∃ bridge messageHook routing nextPid nextMonitorRef ops,
    run code (new bridge messageHook routing nextPid nextMonitorRef) ops = some s

end AgentScheduler

/-! ## The plainest agents -/

def plainTypes : AgentTypes := ⟨Unit, Unit, Unit, Unit⟩

/-- Agents that go on after each message, a hook that accepts all, a handler that does
nothing. -/
def plainCode : AgentCode plainTypes where
  init _ _ := .ok ()
  handleMessage _ _ _ := .ok (.continue, ())
  handleExit _ _ _ _ := .ok (.continue, ())
  onSend _ _ _ := (.ok (), ())
  exitHandler _ _ _ _ := .done ()

end Zeptobeam
