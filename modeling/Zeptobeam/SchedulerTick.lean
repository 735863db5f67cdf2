/-
One scheduling cycle.  A tick drains the bridge, retries agent destruction, fires
receive timeouts, and then runs one process until it waits, stops, asks for I/O or
is out of reductions.  How a process is terminated is a parameter here.
-/
import Zeptobeam.Scheduler

namespace Zeptobeam

/-- The order in which the registry's hash map yields its pids. -/
structure PidOrder (T : AgentTypes) where
  walk : AgentRegistry T → List AgentPid
  walk_perm : ∀ registry, (walk registry).Perm registry.processes.keys

/-- One such order: the process changed last comes first. -/
def PidOrder.latestFirst (T : AgentTypes) : PidOrder T :=
  ⟨fun registry => registry.processes.keys, fun _ => .refl _⟩

/-- What a dispatch loop leaves to do after it. -/
structure Deferred (T : AgentTypes) where
  pendingSends : List (AgentPid × Message)
  pendingSpawns : List (T.Behavior × Json × Bool × Bool)
  shouldStop : Option Reason
  shouldWait : Bool
  outOfReductions : Bool

def Deferred.none {T : AgentTypes} : Deferred T := ⟨[], [], .none, false, false⟩

namespace AgentScheduler

variable {T : AgentTypes} (code : BehaviorCode T)

def defaultReductions : Nat := 200

/-! ## Before a process is picked -/

def deliverResponses (s : AgentScheduler T) : AgentScheduler T :=
  match s.bridge with
  | none => s
  | some bridge =>
      let (responses, bridge) := bridge.drainResponses
      { s with bridge := some bridge }.sendAll code .scheduler responses

/-- Submit each pending destruction again, three times at most. -/
def retryDestroys (bridge : Bridge) :
    List (AgentPid × Nat) → List (AgentPid × Nat) × Bridge
  | [] => ([], bridge)
  | (pid, retries) :: rest =>
      if retries ≥ 3 then retryDestroys bridge rest
      else
        match bridge.submit pid (.agentDestroy pid) with
        | (.ok _, bridge) => retryDestroys bridge rest
        | (.error _, bridge) =>
            let (kept, bridge) := retryDestroys bridge rest
            ((pid, retries + 1) :: kept, bridge)

def retryPendingDestroys (s : AgentScheduler T) : AgentScheduler T :=
  match s.bridge with
  | none => s
  | some bridge =>
      let (pendingDestroys, bridge) := retryDestroys bridge s.pendingDestroys
      { s with pendingDestroys, bridge := some bridge }

def timedOut (s : AgentScheduler T) (now : Nat) (pid : AgentPid) : Bool :=
  match s.lookup pid with
  | none => false
  | some proc =>
      proc.status = .waiting && proc.receiveTimeout.any fun deadline => now ≥ deadline

def fireTimeout (s : AgentScheduler T) (pid : AgentPid) : AgentScheduler T :=
  let s := s.modify pid fun proc => { proc with receiveTimeout := none }
  (s.send code pid (.system .receiveTimeout) .scheduler).2

def fireTimeouts (s : AgentScheduler T) (now : Nat) (order : PidOrder T) :
    AgentScheduler T :=
  ((order.walk s.registry).filter (s.timedOut now)).foldl (fireTimeout code) s

def queued (s : AgentScheduler T) : Nat :=
  s.queueHigh.length + s.queueNormal.length + s.queueLow.length

/-- Skip queue entries that are not runnable; each try takes one entry away. -/
def selectRunnable : Nat → AgentScheduler T → Option AgentPid × AgentScheduler T
  | 0, s => (none, s)
  | fuel + 1, s =>
      match s.nextRunnable with
      | (none, s) => (none, s)
      | (some pid, s) =>
          if (s.lookup pid).any fun proc => proc.status = .runnable then (some pid, s)
          else selectRunnable fuel s

/-! ## The dispatch loop -/

/-- Call the behaviour; a panic stops the process and loses its state. -/
def runCallback (behavior : T.Behavior) (msg : Message) (state : T.State) :
    Action T × Option T.State :=
  let result := match msg with
    | .system (.exit pid reason) => code.handleExit behavior pid reason state
    | msg => code.handleMessage behavior msg state
  match result with
  | .ok (action, state) => (action, some state)
  | .error text => (.stop (.custom s!"panic: {text}"), none)

/-- The message leaves the mailbox, one reduction is counted, and the state is what
the callback has left. -/
def takeMessage (s : AgentScheduler T) (pid : AgentPid) (state : Option T.State) :
    AgentScheduler T :=
  let s := s.modify pid fun proc => { proc with
    mailbox := proc.mailbox.tail
    reductions := proc.reductions - 1
    state }
  { s with metrics := { s.metrics with
    messagesProcessed := s.metrics.messagesProcessed + 1 } }

def charge (s : AgentScheduler T) (pid : AgentPid) (cost : Nat) : AgentScheduler T :=
  s.modify pid fun proc => { proc with reductions := proc.reductions - cost }

/-- The operation was not accepted: the process gets the error's text. -/
def failIo (s : AgentScheduler T) (pid : AgentPid) (text : String) : AgentScheduler T :=
  let s := s.deliverDirect pid (.text text)
  let s := s.modify pid fun proc => { proc with status := .runnable }
  s.enqueue pid

def requestIo (s : AgentScheduler T) (pid : AgentPid) (op : IoOp) : AgentScheduler T :=
  let s := s.modify pid fun proc => { proc with
    reductions := proc.reductions - 1
    status := .waiting }
  match s.bridge with
  | none => s.failIo pid "no I/O bridge configured"
  | some bridge =>
      match bridge.submit pid op with
      | (.ok correlationId, bridge) =>
          { s with bridge := some bridge }.log (.ioAccepted pid correlationId)
      | (.error text, bridge) => { s with bridge := some bridge }.failIo pid text

def dispatch (pid : AgentPid) :
    Nat → AgentScheduler T → Deferred T → AgentScheduler T × Deferred T
  | 0, s, deferred => (s, deferred)
  | fuel + 1, s, deferred =>
      match s.lookup pid with
      | none => (s, deferred)
      | some proc =>
          if proc.reductions = 0 then (s, { deferred with outOfReductions := true })
          else
            match proc.mailbox with
            | [] => (s, { deferred with shouldWait := true })
            | msg :: _ =>
                match proc.state with
                | none => ((s.takeMessage pid none).log (.discarded pid msg), deferred)
                | some state =>
                    let (action, state) := runCallback code proc.behavior msg state
                    let s := (s.takeMessage pid state).log (.handled pid msg)
                    match action with
                    | .continue => dispatch pid fuel s deferred
                    | .send dest msg =>
                        dispatch pid fuel (s.charge pid 2)
                          { deferred with
                            pendingSends := deferred.pendingSends ++ [(dest, msg)] }
                    | .stop reason => (s, { deferred with shouldStop := some reason })
                    | .ioRequest op => (s.requestIo pid op, deferred)
                    | .spawn behavior args link monitor =>
                        dispatch pid fuel (s.charge pid 10)
                          { deferred with
                            pendingSpawns := deferred.pendingSpawns ++
                              [(behavior, args, link, monitor)] }

/-! ## After the loop -/

def setWaiting (s : AgentScheduler T) (pid : AgentPid) : AgentScheduler T :=
  s.modify pid fun proc => { proc with status := .waiting }

def monitorChild (s : AgentScheduler T) (pid child : AgentPid) :
    Option MonitorRef × AgentScheduler T :=
  match s.monitor pid child with
  | (.ok monitorRef, s) => (some monitorRef, s)
  | (.error _, s) => (none, s)

def spawnPending (pid : AgentPid) (s : AgentScheduler T)
    (request : T.Behavior × Json × Bool × Bool) : AgentScheduler T :=
  let (behavior, args, link, monitor) := request
  match s.spawn code behavior args with
  | (.error _, s) => s
  | (.ok child, s) =>
      let s := if link then s.link pid child else s
      let (monitorRef, s) := if monitor then s.monitorChild pid child else (none, s)
      let s := (s.send code pid (.system (.spawnResult child monitorRef)) .scheduler).2
      s.enqueue child

/-- Run the picked process.  A loop of more than `defaultReductions` rounds would
find no reductions left. -/
def runProcess (terminate : AgentScheduler T → AgentPid → Reason → Option (AgentScheduler T))
    (s : AgentScheduler T) (pid : AgentPid) : Option (AgentScheduler T) :=
  let s := s.modify pid fun proc => { proc with reductions := defaultReductions }
  let (s, deferred) := dispatch code pid (defaultReductions + 1) s .none
  let s := if deferred.shouldWait then s.setWaiting pid else s
  let s := if deferred.outOfReductions then s.enqueue pid else s
  let s := s.sendAll code (.action pid) deferred.pendingSends
  let s := deferred.pendingSpawns.foldl (spawnPending code pid) s
  match deferred.shouldStop with
  | none => some s
  | some reason => terminate s pid reason

def tick (terminate : AgentScheduler T → AgentPid → Reason → Option (AgentScheduler T))
    (s : AgentScheduler T) (now : Nat) (order : PidOrder T) :
    Option (Bool × AgentScheduler T) :=
  let s := s.deliverResponses code
  let s := s.retryPendingDestroys
  let s := s.fireTimeouts code now order
  match s.selectRunnable (s.queued + 1) with
  | (none, s) => some (false, s)
  | (some pid, s) => (s.runProcess code terminate pid).map fun s => (true, s)

end AgentScheduler

end Zeptobeam
