/-
Supervisors.  A supervisor is an exit handler: it learns of each ended process and makes
calls on the scheduler to restart its children.  Its log and the readings of the clock to
come are no fields of the source; of the backoff, which delays nothing here, only the
counts are kept.
-/
import Zeptobeam.SchedulerMoves

namespace Zeptobeam

/-- Which children are restarted when one dies. -/
inductive RestartStrategy where
  | oneForOne
  | oneForAll
  | restForOne
deriving DecidableEq, Repr

/-- When a child is restarted after its exit. -/
inductive ChildRestart where
  | permanent
  | transient
  | temporary
deriving DecidableEq, Repr

structure ChildSpec (B : Type) where
  id : String
  behavior : B
  args : Json
  restart : ChildRestart
  priority : Priority

structure SupervisorSpec (B : Type) where
  strategy : RestartStrategy
  maxRestarts : Nat
  maxSeconds : Nat
  children : List (ChildSpec B)

structure RunningChild (B : Type) where
  id : String
  pid : AgentPid
  spec : ChildSpec B

/-- What the log of a supervisor records. -/
inductive SupervisorEvent (B : Type) where
  /-- The exit of a recorded child was handled. -/
  | exited (child : RunningChild B) (reason : Reason)
  /-- A round of restarts began; these children are ended first, and these are the
  relations of all processes. -/
  | round (now : Nat) (ended : List AgentPid) (relations : AgentPid → Option Relations)
  /-- A child was started again, under a new pid. -/
  | restarted (child : RunningChild B) (pid : AgentPid)
  | shutDown (now : Nat)

structure Supervisor (B : Type) where
  strategy : RestartStrategy
  maxRestarts : Nat
  maxSeconds : Nat
  children : List (RunningChild B)
  restartTimestamps : List Nat
  shutdown : Bool
  restartCounts : AList fun _ : String => Nat
  /-- The readings of the clock to come, in nanoseconds. -/
  clock : Nat → Nat
  log : List (SupervisorEvent B)

/-- The agents of a scheduler whose exit handlers are supervisors. -/
abbrev Supervised (B S H : Type) : AgentTypes := ⟨B, S, Supervisor B, H⟩

def ChildRestart.shouldRestart : ChildRestart → Reason → Bool
  | .permanent, _ => true
  | .transient, reason => !(reason = .normal || reason = .shutdown)
  | .temporary, _ => false

namespace Supervisor

variable {B S H : Type}

/-! ## The children that are started -/

/-- The loop of `start`: a child that fails ends it, and those before it stay. -/
def startChildren (code : BehaviorCode (Supervised B S H)) :
    List (ChildSpec B) → AgentScheduler (Supervised B S H) →
      Except Reason (List (RunningChild B)) × AgentScheduler (Supervised B S H)
  | [], s => (.ok [], s)
  | spec :: rest, s =>
      match s.spawn code spec.behavior spec.args with
      | (.error reason, s) => (.error reason, s)
      | (.ok pid, s) =>
          let s := (s.modify pid ({ · with priority := spec.priority })).enqueue pid
          match startChildren code rest s with
          | (.error reason, s) => (.error reason, s)
          | (.ok children, s) => (.ok (⟨spec.id, pid, spec⟩ :: children), s)

def start (code : BehaviorCode (Supervised B S H)) (s : AgentScheduler (Supervised B S H))
    (spec : SupervisorSpec B) (clock : Nat → Nat) :
    Except Reason (Supervisor B) × AgentScheduler (Supervised B S H) :=
  match startChildren code spec.children s with
  | (.error reason, s) => (.error reason, s)
  | (.ok children, s) =>
      (.ok { strategy := spec.strategy, maxRestarts := spec.maxRestarts
             maxSeconds := spec.maxSeconds, children, restartTimestamps := []
             shutdown := false, restartCounts := ∅, clock, log := [] }, s)

/-- `start_linked`: the supervisor becomes an exit handler of the scheduler. -/
def startLinked (code : BehaviorCode (Supervised B S H))
    (s : AgentScheduler (Supervised B S H)) (spec : SupervisorSpec B) (clock : Nat → Nat) :
    AgentScheduler (Supervised B S H) :=
  match start code s spec clock with
  | (.error _, s) => s
  | (.ok sup, s) => s.addExitHandler sup

/-! ## The intensity of restarts -/

/-- The window of the intensity check, in nanoseconds. -/
def window (sup : Supervisor B) : Nat := sup.maxSeconds * 10 ^ 9

/-- What the check leaves of the timestamps, the present one included. -/
def retained (sup : Supervisor B) : List Nat :=
  (sup.restartTimestamps ++ [sup.clock 0]).filter fun t => sup.clock 0 - t ≤ sup.window

/-- `exceeds_max_restarts`; the length is cast to `u32`. -/
def exceedsMaxRestarts (sup : Supervisor B) : Bool × Supervisor B :=
  (sup.retained.length % 2 ^ 32 > sup.maxRestarts,
    { sup with
      restartTimestamps := sup.retained
      clock := fun k => sup.clock (k + 1) })

/-- `increment_restart_count`; the count is a `u32` that wraps. -/
def incrementRestartCount (sup : Supervisor B) (id : String) : Supervisor B :=
  { sup with
    restartCounts :=
      sup.restartCounts.insert id (((sup.restartCounts.lookup id).getD 0 + 1) % 2 ^ 32) }

def record (sup : Supervisor B) (event : SupervisorEvent B) : Supervisor B :=
  { sup with log := sup.log ++ [event] }

/-! ## Rounds -/

/-- `spawn_child`, and what is done with the running child. -/
def spawnChild (spec : ChildSpec B)
    (next : Option (RunningChild B) → HandlerProg (Supervised B S H)) :
    HandlerProg (Supervised B S H) :=
  .call (.spawn spec.behavior spec.args) fun reply _ =>
    match reply with
    | .spawned (.ok pid) =>
        .call (.setPriority pid spec.priority) fun _ _ =>
          .call (.enqueue pid) fun _ _ => next (some ⟨spec.id, pid, spec⟩)
    | _ => next none

/-- Each child in turn is terminated, but for the dead one. -/
def terminateSiblings (deadPid : AgentPid) :
    List (RunningChild B) → HandlerProg (Supervised B S H) → HandlerProg (Supervised B S H)
  | [], next => next
  | child :: rest, next =>
      if child.pid ≠ deadPid then
        .call (.terminateProcess child.pid .shutdown) fun _ _ =>
          terminateSiblings deadPid rest next
      else terminateSiblings deadPid rest next

/-- The specs of some former children are started, at the end of the children. -/
def respawn (sup : Supervisor B) : List (RunningChild B) → HandlerProg (Supervised B S H)
  | [] => .done sup
  | child :: rest =>
      let sup := sup.incrementRestartCount child.spec.id
      spawnChild child.spec fun running =>
        match running with
        | some running =>
            respawn ({ sup with children := sup.children ++ [running] }.record
              (.restarted child running.pid)) rest
        | none => respawn sup rest

/-- Only the dead child is restarted, in its place. -/
def restartOne (sup : Supervisor B) (i : Nat) (dead : RunningChild B) :
    HandlerProg (Supervised B S H) :=
  let sup := { sup with children := sup.children.eraseIdx i }
  let sup := sup.incrementRestartCount dead.id
  spawnChild dead.spec fun running =>
    match running with
    | some running =>
        .done ({ sup with children := sup.children.insertIdx i running }.record
          (.restarted dead running.pid))
    | none => .done sup

def restartAll (sup : Supervisor B) (dead : RunningChild B) :
    HandlerProg (Supervised B S H) :=
  terminateSiblings dead.pid sup.children (respawn { sup with children := [] } sup.children)

/-- The dead child and those after it are restarted. -/
def restartRest (sup : Supervisor B) (i : Nat) (dead : RunningChild B) :
    HandlerProg (Supervised B S H) :=
  terminateSiblings dead.pid (sup.children.drop i)
    (respawn { sup with children := sup.children.take i } (sup.children.drop i))

/-- The children that a round ends before it restarts them. -/
def siblings (sup : Supervisor B) (i : Nat) (dead : RunningChild B) : List AgentPid :=
  let pids := fun children : List (RunningChild B) =>
    (children.map RunningChild.pid).filter (· ≠ dead.pid)
  match sup.strategy with
  | .oneForOne => []
  | .oneForAll => pids sup.children
  | .restForOne => pids (sup.children.drop i)

/-- The children that a round leaves alone. -/
def keptChildren (sup : Supervisor B) (i : Nat) : List (RunningChild B) :=
  match sup.strategy with
  | .oneForOne => sup.children.eraseIdx i
  | .oneForAll => []
  | .restForOne => sup.children.take i

def restart (sup : Supervisor B) (i : Nat) (dead : RunningChild B) :
    HandlerProg (Supervised B S H) :=
  match sup.strategy with
  | .oneForOne => sup.restartOne i dead
  | .oneForAll => sup.restartAll dead
  | .restForOne => sup.restartRest i dead

/-- `handle_child_exit`; the relations of the processes are only for the log. -/
def handleChildExit (sup : Supervisor B) (pid : AgentPid) (reason : Reason)
    (relations : AgentPid → Option Relations) : HandlerProg (Supervised B S H) :=
  if sup.shutdown then .done sup
  else
    match sup.children.findIdx? (·.pid = pid) with
    | none => .done sup
    | some i =>
        match sup.children[i]? with
        | none => .done sup
        | some child =>
            let sup := sup.record (.exited child reason)
            if !child.spec.restart.shouldRestart reason then
              .done { sup with children := sup.children.eraseIdx i }
            else
              let now := sup.clock 0
              let (exceeded, sup) := sup.exceedsMaxRestarts
              if exceeded then .done ({ sup with shutdown := true }.record (.shutDown now))
              else
                (sup.record (.round now (sup.siblings i child) relations)).restart i child

/-- Supervisors as the exit handlers of a scheduler. -/
def code (agents : BehaviorCode (Supervised B S H)) : AgentCode (Supervised B S H) where
  toBehaviorCode := agents
  exitHandler sup pid reason s := sup.handleChildExit pid reason s.relations

/-- The plainest agents, for schedulers under supervisors. -/
def plainAgents : BehaviorCode (Supervised Unit Unit Unit) where
  init _ _ := .ok ()
  handleMessage _ _ _ := .ok (.continue, ())
  handleExit _ _ _ _ := .ok (.continue, ())
  onSend _ _ _ := (.ok (), ())

end Supervisor

end Zeptobeam
