/-
The cluster: several schedulers, each over a part of the processes, and the routing of
messages between them.  The partitions share the bridge and the counters; a partition
works on the cluster's values of them and hands them back.
-/
import Zeptobeam.SchedulerMoves
import Zeptobeam.MessageTags

namespace Zeptobeam

structure SchedulerCluster (T : AgentTypes) where
  schedulers : List (AgentScheduler T)
  pidOwner : AList fun _ : AgentPid => Nat
  nextSpawnPartition : Nat
  nextTickPartition : Nat
  /-- What all attached partitions talk to. -/
  bridge : Option Bridge
  sharedBridgeShutdownHandle : Bool
  nextPid : AgentPid
  nextMonitorRef : MonitorRef

/-- Why the cluster refuses a message. -/
inductive ClusterError where
  | notFound (pid : AgentPid)
  | send (error : SendError)
deriving DecidableEq

namespace SchedulerCluster

variable {T : AgentTypes}

/-- `new`, with the hooks that the partitions are given before the run, at the
counters' present values. -/
def new (partitions : Nat) (hook : Nat → Option T.Hook) (nextPid nextMonitorRef : Nat) :
    SchedulerCluster T :=
  { schedulers := (List.range (max partitions 1)).map fun i =>
      .new none (hook i) true nextPid nextMonitorRef
    pidOwner := ∅, nextSpawnPartition := 0, nextTickPartition := 0, bridge := none
    sharedBridgeShutdownHandle := false, nextPid, nextMonitorRef }

/-- A partition as it runs: attached to the shared bridge, at the shared counters. -/
def load (c : SchedulerCluster T) (s : AgentScheduler T) : AgentScheduler T :=
  { s with
    bridge := if s.bridge.isSome then c.bridge else none
    nextPid := c.nextPid
    nextMonitorRef := c.nextMonitorRef }

/-- Put a partition back after it has run. -/
def store (c : SchedulerCluster T) (partition : Nat) (s : AgentScheduler T) :
    SchedulerCluster T :=
  { c with
    schedulers := c.schedulers.set partition s
    bridge := if s.bridge.isSome then s.bridge else c.bridge
    nextPid := s.nextPid
    nextMonitorRef := s.nextMonitorRef }

/-- `attach_shared_bridge`. -/
def attachSharedBridge (c : SchedulerCluster T) (bridge : Bridge) : SchedulerCluster T :=
  { c with
    schedulers := c.schedulers.map fun s => { s with bridge := some bridge }
    bridge := some bridge
    sharedBridgeShutdownHandle := true }

def reconcilePidMap (c : SchedulerCluster T) : SchedulerCluster T :=
  let pids := fun s : AgentScheduler T => s.registry.processes.keys
  let owners := c.schedulers.zipIdx.foldl (fun owners entry =>
    (pids entry.1).foldl (fun owners pid => owners.insert pid entry.2) owners) c.pidOwner
  let seen := c.schedulers.flatMap pids
  { c with
    pidOwner := (owners.entries.filter fun entry => entry.1 ∈ seen).toAList }

def spawnOn (code : BehaviorCode T) (c : SchedulerCluster T) (partition : Nat)
    (behavior : T.Behavior) (args : Json) : Except Reason AgentPid × SchedulerCluster T :=
  match c.schedulers[partition]? with
  | none => (.error (.custom s!"invalid partition {partition}"), c)
  | some s =>
      match (c.load s).spawn code behavior args with
      | (.error reason, s) => (.error reason, c.store partition s)
      | (.ok pid, s) =>
          let c := c.store partition s
          (.ok pid, { c with pidOwner := c.pidOwner.insert pid partition })

def spawn (code : BehaviorCode T) (c : SchedulerCluster T) (behavior : T.Behavior)
    (args : Json) : Except Reason AgentPid × SchedulerCluster T :=
  let partition := c.nextSpawnPartition % c.schedulers.length
  let c := { c with
    nextSpawnPartition := (c.nextSpawnPartition + 1) % c.schedulers.length }
  c.spawnOn code partition behavior args

/-- Find the owner of a process and let its partition work. -/
def enqueue (c : SchedulerCluster T) (pid : AgentPid) :
    Except ClusterError Unit × SchedulerCluster T :=
  let c := c.reconcilePidMap
  match c.pidOwner.lookup pid with
  | none => (.error (.notFound pid), c)
  | some partition =>
      match c.schedulers[partition]? with
      | none => (.error (.notFound pid), c)
      | some s => (.ok (), c.store partition ((c.load s).enqueue pid))

def send (code : BehaviorCode T) (c : SchedulerCluster T) (dest : AgentPid)
    (msg : Message) (origin : Origin) :
    Except ClusterError Unit × SchedulerCluster T :=
  let c := c.reconcilePidMap
  match c.pidOwner.lookup dest with
  | none => (.error (.notFound dest), c)
  | some partition =>
      match c.schedulers[partition]? with
      | none => (.error (.notFound dest), c)
      | some s =>
          let (answer, s) := (c.load s).send code dest msg origin
          (answer.mapError .send, c.store partition s)

/-- Take the outbound messages out of all partitions, in their order. -/
def drainAll (c : SchedulerCluster T) : List (AgentPid × Message) × SchedulerCluster T :=
  (c.schedulers.flatMap fun s => s.drainOutboundMessages.1,
    { c with schedulers := c.schedulers.map fun s => s.drainOutboundMessages.2 })

/-- The origins of what all partitions have to send out; only the traces know them. -/
def outboundOrigins (c : SchedulerCluster T) : List Origin :=
  c.schedulers.zipIdx.flatMap fun entry =>
    (outboundBook entry.1.trace).queue.map fun item => item.2.routedFrom entry.2

/-- `route_outbound_messages`: how many found a mailbox, or went out again. -/
def routeOutboundMessages (code : BehaviorCode T) (c : SchedulerCluster T) :
    Nat × SchedulerCluster T :=
  let origins := c.outboundOrigins
  let (outbound, c) := c.drainAll
  outbound.zipIdx.foldl (fun routed entry =>
    let origin := origins[entry.2]?.getD .scheduler
    match routed.2.send code entry.1.1 entry.1.2 origin with
    | (.ok _, c) => (routed.1 + 1, c)
    | (.error _, c) => (routed.1, c)) (0, c)

/-! ## Rounds -/

/-- One partition makes a call. -/
def callOn (code : AgentCode T) (fuel : Nat) (c : SchedulerCluster T) (partition : Nat)
    (call : Call T) : Option (Reply × SchedulerCluster T) :=
  match c.schedulers[partition]? with
  | none => none
  | some s =>
      ((c.load s).perform code.toBehaviorCode (AgentScheduler.terminateProcess code fuel)
        call).map fun result => (result.1, c.store partition result.2)

/-- The partitions' ticks, from the one whose turn it is; the clock and the order of
the pids are given for each. -/
def tickAll (code : AgentCode T) (fuel : Nat) (now : Nat → Nat) (order : Nat → PidOrder T)
    (c : SchedulerCluster T) : List Nat → Option (Bool × SchedulerCluster T)
  | [] => some (false, c)
  | offset :: rest =>
      let partition := (c.nextTickPartition + offset) % c.schedulers.length
      match c.callOn code fuel partition (.tick (now offset) (order offset)) with
      | none => none
      | some (reply, c) =>
          (tickAll code fuel now order c rest).map fun result =>
            ((match reply with
              | .flag worked => worked
              | _ => false) || result.1, result.2)

def tick (code : AgentCode T) (fuel : Nat) (c : SchedulerCluster T) (now : Nat → Nat)
    (order : Nat → PidOrder T) : Option (Bool × SchedulerCluster T) :=
  match c.tickAll code fuel now order (List.range c.schedulers.length) with
  | none => none
  | some (worked, c) =>
      let c := { c with
        nextTickPartition := (c.nextTickPartition + 1) % c.schedulers.length }
      let (routed, c) := c.routeOutboundMessages code.toBehaviorCode
      some (worked || routed > 0, c.reconcilePidMap)

/-- `graceful_shutdown`: the bridge first, then one partition after the other. -/
def gracefulShutdown (code : AgentCode T) (fuel : Nat) (c : SchedulerCluster T)
    (workers : List Bridge.WorkerStep) (order : Nat → PidOrder T) :
    Option (SchedulerCluster T) := do
  let c := if c.sharedBridgeShutdownHandle then
      { c with
        bridge := c.bridge.map (workers.foldl Bridge.workerStep)
        sharedBridgeShutdownHandle := false
        schedulers := c.schedulers.map fun s => { s with bridge := none } }
    else c
  let c ← (List.range c.schedulers.length).foldlM (fun c partition =>
    (c.callOn code fuel partition (.gracefulShutdown [] (order partition))).map Prod.snd) c
  some { c with pidOwner := ∅ }

end SchedulerCluster

/-- The steps of a cluster's run.  A partition can also be called by itself, except
that it keeps to the shared bridge. -/
inductive ClusterOp (T : AgentTypes) where
  | attachSharedBridge (bridge : Bridge)
  | spawn (behavior : T.Behavior) (args : Json)
  | spawnOn (partition : Nat) (behavior : T.Behavior) (args : Json)
  | enqueue (pid : AgentPid)
  | send (dest : AgentPid) (msg : Message)
  | tick (now : Nat → Nat) (order : Nat → PidOrder T)
  | gracefulShutdown (workers : List Bridge.WorkerStep) (order : Nat → PidOrder T)
  | call (partition : Nat) (call : Call T)
  | worker (step : Bridge.WorkerStep)
  | countersAdvance (pids refs : Nat)

namespace SchedulerCluster

variable {T : AgentTypes}

def step (code : AgentCode T) (fuel : Nat) (c : SchedulerCluster T) :
    ClusterOp T → Option (SchedulerCluster T)
  | .attachSharedBridge bridge => some (c.attachSharedBridge bridge)
  | .spawn behavior args => some (c.spawn code.toBehaviorCode behavior args).2
  | .spawnOn partition behavior args =>
      some (c.spawnOn code.toBehaviorCode partition behavior args).2
  | .enqueue pid => some (c.enqueue pid).2
  | .send dest msg => some (c.send code.toBehaviorCode dest msg .caller).2
  | .tick now order => (c.tick code fuel now order).map Prod.snd
  | .gracefulShutdown workers order => c.gracefulShutdown code fuel workers order
  | .call _ (.setBridge _) => none
  | .call partition call => (c.callOn code fuel partition call).map Prod.snd
  | .worker step => some { c with bridge := c.bridge.map fun bridge => bridge.workerStep step }
  | .countersAdvance pids refs =>
      some { c with nextPid := c.nextPid + pids, nextMonitorRef := c.nextMonitorRef + refs }

def run (code : AgentCode T) (c : SchedulerCluster T) (ops : List (Nat × ClusterOp T)) :
    Option (SchedulerCluster T) :=
  ops.foldlM (fun c op => c.step code op.1 op.2) c

/-! ## What a run keeps -/

/-- What a partition has done on its own: all that its every step keeps is kept. -/
def Evolves (code : AgentCode T) (s s' : AgentScheduler T) : Prop :=
  ∀ {Inv : AgentScheduler T → Prop}, AgentScheduler.StableRun code Inv → Inv s → Inv s'

/-- A property of clusters that every step keeps. -/
structure ClusterStable (code : AgentCode T) (Inv : SchedulerCluster T → Prop) : Prop where
  part : ∀ {c i s s'}, c.schedulers[i]? = some s → Evolves code (c.load s) s' → Inv c →
    Inv (c.store i s')
  route : ∀ {c}, Inv c → Inv (c.routeOutboundMessages code.toBehaviorCode).2
  bridges : ∀ {c} (partBridge bridge : Option Bridge) (sharedBridgeShutdownHandle : Bool),
    Inv c → Inv { c with
      schedulers := c.schedulers.map fun s => { s with bridge := partBridge }
      bridge, sharedBridgeShutdownHandle }
  aside : ∀ {c} (pidOwner : AList fun _ : AgentPid => Nat)
    (nextSpawnPartition nextTickPartition : Nat) (bridge : Option Bridge) (pids refs : Nat),
    Inv c → Inv { c with
      pidOwner, nextSpawnPartition, nextTickPartition, bridge
      nextPid := c.nextPid + pids, nextMonitorRef := c.nextMonitorRef + refs }

namespace ClusterStable

variable {code : AgentCode T} {Inv : SchedulerCluster T → Prop} {c c' : SchedulerCluster T}

theorem owner (h : ClusterStable code Inv) (hc : Inv c)
    (pidOwner : AList fun _ : AgentPid => Nat) : Inv { c with pidOwner } :=
  h.aside pidOwner _ _ _ 0 0 hc

theorem reconcilePidMap (h : ClusterStable code Inv) (hc : Inv c) : Inv c.reconcilePidMap :=
  h.owner hc _

theorem spawnOn (h : ClusterStable code Inv) (hc : Inv c) (partition : Nat)
    (behavior : T.Behavior) (args : Json) :
    Inv (c.spawnOn code.toBehaviorCode partition behavior args).2 := by
  unfold SchedulerCluster.spawnOn
  cases hs : c.schedulers[partition]? with
  | none => exact hc
  | some s =>
      have hspawn : Evolves code (c.load s)
          ((c.load s).spawn code.toBehaviorCode behavior args).2 :=
        fun hstable hInv => hstable.move (.spawn (c.load s) behavior args) hInv
      dsimp only
      generalize (c.load s).spawn code.toBehaviorCode behavior args = spawned at hspawn
      obtain ⟨answer, spawned⟩ := spawned
      cases answer with
      | error reason => exact h.part hs hspawn hc
      | ok pid => exact h.owner (h.part hs hspawn hc) _

theorem enqueue (h : ClusterStable code Inv) (hc : Inv c) (pid : AgentPid) :
    Inv (c.enqueue pid).2 := by
  have hreconciled := h.reconcilePidMap hc
  unfold SchedulerCluster.enqueue
  dsimp only
  split
  · exact hreconciled
  · split
    · exact hreconciled
    · rename_i hs
      exact h.part hs (fun hstable hInv => hstable.move.calm.enqueue hInv pid) hreconciled

theorem send (h : ClusterStable code Inv) (hc : Inv c) (dest : AgentPid) (msg : Message)
    {origin : Origin} (horigin : origin.ofPartition) :
    Inv (c.send code.toBehaviorCode dest msg origin).2 := by
  have hreconciled := h.reconcilePidMap hc
  unfold SchedulerCluster.send
  dsimp only
  split
  · exact hreconciled
  · split
    · exact hreconciled
    · rename_i hs
      exact h.part hs (fun hstable hInv => hstable.move (.send _ dest msg origin horigin) hInv)
        hreconciled

theorem callOn (h : ClusterStable code Inv) (hc : Inv c) {fuel partition : Nat}
    {call : Call T} {reply : Reply}
    (hcall : c.callOn code fuel partition call = some (reply, c')) : Inv c' := by
  unfold SchedulerCluster.callOn at hcall
  split at hcall
  · contradiction
  · rename_i s hs
    simp only [Option.map_eq_some_iff, Prod.mk.injEq] at hcall
    obtain ⟨⟨reply', final⟩, hperform, _, rfl⟩ := hcall
    refine h.part hs (fun hstable hInv => ?_) hc
    exact hstable.move.perform hstable.terminateProcess
      (fun handler _ => hstable.addExitHandler handler) hperform hInv

theorem tickAll (h : ClusterStable code Inv) {fuel : Nat} {now : Nat → Nat}
    {order : Nat → PidOrder T} {offsets : List Nat} {worked : Bool} (hc : Inv c)
    (htick : c.tickAll code fuel now order offsets = some (worked, c')) : Inv c' := by
  induction offsets generalizing c worked with
  | nil =>
      simp only [SchedulerCluster.tickAll, Option.some.injEq, Prod.mk.injEq] at htick
      exact htick.2 ▸ hc
  | cons offset rest ih =>
      unfold SchedulerCluster.tickAll at htick
      dsimp only at htick
      split at htick
      · contradiction
      · rename_i reply next hcall
        simp only [Option.map_eq_some_iff, Prod.mk.injEq] at htick
        obtain ⟨⟨later, final⟩, hrest, _, rfl⟩ := htick
        exact ih (h.callOn hc hcall) hrest

/-- A round ends with a reconciliation. -/
theorem tick_reconciled (h : ClusterStable code Inv) {fuel : Nat} {now : Nat → Nat}
    {order : Nat → PidOrder T} {worked : Bool} (hc : Inv c)
    (htick : c.tick code fuel now order = some (worked, c')) :
    ∃ routed, Inv routed ∧ c' = routed.reconcilePidMap := by
  unfold SchedulerCluster.tick at htick
  split at htick
  · contradiction
  · rename_i any ticked hall
    have hticked := h.tickAll hc hall
    simp only [Option.some.injEq, Prod.mk.injEq] at htick
    obtain ⟨_, rfl⟩ := htick
    have hturned : Inv { ticked with
        nextTickPartition :=
          (ticked.nextTickPartition + 1) % ticked.schedulers.length } :=
      h.aside _ _ _ _ 0 0 hticked
    exact ⟨_, h.route hturned, rfl⟩

theorem tick (h : ClusterStable code Inv) {fuel : Nat} {now : Nat → Nat}
    {order : Nat → PidOrder T} {worked : Bool} (hc : Inv c)
    (htick : c.tick code fuel now order = some (worked, c')) : Inv c' := by
  obtain ⟨routed, hrouted, rfl⟩ := h.tick_reconciled hc htick
  exact h.reconcilePidMap hrouted

theorem gracefulShutdown (h : ClusterStable code Inv) {fuel : Nat}
    {workers : List Bridge.WorkerStep} {order : Nat → PidOrder T} (hc : Inv c)
    (hshutdown : c.gracefulShutdown code fuel workers order = some c') : Inv c' := by
  simp only [SchedulerCluster.gracefulShutdown, Option.bind_eq_bind,
    Option.bind_eq_some_iff, Option.some.injEq] at hshutdown
  obtain ⟨ended, hrun, rfl⟩ := hshutdown
  have hended : Inv ended := by
    apply GuardedRun.foldlM_keeps _ _ hrun
    · split
      · exact h.bridges none _ false hc
      · exact hc
    · intro c partition c' _ hmapped hc
      obtain ⟨⟨reply, next⟩, hcall, rfl⟩ := Option.map_eq_some_iff.mp hmapped
      exact h.callOn hc hcall
  exact h.owner hended ∅

theorem step (h : ClusterStable code Inv) {fuel : Nat} {op : ClusterOp T} (hc : Inv c)
    (hstep : c.step code fuel op = some c') : Inv c' := by
  cases op with
  | attachSharedBridge bridge =>
      cases hstep
      exact h.bridges (some bridge) (some bridge) true hc
  | spawn behavior args =>
      cases hstep
      exact h.spawnOn (h.aside c.pidOwner
        ((c.nextSpawnPartition + 1) % c.schedulers.length) _ _ 0 0 hc) _ behavior args
  | spawnOn partition behavior args =>
      cases hstep
      exact h.spawnOn hc partition behavior args
  | enqueue pid =>
      cases hstep
      exact h.enqueue hc pid
  | send dest msg =>
      cases hstep
      exact h.send hc dest msg rfl
  | tick now order =>
      obtain ⟨⟨worked, final⟩, htick, rfl⟩ := Option.map_eq_some_iff.mp hstep
      exact h.tick hc htick
  | gracefulShutdown workers order => exact h.gracefulShutdown hc hstep
  | call partition call =>
      cases call with
      | setBridge bridge => contradiction
      | _ =>
          obtain ⟨⟨reply, final⟩, hcall, rfl⟩ := Option.map_eq_some_iff.mp hstep
          exact h.callOn hc hcall
  | worker workerStep =>
      cases hstep
      exact h.aside c.pidOwner _ _ _ 0 0 hc
  | countersAdvance pids refs =>
      cases hstep
      exact h.aside c.pidOwner _ _ _ pids refs hc

theorem run (h : ClusterStable code Inv) {ops : List (Nat × ClusterOp T)} (hc : Inv c)
    (hrun : c.run code ops = some c') : Inv c' :=
  GuardedRun.foldlM_keeps ops (fun _ _ _ _ hstep hc => h.step hc hstep) hrun hc

end ClusterStable

/-- What the partitions' own queues and the sends out of them keep is kept by routing. -/
theorem routeOutboundMessages_keeps {code : BehaviorCode T}
    (Inv : SchedulerCluster T → Prop)
    (hsend : ∀ {c} dest msg origin, origin.ofMonitor = false → Inv c →
      Inv (c.send code dest msg origin).2)
    {c : SchedulerCluster T} (hdrained : Inv c.drainAll.2) :
    Inv (c.routeOutboundMessages code).2 := by
  have horigins : ∀ origin ∈ c.outboundOrigins, origin.ofMonitor = false := by
    intro origin horigin
    obtain ⟨entry, _, hitem⟩ := List.mem_flatMap.mp horigin
    obtain ⟨item, _, rfl⟩ := List.mem_map.mp hitem
    cases item.2 with
    | _ => rfl
  unfold SchedulerCluster.routeOutboundMessages
  generalize c.outboundOrigins = origins at horigins
  generalize c.drainAll = drained at hdrained
  obtain ⟨outbound, drained⟩ := drained
  dsimp only at hdrained ⊢
  generalize outbound.zipIdx = entries
  generalize 0 = routed
  induction entries generalizing drained routed with
  | nil => exact hdrained
  | cons entry rest ih =>
      rw [List.foldl_cons]
      have horigin : (origins[entry.2]?.getD .scheduler).ofMonitor = false := by
        cases hfound : origins[entry.2]? with
        | none => rfl
        | some origin => exact horigins origin (List.mem_of_getElem? hfound)
      have hsent := hsend entry.1.1 entry.1.2 _ horigin hdrained
      dsimp only
      generalize drained.send code entry.1.1 entry.1.2 _ = sent at hsent
      obtain ⟨answer, sent⟩ := sent
      cases answer with
      | ok => exact ih sent hsent (routed + 1)
      | error error => exact ih sent hsent routed

/-! ## What holds of the partitions -/

/-- A property of each partition, by its number. -/
def Holds (P : Nat → AgentScheduler T → Prop) (c : SchedulerCluster T) : Prop :=
  ∀ i s, c.schedulers[i]? = some s → P i s

/-- A property of partitions that all they do keeps, and that says nothing of what they
share. -/
structure StableParts (code : AgentCode T) (P : Nat → AgentScheduler T → Prop) : Prop where
  run : ∀ i, AgentScheduler.StableRun code (P i)
  shared : ∀ {i s} bridge nextPid nextMonitorRef, P i s →
    P i { s with bridge, nextPid, nextMonitorRef }
  routed : ∀ {i s} dest msg origin, origin.ofMonitor = false → P i s →
    P i (s.send code.toBehaviorCode dest msg origin).2

namespace StableParts

variable {code : AgentCode T} {P : Nat → AgentScheduler T → Prop}
  {c c' : SchedulerCluster T}

theorem load (h : StableParts code P) {i : Nat} {s : AgentScheduler T} (hs : P i s) :
    P i (c.load s) :=
  h.shared _ _ _ hs

theorem store (hc : c.Holds P) {partition : Nat} {s : AgentScheduler T}
    (hs : P partition s) : (c.store partition s).Holds P := by
  intro i s' hi
  simp only [SchedulerCluster.store, List.getElem?_set] at hi
  split at hi
  · split at hi
    · cases hi
      rename_i heq _
      exact heq ▸ hs
    · contradiction
  · exact hc i s' hi

theorem map (hc : c.Holds P) (f : AgentScheduler T → AgentScheduler T)
    (hf : ∀ i s, P i s → P i (f s)) (hc' : c'.schedulers = c.schedulers.map f) :
    c'.Holds P := by
  intro i s hi
  rw [hc', List.getElem?_map] at hi
  obtain ⟨old, hold, rfl⟩ := Option.map_eq_some_iff.mp hi
  exact hf i old (hc i old hold)

theorem send (h : StableParts code P) (hc : c.Holds P) (dest : AgentPid) (msg : Message)
    (origin : Origin) (horigin : origin.ofMonitor = false) :
    (c.send code.toBehaviorCode dest msg origin).2.Holds P := by
  have hreconciled : c.reconcilePidMap.Holds P := hc
  unfold SchedulerCluster.send
  dsimp only
  split
  · exact hreconciled
  · split
    · exact hreconciled
    · rename_i partition _ _ s hs
      apply store hreconciled
      exact h.routed dest msg origin horigin (h.load (hreconciled partition s hs))

/-- Whatever holds of each partition by itself is kept by the cluster. -/
theorem cluster (h : StableParts code P) :
    ClusterStable code (SchedulerCluster.Holds P) where
  part {c i s s'} hs hevolves hc := store hc (hevolves (h.run i) (h.load (hc i s hs)))
  route {c} hc := by
    have hdrained : c.drainAll.2.Holds P :=
      map hc _ (fun i s hs => (h.run i).move (.drain s) hs) rfl
    exact routeOutboundMessages_keeps (SchedulerCluster.Holds P)
      (fun dest msg origin horigin hc => h.send hc dest msg origin horigin) hdrained
  bridges partBridge _ _ hc :=
    map hc _ (fun i s hs => (h.run i).move.calm.bridge hs partBridge) rfl
  aside _ _ _ _ _ _ hc := hc

end StableParts

end SchedulerCluster

end Zeptobeam
