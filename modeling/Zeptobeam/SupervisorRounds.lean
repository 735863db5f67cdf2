/-
What a supervisor does with an exit, said once: nothing, it drops the child, it shuts
down, or it makes a round in which some processes are ended and some children started.
-/
import Zeptobeam.Supervisor

namespace Zeptobeam

namespace Supervisor

variable {B S H : Type}

/-! ## Starting children -/

/-- The scheduler after one child was started, and the child. -/
def spawnOf (agents : BehaviorCode (Supervised B S H))
    (s : AgentScheduler (Supervised B S H)) (spec : ChildSpec B) :
    Option (RunningChild B) × AgentScheduler (Supervised B S H) :=
  match s.spawn agents spec.behavior spec.args with
  | (.error _, s) => (none, s)
  | (.ok pid, s) =>
      (some ⟨spec.id, pid, spec⟩,
        (s.modify pid ({ · with priority := spec.priority })).enqueue pid)

/-- What one start does: the child has the next pid, and nobody else is touched. -/
structure ChildStarted (s : AgentScheduler (Supervised B S H)) (spec : ChildSpec B)
    (running : RunningChild B) (s' : AgentScheduler (Supervised B S H)) : Prop where
  running : running = ⟨spec.id, s.nextPid, spec⟩
  lookup : ∃ state, ∀ q, s'.lookup q =
    if q = s.nextPid then
      some { AgentProcess.started s.nextPid spec.behavior state
        AgentProcess.defaultMailboxCapacity with priority := spec.priority }
    else s.lookup q
  nextPid : s'.nextPid = s.nextPid + 1
  exitHandlers : s'.exitHandlers = s.exitHandlers
  handlersOut : s'.handlersOut = s.handlersOut

theorem lookup_enqueue (s : AgentScheduler (Supervised B S H)) (pid q : AgentPid) :
    (s.enqueue pid).lookup q = s.lookup q := by
  unfold AgentScheduler.enqueue
  split
  · rfl
  · split
    · rfl
    · rfl
    · rfl

theorem spawnOf_cases (agents : BehaviorCode (Supervised B S H))
    (s : AgentScheduler (Supervised B S H)) (spec : ChildSpec B) :
    (∃ reason, agents.init spec.behavior spec.args = .error reason ∧
      spawnOf agents s spec = (none, { s with nextPid := s.nextPid + 1 })) ∨
    ∃ running s', (∃ state, agents.init spec.behavior spec.args = .ok state) ∧
      spawnOf agents s spec = (some running, s') ∧ ChildStarted s spec running s' := by
  cases hinit : agents.init spec.behavior spec.args with
  | error reason =>
      left
      refine ⟨reason, rfl, ?_⟩
      simp [spawnOf, AgentScheduler.spawn, AgentRegistry.spawn, AgentProcess.new,
        AgentProcess.newWithMailboxCapacity, hinit, bind, Except.bind]
  | ok state =>
      right
      rcases AgentScheduler.spawn_cases agents s spec.behavior spec.args with
        ⟨reason, hspawn⟩ | ⟨registry, state, hspawn, hlookup⟩
      · simp [AgentScheduler.spawn, AgentRegistry.spawn, AgentProcess.new,
          AgentProcess.newWithMailboxCapacity, hinit, bind, Except.bind] at hspawn
      · rw [spawnOf, hspawn]
        refine ⟨_, _, ⟨_, rfl⟩, rfl, rfl, ⟨state, fun q => ?_⟩, ?_, ?_, ?_⟩
        · rw [lookup_enqueue, AgentScheduler.lookup_modify]
          have hnew := hlookup q
          change AgentScheduler.lookup ({ s with nextPid := s.nextPid + 1, registry } :
            AgentScheduler (Supervised B S H)) q = _ at hnew
          rw [hnew]
          by_cases hq : q = s.nextPid
          · rw [if_pos hq, if_pos hq, if_pos hq]
            rfl
          · rw [if_neg hq, if_neg hq, if_neg hq]
        · exact (AgentScheduler.messagesOnly_enqueue _ _).nextPid
        · exact (AgentScheduler.messagesOnly_enqueue _ _).exitHandlers
        · exact (AgentScheduler.messagesOnly_enqueue _ _).handlersOut

/-- The former children that could be started again, each with the new one. -/
def respawnAll (agents : BehaviorCode (Supervised B S H)) :
    List (RunningChild B) → AgentScheduler (Supervised B S H) →
      List (RunningChild B × RunningChild B) × AgentScheduler (Supervised B S H)
  | [], s => ([], s)
  | child :: rest, s =>
      match spawnOf agents s child.spec with
      | (none, s) => respawnAll agents rest s
      | (some running, s) =>
          ((child, running) :: (respawnAll agents rest s).1, (respawnAll agents rest s).2)

theorem mem_respawnAll {agents : BehaviorCode (Supervised B S H)}
    {children : List (RunningChild B)} {s : AgentScheduler (Supervised B S H)}
    {pair : RunningChild B × RunningChild B} (h : pair ∈ (respawnAll agents children s).1) :
    pair.1 ∈ children := by
  induction children generalizing s with
  | nil => exact absurd h List.not_mem_nil
  | cons child rest ih =>
      unfold respawnAll at h
      split at h
      · exact List.mem_cons_of_mem child (ih h)
      · rcases List.mem_cons.mp h with rfl | h
        · exact List.mem_cons_self
        · exact List.mem_cons_of_mem child (ih h)

/-- Children are started one after the other; some attempts may fail. -/
inductive Starts (agents : BehaviorCode (Supervised B S H)) :
    AgentScheduler (Supervised B S H) → List (RunningChild B) →
      AgentScheduler (Supervised B S H) → Prop where
  | nil (s : AgentScheduler (Supervised B S H)) : Starts agents s [] s
  | failed {s s' : AgentScheduler (Supervised B S H)} {children : List (RunningChild B)}
      (h : Starts agents { s with nextPid := s.nextPid + 1 } children s') :
      Starts agents s children s'
  | started {s next s' : AgentScheduler (Supervised B S H)} {spec : ChildSpec B}
      {running : RunningChild B} {children : List (RunningChild B)}
      (hinit : ∃ state, agents.init spec.behavior spec.args = .ok state)
      (hstarted : ChildStarted s spec running next) (h : Starts agents next children s') :
      Starts agents s (running :: children) s'

theorem starts_respawnAll (agents : BehaviorCode (Supervised B S H))
    (children : List (RunningChild B)) (s : AgentScheduler (Supervised B S H)) :
    Starts agents s ((respawnAll agents children s).1.map Prod.snd)
      (respawnAll agents children s).2 := by
  induction children generalizing s with
  | nil => exact .nil s
  | cons child rest ih =>
      rcases spawnOf_cases agents s child.spec with ⟨reason, _, hspawn⟩ |
        ⟨running, s', hinit, hspawn, hstarted⟩
      · simp only [respawnAll, hspawn]
        exact .failed (ih _)
      · simp only [respawnAll, hspawn]
        exact .started hinit hstarted (ih s')

/-- The loop of `start`, whether a child fails or not. -/
theorem starts_startChildren (agents : BehaviorCode (Supervised B S H))
    (specs : List (ChildSpec B)) (s : AgentScheduler (Supervised B S H)) :
    ∃ children, Starts agents s children (startChildren agents specs s).2 ∧
      ∀ result, (startChildren agents specs s).1 = .ok result → result = children := by
  induction specs generalizing s with
  | nil => exact ⟨[], .nil s, fun result hresult => (Except.ok.inj hresult).symm⟩
  | cons spec rest ih =>
      unfold startChildren
      rcases spawnOf_cases agents s spec with ⟨reason, _, hspawn⟩ |
        ⟨running, next, hinit, hspawn, hstarted⟩
      · unfold spawnOf at hspawn
        generalize s.spawn agents spec.behavior spec.args = answer at hspawn ⊢
        obtain ⟨result, spawned⟩ := answer
        cases result with
        | ok pid => cases hspawn
        | error failure =>
            obtain ⟨_, rfl⟩ := Prod.mk.inj hspawn
            exact ⟨[], .failed (.nil _), fun result hresult => by cases hresult⟩
      · unfold spawnOf at hspawn
        generalize s.spawn agents spec.behavior spec.args = answer at hspawn ⊢
        obtain ⟨result, spawned⟩ := answer
        cases result with
        | error failure => cases hspawn
        | ok pid =>
            obtain ⟨hrunning, rfl⟩ := Prod.mk.inj hspawn
            cases hrunning
            dsimp only
            obtain ⟨children, hstarts, hok⟩ := ih
              ((spawned.modify pid ({ · with priority := spec.priority })).enqueue pid)
            generalize startChildren agents rest
              ((spawned.modify pid ({ · with priority := spec.priority })).enqueue pid) =
              answer at hstarts hok ⊢
            obtain ⟨result, last⟩ := answer
            refine ⟨⟨spec.id, pid, spec⟩ :: children, ?_, ?_⟩
            · cases result with
              | error reason => exact .started hinit hstarted hstarts
              | ok others => exact .started hinit hstarted hstarts
            · intro answer hanswer
              cases result with
              | error reason => contradiction
              | ok others =>
                  rw [← Except.ok.inj hanswer, hok others rfl]

/-- A supervisor that was just started. -/
theorem of_start {agents : BehaviorCode (Supervised B S H)}
    {s s' : AgentScheduler (Supervised B S H)} {spec : SupervisorSpec B} {clock : Nat → Nat}
    {sup : Supervisor B} (h : start agents s spec clock = (.ok sup, s')) :
    ∃ children, Starts agents s children s' ∧
      sup = ⟨spec.strategy, spec.maxRestarts, spec.maxSeconds, children, [], false, ∅, clock,
        []⟩ := by
  obtain ⟨children, hstarts, hok⟩ := starts_startChildren agents spec.children s
  unfold start at h
  split at h
  · cases h
  · rename_i result started hchildren
    rw [Prod.mk.injEq, Except.ok.injEq] at h
    obtain ⟨rfl, rfl⟩ := h
    rw [hchildren] at hstarts hok
    obtain rfl := hok result rfl
    exact ⟨result, hstarts, rfl⟩

/-- A supervisor is installed, or a child failed and those before it stay. -/
theorem startLinked_cases (agents : BehaviorCode (Supervised B S H))
    (s : AgentScheduler (Supervised B S H)) (spec : SupervisorSpec B) (clock : Nat → Nat) :
    (∃ children, Starts agents s children (startLinked agents s spec clock)) ∨
    ∃ sup s', start agents s spec clock = (.ok sup, s') ∧
      startLinked agents s spec clock = s'.addExitHandler sup := by
  obtain ⟨children, hstarts, _⟩ := starts_startChildren agents spec.children s
  unfold startLinked
  cases hstart : start agents s spec clock with
  | mk answer started =>
      cases answer with
      | ok sup => exact .inr ⟨sup, started, rfl, rfl⟩
      | error reason =>
          left
          refine ⟨children, ?_⟩
          unfold start at hstart
          split at hstart
          · rename_i failure failed hfailed
            rw [Prod.mk.injEq] at hstart
            rw [hfailed, hstart.2] at hstarts
            exact hstarts
          · cases hstart

/-- What starting children does: the new ones are alive, each under a pid of its own from
the counter, and nobody else is touched. -/
structure StartsSpec (agents : BehaviorCode (Supervised B S H))
    (s : AgentScheduler (Supervised B S H)) (children : List (RunningChild B))
    (s' : AgentScheduler (Supervised B S H)) : Prop where
  nextPid : s.nextPid ≤ s'.nextPid
  fresh : ∀ child ∈ children, s.nextPid ≤ child.pid ∧ child.pid < s'.nextPid
  nodup : (children.map RunningChild.pid).Nodup
  named : ∀ child ∈ children, child.id = child.spec.id
  init : ∀ child ∈ children, ∃ state,
    agents.init child.spec.behavior child.spec.args = .ok state
  live : ∀ child ∈ children, ∃ state,
    s'.lookup child.pid = some { AgentProcess.started child.pid child.spec.behavior state
      AgentProcess.defaultMailboxCapacity with priority := child.spec.priority }
  others : ∀ q, (∀ child ∈ children, child.pid ≠ q) → s'.lookup q = s.lookup q
  exitHandlers : s'.exitHandlers = s.exitHandlers
  handlersOut : s'.handlersOut = s.handlersOut

/-- Who had a pid before is not touched. -/
theorem StartsSpec.lookup_of_lt {agents : BehaviorCode (Supervised B S H)}
    {s s' : AgentScheduler (Supervised B S H)} {children : List (RunningChild B)}
    (h : StartsSpec agents s children s') {q : AgentPid} (hq : q < s.nextPid) :
    s'.lookup q = s.lookup q := by
  apply h.others
  intro child hchild heq
  have hfresh := (h.fresh child hchild).1
  rw [heq] at hfresh
  exact absurd hq (Nat.not_lt.mpr hfresh)

theorem Starts.facts {agents : BehaviorCode (Supervised B S H)}
    {s s' : AgentScheduler (Supervised B S H)} {children : List (RunningChild B)}
    (h : Starts agents s children s') : StartsSpec agents s children s' := by
  induction h with
  | nil s =>
      exact ⟨Nat.le_refl _, by simp, .nil, by simp, by simp, by simp, fun _ _ => rfl, rfl, rfl⟩
  | @failed s s' children h ih =>
      have hnext : s.nextPid ≤ s.nextPid + 1 := Nat.le_succ _
      exact ⟨Nat.le_trans hnext ih.nextPid,
        fun child hchild => (ih.fresh child hchild).imp_left (Nat.le_trans hnext),
        ih.nodup, ih.named, ih.init, ih.live, ih.others, ih.exitHandlers, ih.handlersOut⟩
  | @started s next s' spec running children hinit hstarted h ih =>
      have hpid : running.pid = s.nextPid := congrArg RunningChild.pid hstarted.running
      have hnext : s.nextPid < next.nextPid := by
        rw [hstarted.nextPid]
        exact Nat.lt_succ_self _
      have hnew : ∀ child ∈ children, child.pid ≠ running.pid := by
        intro child hchild heq
        have hfresh := (ih.fresh child hchild).1
        rw [heq, hpid] at hfresh
        exact absurd hfresh (Nat.not_le.mpr hnext)
      obtain ⟨state, hlookup⟩ := hstarted.lookup
      refine ⟨Nat.le_trans (Nat.le_of_lt hnext) ih.nextPid, ?_, ?_, ?_, ?_, ?_, ?_,
        ih.exitHandlers.trans hstarted.exitHandlers,
        ih.handlersOut.trans hstarted.handlersOut⟩
      · intro child hchild
        rcases List.mem_cons.mp hchild with rfl | hchild
        · rw [hpid]
          exact ⟨Nat.le_refl _, Nat.lt_of_lt_of_le hnext ih.nextPid⟩
        · exact (ih.fresh child hchild).imp_left (Nat.le_trans (Nat.le_of_lt hnext))
      · rw [List.map_cons, List.nodup_cons]
        refine ⟨?_, ih.nodup⟩
        intro hmem
        obtain ⟨child, hchild, heq⟩ := List.mem_map.mp hmem
        exact hnew child hchild heq
      · intro child hchild
        rcases List.mem_cons.mp hchild with rfl | hchild
        · rw [hstarted.running]
        · exact ih.named child hchild
      · intro child hchild
        rcases List.mem_cons.mp hchild with rfl | hchild
        · rw [hstarted.running]
          exact hinit
        · exact ih.init child hchild
      · intro child hchild
        rcases List.mem_cons.mp hchild with rfl | hchild
        · refine ⟨state, ?_⟩
          rw [ih.others child.pid hnew, hpid, hlookup, if_pos rfl, hstarted.running]
        · exact ih.live child hchild
      · intro q hq
        rw [ih.others q fun child hchild => hq child (List.mem_cons_of_mem running hchild),
          hlookup, if_neg]
        rw [← hpid]
        exact (hq running List.mem_cons_self).symm

variable {agents : BehaviorCode (Supervised B S H)}
  {terminate : AgentScheduler (Supervised B S H) → AgentPid → Reason →
    Option (AgentScheduler (Supervised B S H))}

theorem runProg_spawnChild (spec : ChildSpec B)
    (next : Option (RunningChild B) → HandlerProg (Supervised B S H))
    (s : AgentScheduler (Supervised B S H)) :
    AgentScheduler.runProg (AgentScheduler.perform agents terminate)
        (spawnChild spec next) s =
      AgentScheduler.runProg (AgentScheduler.perform agents terminate)
        (next (spawnOf agents s spec).1) (spawnOf agents s spec).2 := by
  unfold spawnChild spawnOf
  simp only [AgentScheduler.runProg, AgentScheduler.perform]
  generalize s.spawn agents spec.behavior spec.args = answer
  obtain ⟨answer, s⟩ := answer
  cases answer with
  | error reason => rfl
  | ok pid => rfl

theorem runProg_terminateSiblings (deadPid : AgentPid) (children : List (RunningChild B))
    (next : HandlerProg (Supervised B S H)) (s : AgentScheduler (Supervised B S H)) :
    AgentScheduler.runProg (AgentScheduler.perform agents terminate)
        (terminateSiblings deadPid children next) s =
      (((children.map RunningChild.pid).filter (· ≠ deadPid)).foldlM
        (fun s pid => terminate s pid .shutdown) s).bind
        (AgentScheduler.runProg (AgentScheduler.perform agents terminate) next) := by
  induction children generalizing s with
  | nil => rfl
  | cons child rest ih =>
      unfold terminateSiblings
      rw [List.map_cons, List.filter_cons]
      by_cases hdead : child.pid = deadPid
      · rw [if_neg (by simpa using hdead), if_neg (by simpa using hdead)]
        exact ih s
      · rw [if_pos hdead, if_pos (by simpa using hdead), List.foldlM_cons]
        simp only [AgentScheduler.runProg, AgentScheduler.perform]
        cases terminate s child.pid .shutdown with
        | none => rfl
        | some s => exact ih s

/-- What a round leaves of the supervisor besides its children. -/
structure SameBudget (sup sup' : Supervisor B) : Prop where
  strategy : sup'.strategy = sup.strategy
  maxRestarts : sup'.maxRestarts = sup.maxRestarts
  maxSeconds : sup'.maxSeconds = sup.maxSeconds
  restartTimestamps : sup'.restartTimestamps = sup.restartTimestamps
  shutdown : sup'.shutdown = sup.shutdown
  clock : sup'.clock = sup.clock

theorem SameBudget.refl (sup : Supervisor B) : SameBudget sup sup :=
  ⟨rfl, rfl, rfl, rfl, rfl, rfl⟩

/-- The events of children that were started again. -/
def restartEvents (pairs : List (RunningChild B × RunningChild B)) :
    List (SupervisorEvent B) :=
  pairs.map fun pair => .restarted pair.1 pair.2.pid

theorem runProg_respawn (agents : BehaviorCode (Supervised B S H))
    (terminate : AgentScheduler (Supervised B S H) → AgentPid → Reason →
      Option (AgentScheduler (Supervised B S H)))
    (sup : Supervisor B) (children : List (RunningChild B))
    (s : AgentScheduler (Supervised B S H)) :
    ∃ sup', AgentScheduler.runProg (AgentScheduler.perform agents terminate)
        (respawn sup children) s = some (sup', (respawnAll agents children s).2) ∧
      SameBudget sup sup' ∧
      sup'.children = sup.children ++ (respawnAll agents children s).1.map Prod.snd ∧
      sup'.log = sup.log ++ restartEvents (respawnAll agents children s).1 := by
  induction children generalizing sup s with
  | nil =>
      refine ⟨sup, rfl, .refl sup, ?_, ?_⟩
      · simp [respawnAll]
      · simp [respawnAll, restartEvents]
  | cons child rest ih =>
      unfold respawn respawnAll
      rw [runProg_spawnChild]
      generalize spawnOf agents s child.spec = started
      obtain ⟨running, s⟩ := started
      cases running with
      | none =>
          obtain ⟨sup', hrun, hsame, hchildren, hlog⟩ :=
            ih (sup.incrementRestartCount child.spec.id) s
          have hbudget : SameBudget sup sup' := ⟨hsame.strategy, hsame.maxRestarts,
            hsame.maxSeconds, hsame.restartTimestamps, hsame.shutdown, hsame.clock⟩
          exact ⟨sup', hrun, hbudget, hchildren, hlog⟩
      | some running =>
          obtain ⟨sup', hrun, hsame, hchildren, hlog⟩ := ih
            ({ sup.incrementRestartCount child.spec.id with
              children := sup.children ++ [running] }.record (.restarted child running.pid)) s
          have hbudget : SameBudget sup sup' := ⟨hsame.strategy, hsame.maxRestarts,
            hsame.maxSeconds, hsame.restartTimestamps, hsame.shutdown, hsame.clock⟩
          refine ⟨sup', hrun, hbudget, ?_, ?_⟩
          · rw [hchildren]
            exact List.append_assoc _ _ _
          · rw [hlog]
            exact List.append_assoc _ _ _

/-! ## What may come of an exit -/

/-- The children that a round starts again. -/
def restartees (sup : Supervisor B) (i : Nat) (dead : RunningChild B) :
    List (RunningChild B) :=
  match sup.strategy with
  | .oneForOne => [dead]
  | .oneForAll => sup.children
  | .restForOne => sup.children.drop i

theorem keptChildren_sublist (sup : Supervisor B) (i : Nat) :
    (sup.keptChildren i).Sublist sup.children := by
  unfold keptChildren
  split
  · exact List.eraseIdx_sublist _ _
  · exact List.nil_sublist _
  · exact List.take_sublist _ _

theorem mem_of_mem_restartees {sup : Supervisor B} {i : Nat} {child again : RunningChild B}
    (hfound : sup.children[i]? = some child) (h : again ∈ sup.restartees i child) :
    again ∈ sup.children := by
  unfold restartees at h
  split at h
  · rw [List.mem_singleton.mp h]
    exact List.mem_of_getElem? hfound
  · exact h
  · exact List.mem_of_mem_drop h

/-- The supervisor is at work, and this is the first child recorded under the pid. -/
structure Finds (sup : Supervisor B) (pid : AgentPid) (i : Nat) (child : RunningChild B) :
    Prop where
  working : sup.shutdown = false
  found : sup.children[i]? = some child
  pid : child.pid = pid

/-- The exit asks for a round of restarts. -/
structure Restarts (sup : Supervisor B) (pid : AgentPid) (reason : Reason) (i : Nat)
    (child : RunningChild B) : Prop extends Finds sup pid i child where
  should : child.spec.restart.shouldRestart reason

/-- The supervisor when its round is over. -/
structure RoundDone (sup : Supervisor B) (reason : Reason) (i : Nat) (child : RunningChild B)
    (relations : AgentPid → Option Relations)
    (pairs : List (RunningChild B × RunningChild B)) (sup' : Supervisor B) : Prop where
  budget : SameBudget sup.exceedsMaxRestarts.2 sup'
  children : sup'.children.Perm (sup.keptChildren i ++ pairs.map Prod.snd)
  log : sup'.log = sup.log ++ [.exited child reason, .round (sup.clock 0)
    (sup.siblings i child) relations] ++
      restartEvents pairs

/-- What the supervisor and the scheduler are after an exit was handled. -/
inductive Handled (agents : BehaviorCode (Supervised B S H))
    (terminate : AgentScheduler (Supervised B S H) → AgentPid → Reason →
      Option (AgentScheduler (Supervised B S H)))
    (sup : Supervisor B) (pid : AgentPid) (reason : Reason)
    (relations : AgentPid → Option Relations) (s : AgentScheduler (Supervised B S H)) :
    Supervisor B → AgentScheduler (Supervised B S H) → Prop where
  | idle (hidle : sup.shutdown = true ∨ ∀ child ∈ sup.children, child.pid ≠ pid) :
      Handled agents terminate sup pid reason relations s sup s
  | dropped {i : Nat} {child : RunningChild B} (hfinds : sup.Finds pid i child)
      (hshould : child.spec.restart.shouldRestart reason = false) :
      Handled agents terminate sup pid reason relations s
        { sup with
          children := sup.children.eraseIdx i
          log := sup.log ++ [.exited child reason] } s
  | exceeded {i : Nat} {child : RunningChild B} (hrestarts : sup.Restarts pid reason i child)
      (hexceeds : sup.exceedsMaxRestarts.1 = true) :
      Handled agents terminate sup pid reason relations s
        { sup.exceedsMaxRestarts.2 with
          shutdown := true
          log := sup.log ++ [.exited child reason, .shutDown (sup.clock 0)] } s
  | round {i : Nat} {child : RunningChild B} (hrestarts : sup.Restarts pid reason i child)
      (hwithin : sup.exceedsMaxRestarts.1 = false)
      {ended : AgentScheduler (Supervised B S H)} {sup' : Supervisor B}
      (hended : (sup.siblings i child).foldlM
        (fun s pid => terminate s pid .shutdown) s = some ended)
      (hdone : RoundDone sup reason i child relations
        (respawnAll agents (sup.restartees i child) ended).1 sup') :
      Handled agents terminate sup pid reason relations s sup'
        (respawnAll agents (sup.restartees i child) ended).2

/-- A round of restarts, whatever the strategy. -/
theorem runProg_restart (sup : Supervisor B) {i : Nat} {child : RunningChild B}
    (hfound : sup.children[i]? = some child) {sup' : Supervisor B}
    {s s' : AgentScheduler (Supervised B S H)}
    (hrun : AgentScheduler.runProg (AgentScheduler.perform agents terminate)
      (sup.restart i child) s = some (sup', s')) :
    ∃ ended, (sup.siblings i child).foldlM
        (fun s pid => terminate s pid .shutdown) s = some ended ∧
      s' = (respawnAll agents (sup.restartees i child) ended).2 ∧
      SameBudget sup sup' ∧
      sup'.children.Perm (sup.keptChildren i ++
        (respawnAll agents (sup.restartees i child) ended).1.map Prod.snd) ∧
      sup'.log = sup.log ++
        restartEvents (respawnAll agents (sup.restartees i child) ended).1 := by
  have hmany : ∀ {sup : Supervisor B} {ends starts : List (RunningChild B)},
      AgentScheduler.runProg (AgentScheduler.perform agents terminate)
        (terminateSiblings child.pid ends (respawn sup starts)) s = some (sup', s') →
      ∃ ended, ((ends.map RunningChild.pid).filter (· ≠ child.pid)).foldlM
          (fun s pid => terminate s pid .shutdown) s = some ended ∧
        s' = (respawnAll agents starts ended).2 ∧ SameBudget sup sup' ∧
        sup'.children = sup.children ++ (respawnAll agents starts ended).1.map Prod.snd ∧
        sup'.log = sup.log ++ restartEvents (respawnAll agents starts ended).1 := by
    intro sup ends starts hrun
    rw [runProg_terminateSiblings, Option.bind_eq_some_iff] at hrun
    obtain ⟨ended, hended, hrespawn⟩ := hrun
    obtain ⟨sup'', hstarted, hsame, hchildren, hlog⟩ :=
      runProg_respawn agents terminate sup starts ended
    rw [hstarted, Option.some.injEq, Prod.mk.injEq] at hrespawn
    obtain ⟨rfl, rfl⟩ := hrespawn
    exact ⟨ended, hended, rfl, hsame, hchildren, hlog⟩
  unfold restart at hrun
  unfold siblings restartees keptChildren
  cases hstrategy : sup.strategy with
  | oneForOne =>
      simp only [hstrategy] at hrun ⊢
      refine ⟨s, rfl, ?_⟩
      unfold restartOne at hrun
      rw [runProg_spawnChild] at hrun
      unfold respawnAll
      generalize spawnOf agents s child.spec = started at hrun
      obtain ⟨running, started⟩ := started
      cases running with
      | none =>
          simp only [AgentScheduler.runProg, Option.some.injEq, Prod.mk.injEq] at hrun
          obtain ⟨rfl, rfl⟩ := hrun
          refine ⟨rfl, ⟨rfl, rfl, rfl, rfl, rfl, rfl⟩, ?_, ?_⟩
          · simp [respawnAll, incrementRestartCount]
          · simp [respawnAll, incrementRestartCount, restartEvents]
      | some running =>
          simp only [AgentScheduler.runProg, Option.some.injEq, Prod.mk.injEq] at hrun
          obtain ⟨rfl, rfl⟩ := hrun
          refine ⟨rfl, ⟨rfl, rfl, rfl, rfl, rfl, rfl⟩, ?_, ?_⟩
          · have hlength : i ≤ (sup.children.eraseIdx i).length := by
              obtain ⟨hlt, _⟩ := List.getElem?_eq_some_iff.mp hfound
              rw [List.length_eraseIdx, if_pos hlt]
              exact Nat.le_sub_one_of_lt hlt
            exact (List.perm_insertIdx running _ hlength).trans (List.perm_append_singleton _ _).symm
          · simp [respawnAll, incrementRestartCount, restartEvents, record]
  | oneForAll | restForOne =>
      simp only [hstrategy] at hrun ⊢
      obtain ⟨ended, hended, rfl, hsame, hchildren, hlog⟩ := hmany hrun
      refine ⟨ended, hended, rfl, ⟨hsame.strategy, hsame.maxRestarts, hsame.maxSeconds,
        hsame.restartTimestamps, hsame.shutdown, hsame.clock⟩, ?_, hlog⟩
      rw [hchildren]

/-- The supervisor as it begins a round. -/
def begun (sup : Supervisor B) (reason : Reason) (i : Nat) (child : RunningChild B)
    (relations : AgentPid → Option Relations) : Supervisor B :=
  { sup.exceedsMaxRestarts.2 with
    log := sup.log ++ [.exited child reason,
      .round (sup.clock 0) (sup.siblings i child) relations] }

theorem roundDone_of_restart (sup : Supervisor B) {reason : Reason} {i : Nat}
    {child : RunningChild B} {relations : AgentPid → Option Relations}
    (hfound : sup.children[i]? = some child) {sup' : Supervisor B}
    {s s' : AgentScheduler (Supervised B S H)}
    (hrun : AgentScheduler.runProg (AgentScheduler.perform agents terminate)
      ((sup.begun reason i child relations).restart i child) s = some (sup', s')) :
    ∃ ended, (sup.siblings i child).foldlM
        (fun s pid => terminate s pid .shutdown) s = some ended ∧
      s' = (respawnAll agents (sup.restartees i child) ended).2 ∧
      RoundDone sup reason i child relations
        (respawnAll agents (sup.restartees i child) ended).1 sup' := by
  have hbegun : (sup.begun reason i child relations).children[i]? = some child := hfound
  obtain ⟨ended, hended, hs', hsame, hperm, hlog⟩ := runProg_restart _ hbegun hrun
  exact ⟨ended, hended, hs', ⟨hsame.strategy, hsame.maxRestarts, hsame.maxSeconds,
    hsame.restartTimestamps, hsame.shutdown, hsame.clock⟩, hperm, hlog⟩

/-- Each exit that is handled has one of the outcomes. -/
theorem handled_of_runProg {sup sup' : Supervisor B} {pid : AgentPid} {reason : Reason}
    {relations : AgentPid → Option Relations}
    {s s' : AgentScheduler (Supervised B S H)}
    (hrun : AgentScheduler.runProg (AgentScheduler.perform agents terminate)
      (sup.handleChildExit pid reason relations) s = some (sup', s')) :
    Handled agents terminate sup pid reason relations s sup' s' := by
  have hdone : ∀ {ended : Supervisor B}, AgentScheduler.runProg
      (AgentScheduler.perform agents terminate) (.done ended) s = some (sup', s') →
      ended = sup' ∧ s = s' := by
    intro ended hended
    rw [AgentScheduler.runProg, Option.some.injEq, Prod.mk.injEq] at hended
    exact hended
  unfold handleChildExit at hrun
  split at hrun
  · rename_i hshutdown
    obtain ⟨rfl, rfl⟩ := hdone hrun
    exact .idle (.inl hshutdown)
  · rename_i hworking
    split at hrun
    · rename_i hnone
      obtain ⟨rfl, rfl⟩ := hdone hrun
      refine .idle (.inr fun child hchild => ?_)
      have hother := List.findIdx?_eq_none_iff.mp hnone child hchild
      simpa using hother
    · rename_i i hfound
      obtain ⟨hlt, hpid, _⟩ := List.findIdx?_eq_some_iff_getElem.mp hfound
      have hchild : sup.children[i]? = some sup.children[i] := List.getElem?_eq_getElem hlt
      rw [hchild] at hrun
      dsimp only at hrun
      have hfinds : sup.Finds pid i sup.children[i] :=
        ⟨Bool.not_eq_true _ ▸ hworking, hchild, by simpa using hpid⟩
      split at hrun
      · rename_i hshould
        obtain ⟨rfl, rfl⟩ := hdone hrun
        exact .dropped hfinds (by simpa using hshould)
      · rename_i hshould
        have hrestarts : sup.Restarts pid reason i sup.children[i] :=
          ⟨hfinds, by simpa using hshould⟩
        split at hrun
        · rename_i hexceeds
          obtain ⟨rfl, rfl⟩ := hdone hrun
          have hlog : (sup.record (.exited sup.children[i] reason)).exceedsMaxRestarts.2.log ++
              [.shutDown (sup.clock 0)] =
              sup.log ++ [.exited sup.children[i] reason, .shutDown (sup.clock 0)] :=
            List.append_assoc _ _ _
          have hexceeded : Handled agents terminate sup pid reason relations s _ s :=
            .exceeded hrestarts hexceeds
          rw [← hlog] at hexceeded
          exact hexceeded
        · rename_i hwithin
          generalize sup.children[i] = child at *
          have hsiblings : (sup.record (.exited child reason)).exceedsMaxRestarts.2.siblings i
              child = sup.siblings i child := rfl
          rw [hsiblings] at hrun
          have hbegun : (sup.record (.exited child reason)).exceedsMaxRestarts.2.record
              (.round (sup.clock 0) (sup.siblings i child) relations) =
              sup.begun reason i child relations := by
            simp [begun, record, exceedsMaxRestarts]
            rfl
          have hclock : (sup.record (.exited child reason)).clock 0 = sup.clock 0 := rfl
          rw [hclock, hbegun] at hrun
          obtain ⟨ended, hended, rfl, hround⟩ := roundDone_of_restart sup hchild hrun
          exact .round hrestarts (Bool.not_eq_true _ ▸ hwithin) hended hround

/-- A round of OneForOne ends nobody, so the handler comes to its end. -/
theorem exists_runProg_of_oneForOne (agents : BehaviorCode (Supervised B S H))
    (terminate : AgentScheduler (Supervised B S H) → AgentPid → Reason →
      Option (AgentScheduler (Supervised B S H)))
    {sup : Supervisor B} (hstrategy : sup.strategy = .oneForOne) (pid : AgentPid)
    (reason : Reason) (relations : AgentPid → Option Relations)
    (s : AgentScheduler (Supervised B S H)) :
    ∃ sup' s', AgentScheduler.runProg (AgentScheduler.perform agents terminate)
      (sup.handleChildExit pid reason relations) s = some (sup', s') := by
  have hrestart : ∀ {sup : Supervisor B} (i : Nat) (child : RunningChild B),
      sup.strategy = .oneForOne → ∃ sup' s',
        AgentScheduler.runProg (AgentScheduler.perform agents terminate)
          (sup.restart i child) s = some (sup', s') := by
    intro sup i child hone
    simp only [restart, hone, restartOne, runProg_spawnChild]
    split
    · exact ⟨_, _, rfl⟩
    · exact ⟨_, _, rfl⟩
  unfold handleChildExit
  split
  · exact ⟨_, _, rfl⟩
  · split
    · exact ⟨_, _, rfl⟩
    · split
      · exact ⟨_, _, rfl⟩
      · dsimp only
        split
        · exact ⟨_, _, rfl⟩
        · split
          · exact ⟨_, _, rfl⟩
          · exact hrestart _ _ hstrategy

/-! ## Sequences of exits -/

/-- What a supervisor becomes, from its start on, when exits are reported to it: any pids,
reasons and states of the scheduler, which gives out its pids from a counter. -/
inductive ExitRun (agents : BehaviorCode (Supervised B S H)) (spec : SupervisorSpec B)
    (clock : Nat → Nat) (Meets : Supervisor B → AgentPid → Reason → Prop) :
    Supervisor B → AgentPid → Prop where
  | started (s : AgentScheduler (Supervised B S H)) {s' : AgentScheduler (Supervised B S H)}
      {sup : Supervisor B} (hstart : start agents s spec clock = (.ok sup, s')) :
      ExitRun agents spec clock Meets sup s'.nextPid
  | exit {sup sup' : Supervisor B} {nextPid : AgentPid}
      {s' : AgentScheduler (Supervised B S H)} (h : ExitRun agents spec clock Meets sup nextPid)
      (fuel : Nat) (s : AgentScheduler (Supervised B S H)) (pid : AgentPid) (reason : Reason)
      (hmeets : Meets sup pid reason) (hlater : nextPid ≤ s.nextPid)
      (hrun : AgentScheduler.runProg (AgentScheduler.perform agents
        (AgentScheduler.terminateProcess (code agents) fuel))
        (sup.handleChildExit pid reason s.relations) s = some (sup', s')) :
      ExitRun agents spec clock Meets sup' s'.nextPid

end Supervisor

end Zeptobeam
