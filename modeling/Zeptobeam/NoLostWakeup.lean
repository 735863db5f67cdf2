/-
No process is left asleep with something to do.  Every part of a tick and of a
termination pays the debts it leaves, so between two steps of a run, and while a
process is run, nobody but that process is owed anything.
-/
import Zeptobeam.RunQueues

namespace Zeptobeam

namespace AgentScheduler

variable {T : AgentTypes} (code : BehaviorCode T)

namespace Attended

variable {d : Debts} {s : AgentScheduler T} {pid : AgentPid}

/-! ## Single operations -/

/-- A spawned process is to be put into a queue. -/
theorem spawn (h : Attended d s) (behavior : T.Behavior) (args : Json) :
    Attended { d with unqueued := s.nextPid :: d.unqueued }
      (s.spawn code behavior args).2 := by
  have hsame : ∀ nextPid, Grows s { s with nextPid } := fun _ =>
    .of_same rfl rfl rfl (fun _ h => h) rfl rfl rfl
  rcases spawn_cases code s behavior args with ⟨reason, hspawn⟩ |
    ⟨registry, state, hspawn, hlookup⟩
  · rw [hspawn]
    have hweak : Attended { d with unqueued := s.nextPid :: d.unqueued } s :=
      h.weaken ⟨List.subset_cons_self _ _, List.Subset.refl _, List.Subset.refl _⟩
    exact hweak.grow (hsame _) fun _ => rfl
  · rw [hspawn]
    have hfooting : ∀ q, ({ s with nextPid := s.nextPid + 1, registry } :
        AgentScheduler T).footing q = if q = s.nextPid then
          some (AgentProcess.started s.nextPid behavior state
            AgentProcess.defaultMailboxCapacity).footing
        else s.footing q := by
      intro q
      simp only [footing, AgentScheduler.lookup, AgentRegistry.lookup] at hlookup ⊢
      rw [hlookup q]
      split
      · rfl
      · rfl
    have hgrows : Grows s { s with nextPid := s.nextPid + 1, registry } :=
      .of_same rfl rfl rfl (fun _ h => h) rfl rfl rfl
    apply h.change s.nextPid hgrows
    · exact ⟨fun q _ howed => List.mem_cons_of_mem _ howed, fun _ _ howed => howed,
        fun _ _ howed => howed⟩
    · intro q hq
      rw [hfooting, if_neg hq]
    · intro f hf
      rw [hfooting, if_pos rfl] at hf
      cases hf
      refine ⟨fun _ => .inr List.mem_cons_self, ?_, ⟨?_, ?_, ?_⟩, ?_⟩
      · intro hwaiting
        contradiction
      · change 0 < AgentProcess.defaultMailboxCapacity
        decide
      · exact Nat.zero_le _
      · intro hwaiting
        contradiction
      · intro hlost
        contradiction

theorem link (h : Attended d s) (first second : AgentPid) :
    Attended d (s.link first second) := by
  have hfirst := h.modify_aside first
    (f := fun proc => { proc with links := proc.links ++ [second] }) fun _ => rfl
  exact hfirst.modify_aside second fun _ => rfl

theorem monitor (h : Attended d s) (watcher target : AgentPid) :
    Attended d (s.monitor watcher target).2 := by
  rcases monitor_cases s watcher target with ⟨text, hmonitor⟩ | ⟨_, _, hmonitor⟩
  · rw [hmonitor]
    exact h
  · rw [hmonitor]
    have hcounted : Attended d { s with nextMonitorRef := s.nextMonitorRef + 1 } :=
      h.grow (.of_same rfl rfl rfl (fun _ h => h) rfl rfl rfl) fun _ => rfl
    have hwatcher := hcounted.modify_aside watcher (f := fun proc =>
      { proc with monitors := proc.monitors ++ [(s.nextMonitorRef, target)] }) fun _ => rfl
    apply log
    exact hwatcher.modify_aside target fun _ => rfl

theorem demonitor (h : Attended d s) (watcher : AgentPid) (monitorRef : MonitorRef) :
    Attended d (s.demonitor watcher monitorRef).2 := by
  rcases demonitor_cases s watcher monitorRef with hdemonitor |
    ⟨proc, i, target, _, _, hdemonitor⟩
  · rw [hdemonitor]
    exact h
  · rw [hdemonitor]
    have hwatcher := h.modify_aside watcher (f := fun proc =>
      { proc with monitors := swapRemove proc.monitors i }) fun _ => rfl
    apply log
    exact hwatcher.modify_aside target fun _ => rfl

theorem bridgeStep (h : Attended d s) (f : Bridge → Bridge)
    (hf : ∀ bridge pid correlationId, bridge.Pending pid correlationId →
      (f bridge).Pending pid correlationId) :
    Attended d { s with bridge := s.bridge.map f } := by
  cases hbridge : s.bridge with
  | none =>
      exact h.grow (.of_same rfl rfl rfl (fun _ h => h) hbridge.symm rfl rfl) fun _ => rfl
  | some bridge =>
      apply h.grow (Grows.bridge s (f bridge) _) fun _ => rfl
      intro old hold q correlationId hpending
      cases hbridge.symm.trans hold
      exact hf bridge q correlationId hpending

theorem cancel (h : Attended d s) (pid : AgentPid) : Attended d (s.cancel pid) :=
  h.bridgeStep (fun bridge => (bridge.cancel pid).2) fun bridge _ _ hpending =>
    (Bridge.sameChannels_cancel bridge pid).pending hpending

/-! ## Before a process is picked -/

/-- The responses drained are owed until they are sent. -/
theorem deliverResponses (h : Attended .none s) :
    Attended .none (s.deliverResponses code) := by
  unfold AgentScheduler.deliverResponses
  cases hbridge : s.bridge with
  | none => exact h
  | some bridge =>
      dsimp only
      apply sendAll
      refine ⟨?_, h.noHandlers, h.noHook⟩
      intro q f hf
      have htended := h.each q f hf
      refine ⟨?_, ?_, htended.roomy, htended.sound⟩
      · intro hrunnable
        rcases htended.queued hrunnable with hqueued | howed
        · left
          revert hqueued
          cases f.priority with
          | high => exact id
          | normal => exact id
          | low => exact id
        · exact .inr howed
      · intro hwaiting
        rcases htended.asleep hwaiting with hempty | ⟨correlationId, old, haccepted, hold,
          hpending⟩ | howed
        · exact .inl hempty
        · cases hbridge.symm.trans hold
          right
          rcases hpending.drainResponses with hstill | hdrained
          · exact .inl ⟨correlationId, _, haccepted, rfl, hstill⟩
          · exact .inr (List.mem_append_left _ hdrained)
        · contradiction

end Attended

/-- A destruction that is submitted again leaves pending what is pending. -/
theorem pending_retryDestroys {pid : AgentPid} {correlationId : Nat}
    (destroys : List (AgentPid × Nat)) {bridge : Bridge}
    (h : bridge.Pending pid correlationId) :
    (retryDestroys bridge destroys).2.Pending pid correlationId := by
  induction destroys generalizing bridge with
  | nil => exact h
  | cons destroy rest ih =>
      obtain ⟨target, retries⟩ := destroy
      unfold retryDestroys
      split
      · exact ih h
      · have hsubmitted := h.submit target (.agentDestroy target)
        generalize bridge.submit target (.agentDestroy target) = answer at hsubmitted
        obtain ⟨answer, submitted⟩ := answer
        cases answer with
        | ok => exact ih hsubmitted
        | error => exact ih hsubmitted

/-- Only the pid that is picked leaves the queues. -/
theorem nextRunnable_cases (s : AgentScheduler T) :
    ∃ queueHigh queueNormal queueLow advantageCount,
      s.nextRunnable.2 = { s with queueHigh, queueNormal, queueLow, advantageCount } ∧
      ∀ priority q, q ∈ s.queueOf priority →
        q ∈ s.nextRunnable.2.queueOf priority ∨ s.nextRunnable.1 = some q := by
  have hpop : ∀ {queue : List AgentPid} {q : AgentPid}, q ∈ queue →
      q ∈ queue.tail ∨ queue.head? = some q := by
    intro queue q hq
    cases queue with
    | nil => contradiction
    | cons first rest =>
        rcases List.mem_cons.mp hq with rfl | hrest
        · exact .inr rfl
        · exact .inl hrest
  unfold nextRunnable
  split
  · rename_i pid rest hhigh
    refine ⟨_, _, _, _, rfl, ?_⟩
    intro priority q hq
    cases priority with
    | high => simpa [queueOf, hhigh, or_comm, eq_comm] using hq
    | normal => exact .inl hq
    | low => exact .inl hq
  · split
    · dsimp only
      split
      · refine ⟨_, _, _, _, rfl, ?_⟩
        intro priority q hq
        cases priority with
        | high => exact .inl hq
        | normal => exact hpop hq
        | low => exact .inl hq
      · split
        · rename_i pid rest hlow
          refine ⟨_, _, _, _, rfl, ?_⟩
          intro priority q hq
          cases priority with
          | high => exact .inl hq
          | normal => exact .inl hq
          | low => simpa [queueOf, hlow, or_comm, eq_comm] using hq
        · refine ⟨_, _, _, _, rfl, ?_⟩
          intro priority q hq
          cases priority with
          | high => exact .inl hq
          | normal => exact hpop hq
          | low => exact .inl hq
    · refine ⟨_, _, _, _, rfl, ?_⟩
      intro priority q hq
      cases priority with
      | high => exact .inl hq
      | normal => exact .inl hq
      | low => exact hpop hq

namespace Attended

variable {d : Debts} {s : AgentScheduler T} {pid : AgentPid}

theorem retryPendingDestroys (h : Attended d s) : Attended d s.retryPendingDestroys := by
  unfold AgentScheduler.retryPendingDestroys
  cases hbridge : s.bridge with
  | none => exact h
  | some bridge =>
      dsimp only
      have hretried := h.grow (Grows.bridge s (retryDestroys bridge s.pendingDestroys).2
        (by
          intro old hold q correlationId hpending
          cases hbridge.symm.trans hold
          exact pending_retryDestroys s.pendingDestroys hpending)) fun _ => rfl
      exact hretried.grow (.of_same rfl rfl rfl (fun _ h => h) rfl rfl rfl) fun _ => rfl

theorem fireTimeouts (h : Attended d s) (now : Nat) (order : PidOrder T) :
    Attended d (s.fireTimeouts code now order) := by
  unfold AgentScheduler.fireTimeouts
  generalize (order.walk s.registry).filter (s.timedOut now) = pids
  induction pids generalizing s with
  | nil => exact h
  | cons pid rest ih =>
      have hcleared := h.modify_aside pid
        (f := fun proc => { proc with receiveTimeout := none }) fun _ => rfl
      exact ih (hcleared.send_any code pid (.system .receiveTimeout) .scheduler)

theorem nextRunnable (h : Attended d s) :
    (s.nextRunnable.1 = none ∧ Attended d s.nextRunnable.2) ∨
    ∃ pid, s.nextRunnable.1 = some pid ∧
      Attended { d with unqueued := pid :: d.unqueued } s.nextRunnable.2 := by
  obtain ⟨queueHigh, queueNormal, queueLow, advantageCount, hnext, hqueues⟩ :=
    nextRunnable_cases s
  have hsame : ∀ d' : Debts, d.Within d' →
      (∀ q, s.nextRunnable.1 = some q → q ∈ d'.unqueued) → Attended d' s.nextRunnable.2 := by
    intro d' hdebts hpicked
    rw [hnext] at hqueues ⊢
    refine ⟨?_, h.noHandlers, h.noHook⟩
    intro q f hf
    have htended := h.each q f hf
    refine ⟨?_, ?_, htended.roomy, fun hlost => hdebts.stateless (htended.sound hlost)⟩
    · intro hrunnable
      rcases htended.queued hrunnable with hqueued | howed
      · rcases hqueues f.priority q hqueued with hstill | hpick
        · exact .inl hstill
        · exact .inr (hpicked q hpick)
      · exact .inr (hdebts.unqueued howed)
    · intro hwaiting
      rcases htended.asleep hwaiting with hempty | hio | howed
      · exact .inl hempty
      · exact .inr (.inl hio)
      · exact .inr (.inr (hdebts.unanswered howed))
  cases hpick : s.nextRunnable.1 with
  | none =>
      left
      refine ⟨rfl, hsame d (Debts.Within.refl d) ?_⟩
      intro q hq
      rw [hpick] at hq
      contradiction
  | some pid =>
      right
      refine ⟨pid, rfl, hsame _ ⟨List.subset_cons_self _ _, List.Subset.refl _,
        List.Subset.refl _⟩ ?_⟩
      intro q hq
      cases hpick.symm.trans hq
      exact List.mem_cons_self

/-- Who is skipped was not runnable; who is picked is owed a queue. -/
theorem selectRunnable (h : Attended d s) (fuel : Nat) :
    ((s.selectRunnable fuel).1 = none ∧ Attended d (s.selectRunnable fuel).2) ∨
    ∃ pid, (s.selectRunnable fuel).1 = some pid ∧
      Attended { d with unqueued := pid :: d.unqueued } (s.selectRunnable fuel).2 ∧
      ∃ proc, (s.selectRunnable fuel).2.lookup pid = some proc ∧ proc.status = .runnable := by
  induction fuel generalizing s with
  | zero => exact .inl ⟨rfl, h⟩
  | succ fuel ih =>
      have hnext := h.nextRunnable
      unfold AgentScheduler.selectRunnable
      generalize s.nextRunnable = next at hnext
      obtain ⟨pick, next⟩ := next
      cases pick with
      | none =>
          rcases hnext with ⟨_, hattended⟩ | ⟨pid, hpick, _⟩
          · exact .inl ⟨rfl, hattended⟩
          · contradiction
      | some pid =>
          rcases hnext with ⟨hpick, _⟩ | ⟨other, hpick, howed⟩
          · contradiction
          · cases hpick
            dsimp only
            by_cases hrunnable :
                (next.lookup pid).any fun proc => proc.status = .runnable
            · rw [if_pos hrunnable]
              obtain ⟨proc, hproc, hstatus⟩ := Option.any_eq_true _ _ |>.mp hrunnable
              exact .inr ⟨pid, rfl, howed, proc, hproc, by simpa using hstatus⟩
            · rw [if_neg hrunnable]
              apply ih
              apply howed.change pid (Grows.refl next)
              · exact ⟨fun q hq hmem => (List.mem_cons.mp hmem).resolve_left hq,
                  fun _ _ hmem => hmem, fun _ _ hmem => hmem⟩
              · exact fun _ _ => rfl
              · intro f hf
                have htended := howed.each pid f hf
                refine ⟨?_, htended.asleep, htended.roomy, htended.sound⟩
                intro hstatus
                obtain ⟨proc, hproc, rfl⟩ := Option.map_eq_some_iff.mp hf
                exact absurd (by simp [hproc, show proc.status = .runnable from hstatus])
                  hrunnable

end Attended

/-! ## The dispatch loop -/

/-- The process that a tick runs: it alone is owed a queue. -/
structure Running (pid : AgentPid) (s : AgentScheduler T) : Prop where
  attended : Attended ⟨[pid], [], []⟩ s
  runnable : ∃ proc, s.lookup pid = some proc ∧ proc.status = .runnable

/-- How the loop ends; what it leaves to do is what is still owed. -/
inductive LoopEnd (pid : AgentPid) (unfinished : Prop) (s : AgentScheduler T)
    (deferred : Deferred T) : Prop where
  | waits (h : Running pid s) (hempty : ∀ f, s.footing pid = some f → f.mailbox = [])
      (hwait : deferred.shouldWait = true) (hout : deferred.outOfReductions = false)
      (hstop : deferred.shouldStop = none)
  | spent (h : Running pid s) (hwait : deferred.shouldWait = false)
      (hout : deferred.outOfReductions = true) (hstop : deferred.shouldStop = none)
  | stops (reason : Reason) (h : Attended ⟨[pid], [], [pid]⟩ s)
      (hwait : deferred.shouldWait = false) (hout : deferred.outOfReductions = false)
      (hstop : deferred.shouldStop = some reason)
  | settled (h : Attended .none s) (hwait : deferred.shouldWait = false)
      (hout : deferred.outOfReductions = false) (hstop : deferred.shouldStop = none)
  | cut (hcut : unfinished) (h : Running pid s)

theorem LoopEnd.imp {pid : AgentPid} {p q : Prop} {s : AgentScheduler T}
    {deferred : Deferred T} (h : LoopEnd pid p s deferred) (hpq : p → q) :
    LoopEnd pid q s deferred := by
  cases h with
  | waits h hempty hwait hout hstop => exact .waits h hempty hwait hout hstop
  | spent h hwait hout hstop => exact .spent h hwait hout hstop
  | stops reason h hwait hout hstop => exact .stops reason h hwait hout hstop
  | settled h hwait hout hstop => exact .settled h hwait hout hstop
  | cut hcut h => exact .cut (hpq hcut) h

/-- In every case nobody else is owed anything. -/
theorem LoopEnd.attended {pid : AgentPid} {p : Prop} {s : AgentScheduler T}
    {deferred : Deferred T} (h : LoopEnd pid p s deferred) :
    Attended ⟨[pid], [], [pid]⟩ s := by
  have hsubset : ∀ d : Debts, d.unqueued ⊆ [pid] → d.unanswered ⊆ [] →
      d.stateless ⊆ [pid] → d.Within ⟨[pid], [], [pid]⟩ :=
    fun d hunqueued hunanswered hstateless => ⟨hunqueued, hunanswered, hstateless⟩
  cases h with
  | waits h | spent h | cut _ h =>
      exact h.attended.weaken (hsubset _ (by simp) (by simp) (by simp))
  | stops reason h => exact h
  | settled h =>
      exact h.weaken (hsubset _ (by simp [Debts.none]) (by simp [Debts.none])
        (by simp [Debts.none]))

namespace Running

variable {s : AgentScheduler T} {pid : AgentPid}

/-- A message is taken; there is room in the mailbox then, and the state may be lost. -/
theorem take (h : Running pid s) {proc : AgentProcess T} {msg : Message}
    {rest : List Message} (hproc : s.lookup pid = some proc)
    (hmailbox : proc.mailbox = msg :: rest) (state : Option T.State) (event : Event) :
    Attended ⟨[pid], [], if state.isSome then [] else [pid]⟩
        ((s.takeMessage pid state).log event) ∧
      ∃ taken, ((s.takeMessage pid state).log event).lookup pid = some taken ∧
        taken.status = .runnable ∧ taken.reductions = proc.reductions - 1 ∧
        taken.mailbox.length < taken.mailboxCapacity := by
  obtain ⟨found, hfound, hrunnable⟩ := h.runnable
  cases hproc.symm.trans hfound
  have hfooting : s.footing pid = some proc.footing := by simp [footing, hproc]
  have htended := h.attended.each pid _ hfooting
  have hfits : rest.length < proc.mailboxCapacity := by
    have hlength : proc.mailbox.length ≤ proc.mailboxCapacity := htended.roomy.fits
    rw [hmailbox] at hlength
    exact hlength
  constructor
  · apply Attended.log
    have hmodified : Attended ⟨[pid], [], if state.isSome then [] else [pid]⟩
        (s.modify pid fun proc => { proc with
          mailbox := proc.mailbox.tail
          reductions := proc.reductions - 1
          state }) := by
      apply h.attended.modify (g := fun r =>
        { r with mailbox := r.mailbox.tail, stateless := state.isNone })
      · intro proc _
        rfl
      · exact ⟨fun _ _ howed => howed, fun _ _ howed => howed,
          fun _ _ howed => absurd howed List.not_mem_nil⟩
      · intro r hr _
        cases hfooting.symm.trans hr
        refine ⟨fun _ => .inr List.mem_cons_self, ?_, ⟨htended.roomy.capacity, ?_, ?_⟩, ?_⟩
        · intro hwaiting
          rw [show proc.footing.status = .runnable from hrunnable] at hwaiting
          contradiction
        · change proc.mailbox.tail.length ≤ proc.mailboxCapacity
          rw [hmailbox]
          exact Nat.le_of_lt hfits
        · intro hwaiting
          rw [show proc.footing.status = .runnable from hrunnable] at hwaiting
          contradiction
        · intro hlost
          rw [if_neg (by simpa using hlost)]
          exact List.mem_cons_self
    exact hmodified.grow (.of_same rfl rfl rfl (fun _ h => h) rfl rfl rfl) fun _ => rfl
  · refine ⟨{ proc with
      mailbox := proc.mailbox.tail
      reductions := proc.reductions - 1
      state }, ?_, hrunnable, rfl, ?_⟩
    · rw [lookup_log]
      change (s.modify pid _).lookup pid = _
      rw [lookup_modify, if_pos rfl, hproc]
      rfl
    · change proc.mailbox.tail.length < proc.mailboxCapacity
      rw [hmailbox]
      exact hfits

theorem charge (h : Running pid s) (cost : Nat) : Running pid (s.charge pid cost) := by
  obtain ⟨proc, hproc, hrunnable⟩ := h.runnable
  refine ⟨h.attended.modify_aside pid fun _ => rfl, ?_⟩
  refine ⟨{ proc with reductions := proc.reductions - cost }, ?_, hrunnable⟩
  rw [AgentScheduler.charge, lookup_modify, if_pos rfl, hproc]
  rfl

end Running

namespace Attended

variable {s : AgentScheduler T} {pid : AgentPid}

/-- The error's text wakes the process again. -/
theorem failIo (h : Attended ⟨[pid], [pid], []⟩ s) (text : String) :
    Attended .none (s.failIo pid text) := by
  unfold AgentScheduler.failIo
  apply enqueue
  have htext : Attended ⟨[pid], [pid], []⟩ (s.deliverDirect pid (.text text)) := by
    apply (h.deliverDirect pid (.text text)).weaken
    refine ⟨?_, List.Subset.refl _, List.Subset.refl _⟩
    split
    · simp
    · exact List.Subset.refl _
  apply htext.modify (g := fun r => { r with status := .runnable })
  · intro proc _
    rfl
  · refine ⟨fun _ _ howed => howed, ?_, fun _ _ howed => howed⟩
    intro q hq howed
    exact absurd (List.mem_singleton.mp howed) hq
  · intro r _ htended
    refine ⟨fun _ => .inr List.mem_cons_self, ?_, ⟨htended.roomy.capacity,
      htended.roomy.fits, ?_⟩, htended.sound⟩
    · intro hwaiting
      contradiction
    · intro hwaiting
      contradiction

/-- The process waits for the operation that was accepted, or is awake with the error. -/
theorem requestIo (h : Attended ⟨[pid], [], []⟩ s)
    (hroom : ∀ proc, s.lookup pid = some proc → proc.mailbox.length < proc.mailboxCapacity)
    (op : IoOp) : Attended .none (s.requestIo pid op) := by
  have hwaiting : Attended ⟨[pid], [pid], []⟩ (s.modify pid fun proc =>
      { proc with reductions := proc.reductions - 1, status := .waiting }) := by
    apply h.modify (g := fun r => { r with status := .waiting })
    · intro proc _
      rfl
    · exact ⟨fun _ _ howed => howed, fun _ _ howed => List.mem_cons_of_mem _ howed,
        fun _ _ howed => howed⟩
    · intro r hr htended
      refine ⟨fun _ => .inr List.mem_cons_self, fun _ => .inr (.inr List.mem_cons_self),
        ⟨htended.roomy.capacity, htended.roomy.fits, ?_⟩, htended.sound⟩
      intro _
      obtain ⟨proc, hproc, rfl⟩ := Option.map_eq_some_iff.mp hr
      exact hroom proc hproc
  have hasleep : ∀ f, (s.modify pid fun proc =>
      { proc with reductions := proc.reductions - 1, status := .waiting }).footing pid =
        some f → f.status = .waiting := by
    intro f hf
    rw [footing, lookup_modify, if_pos rfl, Option.map_map] at hf
    obtain ⟨proc, _, rfl⟩ := Option.map_eq_some_iff.mp hf
    rfl
  unfold AgentScheduler.requestIo
  dsimp only
  generalize s.modify pid _ = s at hwaiting hasleep
  cases hbridge : s.bridge with
  | none => exact hwaiting.failIo _
  | some bridge =>
      have hsubmitted : Attended ⟨[pid], [pid], []⟩
          { s with bridge := some (bridge.submit pid op).2 } := by
        apply hwaiting.grow (Grows.bridge s _ _) fun _ => rfl
        intro old hold q correlationId hpending
        cases hbridge.symm.trans hold
        exact hpending.submit pid op
      dsimp only
      cases hsubmit : bridge.submit pid op with
      | mk answer bridge' =>
          rw [hsubmit] at hsubmitted
          cases answer with
          | error text => exact hsubmitted.failIo text
          | ok correlationId =>
              have haccepted := hsubmitted.log (.ioAccepted pid correlationId)
              apply haccepted.change pid (Grows.refl _)
              · refine ⟨?_, ?_, fun _ _ howed => howed⟩
                · intro q hq howed
                  exact absurd (List.mem_singleton.mp howed) hq
                · intro q hq howed
                  exact absurd (List.mem_singleton.mp howed) hq
              · exact fun _ _ => rfl
              · intro f hf
                have htended := haccepted.each pid f hf
                refine ⟨?_, ?_, htended.roomy, htended.sound⟩
                · intro hrunnable
                  rw [hasleep f hf] at hrunnable
                  contradiction
                · intro _
                  right
                  left
                  exact ⟨correlationId, bridge', List.mem_append_right _ List.mem_cons_self,
                    rfl, Bridge.pending_of_submit hsubmit⟩

end Attended

/-- A callback loses the state only when it stops the process. -/
theorem runCallback_cases (behavior : T.Behavior) (msg : Message) (state : T.State) :
    (runCallback code behavior msg state).2.isSome ∨
    ∃ reason, runCallback code behavior msg state = (.stop reason, none) := by
  unfold runCallback
  dsimp only
  split
  · exact .inl rfl
  · exact .inr ⟨_, rfl⟩

theorem Running.stateful {pid : AgentPid} {s : AgentScheduler T} (h : Running pid s)
    {proc : AgentProcess T} (hproc : s.lookup pid = some proc) :
    ∃ state, proc.state = some state := by
  cases hlost : proc.state with
  | some state => exact ⟨state, rfl⟩
  | none =>
      have hfooting : s.footing pid = some proc.footing := by simp [footing, hproc]
      have howed := (h.attended.each pid _ hfooting).sound
        (by simp [AgentProcess.footing, hlost])
      contradiction

/-- By induction on the rounds left; each takes a reduction from the process. -/
theorem dispatch_ends (pid : AgentPid) (fuel : Nat) {s : AgentScheduler T}
    (deferred : Deferred T) {proc : AgentProcess T} (h : Running pid s)
    (hproc : s.lookup pid = some proc) (hwait : deferred.shouldWait = false)
    (hout : deferred.outOfReductions = false) (hstop : deferred.shouldStop = none) :
    LoopEnd pid (fuel ≤ proc.reductions) (s.dispatch code pid fuel deferred).1
      (s.dispatch code pid fuel deferred).2 := by
  induction fuel generalizing s deferred proc with
  | zero => exact .cut (Nat.zero_le _) h
  | succ fuel ih =>
      unfold dispatch
      rw [hproc]
      dsimp only
      by_cases hspent : proc.reductions = 0
      · rw [if_pos hspent]
        exact .spent h hwait rfl hstop
      · rw [if_neg hspent]
        cases hmailbox : proc.mailbox with
        | nil =>
            refine .waits h ?_ rfl hout hstop
            intro f hf
            rw [footing, hproc] at hf
            cases hf
            exact hmailbox
        | cons msg rest =>
            obtain ⟨state, hstate⟩ := h.stateful hproc
            have htake := h.take hproc hmailbox
              (runCallback code proc.behavior msg state).2 (.handled pid msg)
            have hcallback := runCallback_cases code proc.behavior msg state
            rw [hstate]
            dsimp only
            generalize runCallback code proc.behavior msg state = result at htake hcallback
            obtain ⟨action, left⟩ := result
            obtain ⟨htaken, taken, hlookup, hrunnable, hreductions, hroom⟩ := htake
            dsimp only at htaken hlookup ⊢
            generalize (s.takeMessage pid left).log (.handled pid msg) = next at *
            rcases hcallback with hleft | ⟨reason, hpanic⟩
            · rw [if_pos hleft] at htaken
              have hnext : Running pid next := ⟨htaken, taken, hlookup, hrunnable⟩
              have hfewer : ∀ cost, fuel ≤ taken.reductions - cost →
                  fuel + 1 ≤ proc.reductions := by
                intro cost hle
                omega
              have hcharged : ∀ cost, (next.charge pid cost).lookup pid =
                  some { taken with reductions := taken.reductions - cost } := by
                intro cost
                rw [charge, lookup_modify, if_pos rfl, hlookup]
                rfl
              cases action with
              | «continue» => exact (ih _ hnext hlookup hwait hout hstop).imp (hfewer 0)
              | send dest sent =>
                  apply LoopEnd.imp _ (hfewer 2)
                  exact ih _ (hnext.charge 2) (hcharged 2) hwait hout hstop
              | ioRequest op =>
                  apply LoopEnd.settled _ hwait hout hstop
                  apply htaken.requestIo
                  intro other hother
                  cases hlookup.symm.trans hother
                  exact hroom
              | spawn behavior args link monitor =>
                  apply LoopEnd.imp _ (hfewer 10)
                  exact ih _ (hnext.charge 10) (hcharged 10) hwait hout hstop
              | stop reason =>
                  refine .stops reason ?_ hwait hout rfl
                  exact htaken.weaken
                    ⟨List.Subset.refl _, List.Subset.refl _, List.nil_subset _⟩
            · obtain ⟨rfl, rfl⟩ := Prod.mk.inj hpanic
              exact .stops reason htaken hwait hout rfl

/-! ## After the loop -/

namespace Attended

variable {d : Debts} {s : AgentScheduler T} {pid : AgentPid}

theorem setWaiting (h : Attended ⟨[pid], [], []⟩ s)
    (hempty : ∀ f, s.footing pid = some f → f.mailbox = []) :
    Attended .none (s.setWaiting pid) := by
  apply h.modify (g := fun r => { r with status := .waiting })
  · intro proc _
    rfl
  · refine ⟨?_, fun _ _ howed => howed, fun _ _ howed => howed⟩
    intro q hq howed
    exact absurd (List.mem_singleton.mp howed) hq
  · intro r hr htended
    refine ⟨?_, fun _ => .inl (hempty r hr), ⟨htended.roomy.capacity, htended.roomy.fits, ?_⟩,
      htended.sound⟩
    · intro hrunnable
      contradiction
    · intro _
      change r.mailbox.length < r.capacity
      rw [hempty r hr]
      exact htended.roomy.capacity

theorem monitorChild (h : Attended d s) (pid child : AgentPid) :
    Attended d (s.monitorChild pid child).2 := by
  have hmonitor := h.monitor pid child
  unfold AgentScheduler.monitorChild
  generalize s.monitor pid child = answer at hmonitor
  obtain ⟨answer, next⟩ := answer
  cases answer with
  | ok monitorRef => exact hmonitor
  | error text => exact hmonitor

theorem spawnPending (h : Attended d s) (pid : AgentPid)
    (request : T.Behavior × Json × Bool × Bool) :
    Attended d (s.spawnPending code pid request) := by
  obtain ⟨behavior, args, link, monitor⟩ := request
  have hspawned := h.spawn code behavior args
  unfold AgentScheduler.spawnPending
  dsimp only
  rcases spawn_cases code s behavior args with ⟨reason, hspawn⟩ | ⟨registry, state, hspawn, _⟩
  · rw [hspawn]
    exact h.grow (.of_same rfl rfl rfl (fun _ h => h) rfl rfl rfl) fun _ => rfl
  · rw [hspawn] at hspawned ⊢
    dsimp only at hspawned ⊢
    generalize ({ s with nextPid := s.nextPid + 1, registry } : AgentScheduler T) = next
      at hspawned
    apply enqueue
    apply send_any
    have hlinked : Attended { d with unqueued := s.nextPid :: d.unqueued }
        (if link then next.link pid s.nextPid else next) := by
      split
      · exact hspawned.link pid s.nextPid
      · exact hspawned
    split
    · exact hlinked.monitorChild pid s.nextPid
    · exact hlinked

theorem spawnAll (requests : List (T.Behavior × Json × Bool × Bool)) (h : Attended d s)
    (pid : AgentPid) :
    Attended d (requests.foldl (AgentScheduler.spawnPending code pid) s) := by
  induction requests generalizing s with
  | nil => exact h
  | cons request rest ih => exact ih (h.spawnPending code pid request)

end Attended

section Terminating

variable {s s' : AgentScheduler T}
  {terminate : AgentScheduler T → AgentPid → Reason → Option (AgentScheduler T)}

/-- The process picked is looked after, too, when its run is over. -/
theorem Running.runProcess {pid : AgentPid} (h : Running pid s)
    (hterminate : ∀ {s s' pid reason}, terminate s pid reason = some s' →
      Attended ⟨[pid], [], [pid]⟩ s → Attended .none s')
    (hrun : s.runProcess code terminate pid = some s') : Attended .none s' := by
  obtain ⟨proc, hproc, hrunnable⟩ := h.runnable
  have hstarted : (s.modify pid fun proc =>
      { proc with reductions := defaultReductions }).lookup pid =
        some { proc with reductions := defaultReductions } := by
    rw [lookup_modify, if_pos rfl, hproc]
    rfl
  have hstart : Running pid (s.modify pid fun proc =>
      { proc with reductions := defaultReductions }) :=
    ⟨h.attended.modify_aside pid fun _ => rfl, _, hstarted, hrunnable⟩
  have hend := dispatch_ends code pid (defaultReductions + 1) Deferred.none hstart hstarted rfl rfl rfl
  unfold AgentScheduler.runProcess at hrun
  dsimp only at hrun
  generalize dispatch code pid (defaultReductions + 1) _ Deferred.none = result at hrun hend
  obtain ⟨left, deferred⟩ := result
  dsimp only at hrun hend
  have hafter : ∀ {d : Debts} {left : AgentScheduler T}, Attended d left →
      Attended d (deferred.pendingSpawns.foldl (spawnPending code pid)
        (left.sendAll code (.action pid) deferred.pendingSends)) := by
    intro d left hleft
    apply Attended.spawnAll
    apply Attended.sendAll
    exact hleft.weaken ⟨List.Subset.refl _, List.subset_append_right _ _, List.Subset.refl _⟩
  cases hend with
  | waits hended hempty hwait hout hstop =>
      simp only [hwait, hout, hstop, if_true, Bool.false_eq_true, if_false,
        Option.some.injEq] at hrun
      exact hrun ▸ hafter (hended.attended.setWaiting hempty)
  | spent hended hwait hout hstop =>
      simp only [hwait, hout, hstop, if_true, Bool.false_eq_true, if_false,
        Option.some.injEq] at hrun
      exact hrun ▸ hafter hended.attended.enqueue
  | stops reason hended hwait hout hstop =>
      simp only [hwait, hout, hstop, Bool.false_eq_true, if_false] at hrun
      exact hterminate hrun (hafter hended)
  | settled hended hwait hout hstop =>
      simp only [hwait, hout, hstop, Bool.false_eq_true, if_false,
        Option.some.injEq] at hrun
      exact hrun ▸ hafter hended
  | cut hcut => exact absurd hcut (Nat.not_succ_le_self _)

/-- What a tick does before it runs a process. -/
def pick (code : BehaviorCode T) (s : AgentScheduler T) (now : Nat) (order : PidOrder T) :
    Option AgentPid × AgentScheduler T :=
  let ready := ((s.deliverResponses code).retryPendingDestroys).fireTimeouts code now order
  ready.selectRunnable (ready.queued + 1)

theorem tick_eq (now : Nat) (order : PidOrder T) :
    s.tick code terminate now order = match s.pick code now order with
      | (none, s) => some (false, s)
      | (some pid, s) => (s.runProcess code terminate pid).map fun s => (true, s) := rfl

theorem Attended.pick (h : Attended .none s) (now : Nat) (order : PidOrder T) :
    ((s.pick code now order).1 = none ∧ Attended .none (s.pick code now order).2) ∨
    ∃ pid, (s.pick code now order).1 = some pid ∧
      Running pid (s.pick code now order).2 := by
  have hready := (h.deliverResponses code).retryPendingDestroys.fireTimeouts code now
    order
  rcases hready.selectRunnable (_ + 1) with hnone | ⟨pid, hpid, howed, hrunnable⟩
  · exact .inl hnone
  · exact .inr ⟨pid, hpid, howed, hrunnable⟩

theorem Attended.tick (h : Attended .none s)
    (hterminate : ∀ {s s' pid reason}, terminate s pid reason = some s' →
      Attended ⟨[pid], [], [pid]⟩ s → Attended .none s')
    {now : Nat} {order : PidOrder T} {worked : Bool}
    (htick : s.tick code terminate now order = some (worked, s')) : Attended .none s' := by
  have hpicked := h.pick code now order
  rw [tick_eq] at htick
  generalize s.pick code now order = picked at htick hpicked
  obtain ⟨pid, picked⟩ := picked
  rcases hpicked with ⟨rfl, hattended⟩ | ⟨pid, rfl, hrunning⟩
  · simp only [Option.some.injEq, Prod.mk.injEq] at htick
    exact htick.2 ▸ hattended
  · simp only [Option.map_eq_some_iff, Prod.mk.injEq] at htick
    obtain ⟨final, hrun, _, rfl⟩ := htick
    exact hrunning.runProcess code hterminate hrun

end Terminating

/-! ## Terminations -/

namespace Attended

variable {d : Debts} {s s' : AgentScheduler T} {pid : AgentPid}

/-- Nothing is owed to a process that is gone. -/
theorem removeProcess (h : Attended { d with
      unqueued := pid :: d.unqueued, stateless := pid :: d.stateless } s) :
    Attended d (s.removeProcess pid) := by
  have hgrows : Grows s (s.removeProcess pid) := by
    cases hproc : s.lookup pid with
    | none =>
        rw [removeProcess_of_dead hproc]
        exact Grows.refl s
    | some proc =>
        rw [removeProcess_of_live hproc]
        exact .of_same rfl rfl rfl (fun _ h => List.mem_append_left _ h) rfl rfl rfl
  apply h.change pid hgrows
  · exact ⟨fun q hq howed => (List.mem_cons.mp howed).resolve_left hq, fun _ _ howed => howed,
      fun q hq howed => (List.mem_cons.mp howed).resolve_left hq⟩
  · intro q hq
    rw [footing, lookup_removeProcess, if_neg hq, footing]
  · intro f hf
    rw [footing, lookup_removeProcess, if_pos rfl] at hf
    contradiction

/-- Who is woken by an Exit message is on the list to put into a queue. -/
theorem notifyLinks (links : List AgentPid) (reason : Reason) {notices : LinkNotices T}
    (h : Attended { d with unqueued := notices.pidsToWake ++ d.unqueued }
      notices.scheduler) :
    Attended { d with
        unqueued := (links.foldl (notifyLink pid reason) notices).pidsToWake ++ d.unqueued }
      (links.foldl (notifyLink pid reason) notices).scheduler := by
  induction links generalizing notices with
  | nil => exact h
  | cons linked rest ih =>
      apply ih
      unfold notifyLink
      cases hproc : notices.scheduler.lookup linked with
      | none => exact h
      | some proc =>
          dsimp only
          split
          · apply (h.deliverDirect linked (.system (.exit pid reason))).weaken
            refine ⟨?_, List.Subset.refl _, List.Subset.refl _⟩
            have hstatus : (notices.scheduler.footing linked).any (·.status = .waiting) =
                decide (proc.status = .waiting) := by
              simp [footing, hproc, AgentProcess.footing]
            rw [hstatus]
            by_cases hwaiting : proc.status = .waiting
            · simp only [hwaiting, decide_true, if_true]
              intro q hq
              rcases List.mem_cons.mp hq with rfl | hq
              · simp
              · rcases List.mem_append.mp hq with hq | hq
                · simp [hq]
                · simp [hq]
            · simp only [hwaiting, decide_false, Bool.false_eq_true, if_false]
              exact List.Subset.refl _
          · split
            · exact h
            · exact h

theorem modifyAside (records : List (MonitorRef × AgentPid))
    (f : MonitorRef × AgentPid → AgentProcess T → AgentProcess T)
    (hf : ∀ record proc, (f record proc).footing = proc.footing) (h : Attended d s) :
    Attended d (records.foldl (fun s record => s.modify record.2 (f record)) s) := by
  induction records generalizing s with
  | nil => exact h
  | cons record rest ih => exact ih (h.modify_aside record.2 (hf record))

theorem sendDowns (code : BehaviorCode T) (records : List (MonitorRef × AgentPid))
    (reason : Reason) (h : Attended d s) :
    Attended d (records.foldl (sendDown code pid reason) s) := by
  induction records generalizing s with
  | nil => exact h
  | cons record rest ih => exact ih (h.send_any code record.2 _ _)

theorem takeDown (h : Attended { d with
      unqueued := pid :: d.unqueued, stateless := pid :: d.stateless } s)
    (code : BehaviorCode T) (reason : Reason) :
    Attended d (s.takeDown code pid reason).2 := by
  have hremoved := ((h.cancel pid).log (.terminating pid (s.lookup pid).isSome s.handlersOut
    s.exitHandlers.isEmpty)).removeProcess
  unfold AgentScheduler.takeDown notifyRelations settleRelations
  dsimp only
  apply sendDowns
  apply enqueueAll
  apply modifyAside _ (fun record proc =>
    { proc with monitors := proc.monitors.filter (· ≠ (record.1, pid)) }) (fun _ _ => rfl)
  apply notifyLinks
  exact modifyAside _ (fun record proc =>
    { proc with monitoredBy := proc.monitoredBy.filter (· ≠ (record.1, pid)) })
    (fun _ _ => rfl) hremoved

theorem finishTermination (h : Attended d s) (pid : AgentPid) :
    Attended d (s.finishTermination pid) := by
  unfold AgentScheduler.finishTermination
  dsimp only
  cases hbridge : s.bridge with
  | none => exact h.grow (.of_same rfl rfl rfl (fun _ h => h) hbridge.symm rfl rfl) fun _ => rfl
  | some bridge =>
      have hsubmitted : Attended d { s with
          bridge := some (bridge.submit pid (.agentDestroy pid)).2 } := by
        apply h.grow (Grows.bridge s _ _) fun _ => rfl
        intro old hold q correlationId hpending
        cases hbridge.symm.trans hold
        exact hpending.submit pid (.agentDestroy pid)
      dsimp only
      generalize bridge.submit pid (.agentDestroy pid) = answer at hsubmitted
      obtain ⟨answer, submitted⟩ := answer
      cases answer with
      | ok | error =>
          exact hsubmitted.grow (.of_same rfl rfl rfl (fun _ h => h) rfl rfl rfl)
            fun _ => rfl

/-- By induction on the fuel: each process of the cascade is taken down in turn. -/
theorem terminateProcess {code : AgentCode T} {fuel : Nat} {reason : Reason}
    (h : Attended { d with
      unqueued := pid :: d.unqueued, stateless := pid :: d.stateless } s)
    (hrun : s.terminateProcess code fuel pid reason = some s') : Attended d s' := by
  induction fuel generalizing s s' pid with
  | zero => contradiction
  | succ fuel ih =>
      have hdown := h.takeDown code.toBehaviorCode reason
      unfold AgentScheduler.terminateProcess at hrun
      generalize s.takeDown code.toBehaviorCode pid reason = taken at hrun hdown
      obtain ⟨pidsToCascade, down⟩ := taken
      simp only [Option.bind_eq_bind, Option.bind_eq_some_iff, Option.some.injEq] at hrun
      obtain ⟨cascaded, hcascade, handled, hhandlers, rfl⟩ := hrun
      have hcascaded : Attended d cascaded := by
        apply GuardedRun.foldlM_keeps pidsToCascade _ hcascade hdown
        intro s next s' _ hfirst hs
        apply ih _ hfirst
        exact hs.weaken
          ⟨List.subset_cons_self _ _, List.Subset.refl _, List.subset_cons_self _ _⟩
      rw [runExitHandlers, if_pos hcascaded.noHandlers] at hhandlers
      cases hhandlers
      exact hcascaded.finishTermination pid

end Attended

end AgentScheduler

/-! ## Runs -/

/-- The steps a scheduler's users take without handlers and hooks: a process is started
in one step, as it has to be put into a queue. -/
def RunOp.serves {T : AgentTypes} : RunOp T → Bool
  | .call (.enqueue _) | .call (.send _ _) | .call (.link _ _) | .call (.monitor _ _)
  | .call (.demonitor _ _) | .call (.setReceiveTimeout _ _) | .call (.cancel _)
  | .call (.tick _ _) | .call (.terminateProcess _ _) | .worker _ | .countersAdvance _ _ =>
      true
  | _ => false

namespace AgentScheduler

variable {T : AgentTypes} {code : AgentCode T} {s s' : AgentScheduler T}

/-- `registry.spawn`, the fields that are set before the first run, and `enqueue`. -/
def start (code : BehaviorCode T) (s : AgentScheduler T) (behavior : T.Behavior)
    (args : Json) (priority : Priority) (trapExit : Bool) : AgentScheduler T :=
  match s.spawn code behavior args with
  | (.error _, s) => s
  | (.ok pid, s) =>
      (s.modify pid fun proc => { proc with priority, trapExit }).enqueue pid

/-- What a run of such steps reaches. -/
inductive Served (code : AgentCode T) : AgentScheduler T → Prop where
  | new (bridge : Option Bridge) (routing : Bool) (nextPid nextMonitorRef : Nat) :
      Served code (new bridge none routing nextPid nextMonitorRef)
  | start {s : AgentScheduler T} (behavior : T.Behavior) (args : Json)
      (priority : Priority) (trapExit : Bool) (h : Served code s) :
      Served code (s.start code.toBehaviorCode behavior args priority trapExit)
  | step {s s' : AgentScheduler T} (fuel : Nat) (op : RunOp T) (hop : op.serves = true)
      (h : Served code s) (hstep : s.step code fuel op = some s') : Served code s'

theorem Attended.start (h : Attended .none s) (behavior : T.Behavior) (args : Json)
    (priority : Priority) (trapExit : Bool) :
    Attended .none (s.start code.toBehaviorCode behavior args priority trapExit) := by
  have hspawned := h.spawn code.toBehaviorCode behavior args
  unfold AgentScheduler.start
  rcases spawn_cases code.toBehaviorCode s behavior args with ⟨reason, hspawn⟩ |
    ⟨registry, state, hspawn, _⟩
  · rw [hspawn]
    exact h.grow (.of_same rfl rfl rfl (fun _ h => h) rfl rfl rfl) fun _ => rfl
  · rw [hspawn] at hspawned ⊢
    apply enqueue
    apply hspawned.modify (g := fun r => { r with priority })
    · intro proc _
      rfl
    · exact (Debts.Within.refl _).but _
    · intro r _ htended
      exact ⟨fun _ => .inr List.mem_cons_self, htended.asleep,
        ⟨htended.roomy.capacity, htended.roomy.fits, htended.roomy.waiting⟩, htended.sound⟩

theorem Attended.terminate {fuel : Nat} {pid : AgentPid} {reason : Reason}
    (hrun : s.terminateProcess code fuel pid reason = some s')
    (h : Attended ⟨[pid], [], [pid]⟩ s) : Attended .none s' :=
  terminateProcess (d := .none) h hrun

theorem Attended.step (h : Attended .none s) {fuel : Nat} {op : RunOp T}
    (hop : op.serves = true) (hstep : s.step code fuel op = some s') :
    Attended .none s' := by
  cases op with
  | worker workerStep =>
      cases hstep
      exact h.bridgeStep (fun bridge => bridge.workerStep workerStep)
        fun _ _ _ hpending => hpending.workerStep workerStep
  | countersAdvance pids refs =>
      cases hstep
      exact h.grow (.of_same rfl rfl rfl (fun _ h => h) rfl rfl rfl) fun _ => rfl
  | call call =>
      obtain ⟨⟨reply, final⟩, hperform, rfl⟩ := Option.map_eq_some_iff.mp hstep
      have hdone : ∀ {next : AgentScheduler T} {answer : Reply}, Attended .none next →
          some (answer, next) = some (reply, final) → Attended .none final := by
        intro next answer hnext heq
        simp only [Option.some.injEq, Prod.mk.injEq] at heq
        exact heq.2 ▸ hnext
      cases call with
      | enqueue pid =>
          refine hdone (Attended.enqueue ?_) hperform
          exact h.weaken
            ⟨List.subset_cons_self _ _, List.Subset.refl _, List.Subset.refl _⟩
      | send dest msg => exact hdone (h.send_any _ dest msg .caller) hperform
      | link first second => exact hdone (h.link first second) hperform
      | monitor watcher target => exact hdone (h.monitor watcher target) hperform
      | demonitor watcher monitorRef => exact hdone (h.demonitor watcher monitorRef) hperform
      | setReceiveTimeout pid deadline =>
          have htimeout : Attended .none (s.setReceiveTimeout pid deadline).2 := by
            unfold setReceiveTimeout
            split
            · exact h
            · split
              · exact h
              · exact h.modify_aside pid fun _ => rfl
          exact hdone htimeout hperform
      | cancel pid => exact hdone (h.cancel pid) hperform
      | terminateProcess pid reason =>
          simp only [perform, Option.map_eq_some_iff, Prod.mk.injEq] at hperform
          obtain ⟨ended, hrun, _, rfl⟩ := hperform
          apply Attended.terminate hrun
          exact h.weaken ⟨List.nil_subset _, List.Subset.refl _, List.nil_subset _⟩
      | tick now order =>
          simp only [perform, Option.map_eq_some_iff, Prod.mk.injEq] at hperform
          obtain ⟨⟨worked, ended⟩, hrun, _, rfl⟩ := hperform
          exact h.tick code.toBehaviorCode Attended.terminate hrun
      | _ => contradiction

theorem Attended.of_served (h : Served code s) : Attended .none s := by
  induction h with
  | new bridge routing nextPid nextMonitorRef =>
      refine ⟨?_, rfl, rfl⟩
      intro pid f hf
      simp [footing, lookup, AgentScheduler.new, AgentRegistry.empty, AgentRegistry.lookup] at hf
  | start behavior args priority trapExit _ ih => exact ih.start behavior args priority trapExit
  | step fuel op hop _ hstep ih => exact ih.step hop hstep

/-- Every runnable process but the one that runs is in the queue of its priority, and
who waits with something to read waits for an operation that was accepted. -/
structure NoLostWakeup (running : Option AgentPid) (s : AgentScheduler T) : Prop where
  queued : ∀ pid proc, s.lookup pid = some proc → proc.status = .runnable →
    running ≠ some pid → pid ∈ s.queueOf proc.priority
  asleep : ∀ pid proc, s.lookup pid = some proc → proc.status = .waiting →
    proc.mailbox ≠ [] → s.AwaitsIo pid

theorem Attended.noLostWakeup {d : Debts} (h : Attended d s) {running : Option AgentPid}
    (hunqueued : ∀ pid ∈ d.unqueued, running = some pid) (hunanswered : d.unanswered = []) :
    s.NoLostWakeup running := by
  have htended : ∀ pid proc, s.lookup pid = some proc → Tended d s pid proc.footing := by
    intro pid proc hproc
    exact h.each pid _ (by simp [footing, hproc])
  constructor
  · intro pid proc hproc hrunnable hother
    rcases (htended pid proc hproc).queued hrunnable with hqueued | howed
    · exact hqueued
    · exact absurd (hunqueued pid howed) hother
  · intro pid proc hproc hwaiting hunread
    rcases (htended pid proc hproc).asleep hwaiting with hempty | hio | howed
    · exact absurd hempty hunread
    · exact hio
    · rw [hunanswered] at howed
      contradiction

/-- No wakeup is lost: between the steps of a run, and in a tick after each round of the
process that runs. -/
theorem noLostWakeup_of_served (h : Served code s) :
    s.NoLostWakeup none ∧
    ∀ now order pid picked, s.pick code.toBehaviorCode now order = (some pid, picked) →
      ∀ rounds, NoLostWakeup (some pid) (dispatch code.toBehaviorCode pid rounds
        (picked.modify pid fun proc => { proc with reductions := defaultReductions })
        .none).1 := by
  have hattended := Attended.of_served h
  constructor
  · exact hattended.noLostWakeup (fun _ howed => absurd howed List.not_mem_nil) rfl
  · intro now order pid picked hpick rounds
    rcases hattended.pick code.toBehaviorCode now order with ⟨hnone, _⟩ |
      ⟨other, hother, hrunning⟩
    · rw [hpick] at hnone
      contradiction
    · rw [hpick] at hother hrunning
      obtain rfl := Option.some.inj hother
      obtain ⟨proc, hproc, hrunnable⟩ := hrunning.runnable
      have hstarted : (picked.modify pid fun proc =>
          { proc with reductions := defaultReductions }).lookup pid =
            some { proc with reductions := defaultReductions } := by
        rw [lookup_modify, if_pos rfl, show picked.lookup pid = some proc from hproc]
        rfl
      have hstart : Running pid (picked.modify pid fun proc =>
          { proc with reductions := defaultReductions }) :=
        ⟨hrunning.attended.modify_aside pid fun _ => rfl, _, hstarted, hrunnable⟩
      have hend := dispatch_ends code.toBehaviorCode pid rounds Deferred.none hstart hstarted rfl rfl rfl
      apply hend.attended.noLostWakeup _ rfl
      intro q hq
      rw [List.mem_singleton.mp hq]

/-- A process is started, runs, waits, and is woken by a message. -/
theorem noLostWakeup_of_served_woken :
    ∃ s, (run plainCode (start plainCode.toBehaviorCode (new none none false 1 1) () .null
        .high false) [(0, .call (.tick 0 (.latestFirst plainTypes))),
          (0, .call (.send 1 (.text "a")))]) = some s ∧
      s.queueOf .high = [1] ∧ s.NoLostWakeup none := by
  have hqueue : (run plainCode (start plainCode.toBehaviorCode (new none none false 1 1) ()
      .null .high false) [(0, .call (.tick 0 (.latestFirst plainTypes))),
        (0, .call (.send 1 (.text "a")))]).map (fun s => s.queueOf .high) = some [1] := by
    decide
  obtain ⟨s, hrun, hs⟩ := Option.map_eq_some_iff.mp hqueue
  simp only [run, List.foldlM_cons, List.foldlM_nil, Option.bind_eq_bind,
    Option.bind_eq_some_iff, Option.pure_def, Option.some.injEq] at hrun
  obtain ⟨ticked, htick, sent, hsend, rfl⟩ := hrun
  refine ⟨_, ?_, hs, ?_⟩
  · simp only [run, List.foldlM_cons, List.foldlM_nil, Option.bind_eq_bind,
      Option.bind_eq_some_iff, Option.pure_def, Option.some.injEq]
    exact ⟨ticked, htick, _, hsend, rfl⟩
  · have hstarted : Served plainCode (start plainCode.toBehaviorCode
        (new none none false 1 1) () .null .high false) :=
      Served.start (T := plainTypes) () .null .high false (.new none false 1 1)
    exact (noLostWakeup_of_served
      (.step 0 _ rfl (.step 0 _ rfl hstarted htick) hsend)).1

end AgentScheduler

end Zeptobeam
