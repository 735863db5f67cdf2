/-
Who is in a run queue and who sleeps.  A runnable process has to be queued and a
process that waits has to have nothing to read; an operation that leaves such a debt
open names it, and the operation that pays it takes the name off again.
-/
import Zeptobeam.SchedulerTermination

namespace Zeptobeam

/-- What the run queues look at in a process. -/
structure Footing where
  status : ProcessStatus
  priority : Priority
  mailbox : List Message
  capacity : Nat
  stateless : Bool

/-- A mailbox is never over its capacity, and a process that waits can be given a
message. -/
structure Footing.Roomy (f : Footing) : Prop where
  capacity : 0 < f.capacity
  fits : f.mailbox.length ≤ f.capacity
  waiting : f.status = .waiting → f.mailbox.length < f.capacity

/-- A process after its mailbox took a message. -/
def Footing.given (f : Footing) (msg : Message) : Footing :=
  { f with
    mailbox := f.mailbox ++ [msg]
    status := if f.status = .waiting then .runnable else f.status }

def AgentProcess.footing {T : AgentTypes} (proc : AgentProcess T) : Footing :=
  ⟨proc.status, proc.priority, proc.mailbox, proc.mailboxCapacity, proc.state.isNone⟩

namespace AgentScheduler

variable {T : AgentTypes}

def footing (s : AgentScheduler T) (pid : AgentPid) : Option Footing :=
  (s.lookup pid).map AgentProcess.footing

def queueOf (s : AgentScheduler T) : Priority → List AgentPid
  | .high => s.queueHigh
  | .normal => s.queueNormal
  | .low => s.queueLow

/-- An operation of the process was accepted by the bridge, and its response was not
drained yet. -/
def AwaitsIo (s : AgentScheduler T) (pid : AgentPid) : Prop :=
  ∃ correlationId bridge, .ioAccepted pid correlationId ∈ s.trace ∧
    s.bridge = some bridge ∧ bridge.Pending pid correlationId

/-- What is still owed: pids to put into a queue, pids whose response is on its way, and
pids whose state is lost. -/
structure Debts where
  unqueued : List AgentPid
  unanswered : List AgentPid
  stateless : List AgentPid

def Debts.none : Debts := ⟨[], [], []⟩

/-- Nothing is missing for a process but what is owed. -/
structure Tended (d : Debts) (s : AgentScheduler T) (pid : AgentPid) (f : Footing) :
    Prop where
  queued : f.status = .runnable → pid ∈ s.queueOf f.priority ∨ pid ∈ d.unqueued
  asleep : f.status = .waiting → f.mailbox = [] ∨ s.AwaitsIo pid ∨ pid ∈ d.unanswered
  roomy : f.Roomy
  sound : f.stateless = true → pid ∈ d.stateless

structure Attended (d : Debts) (s : AgentScheduler T) : Prop where
  each : ∀ pid f, s.footing pid = some f → Tended d s pid f
  noHandlers : s.exitHandlers = []
  noHook : s.messageHook = none

/-- Nobody leaves a queue, and no operation is answered. -/
structure Grows (s s' : AgentScheduler T) : Prop where
  queues : ∀ priority, s.queueOf priority ⊆ s'.queueOf priority
  io : ∀ q, s.AwaitsIo q → s'.AwaitsIo q
  exitHandlers : s'.exitHandlers = s.exitHandlers
  messageHook : s'.messageHook = s.messageHook

namespace Grows

variable {s s' : AgentScheduler T}

theorem refl (s : AgentScheduler T) : Grows s s :=
  ⟨fun _ _ h => h, fun _ h => h, rfl, rfl⟩

/-- The registry and other things may change, and events are added. -/
theorem of_same (hhigh : s'.queueHigh = s.queueHigh) (hnormal : s'.queueNormal = s.queueNormal)
    (hlow : s'.queueLow = s.queueLow) (htrace : ∀ event ∈ s.trace, event ∈ s'.trace)
    (hbridge : s'.bridge = s.bridge) (hhandlers : s'.exitHandlers = s.exitHandlers)
    (hhook : s'.messageHook = s.messageHook) : Grows s s' := by
  refine ⟨?_, ?_, hhandlers, hhook⟩
  · intro priority
    cases priority with
    | high => exact (List.Perm.of_eq hhigh.symm).subset
    | normal => exact (List.Perm.of_eq hnormal.symm).subset
    | low => exact (List.Perm.of_eq hlow.symm).subset
  · rintro q ⟨correlationId, bridge, haccepted, hsome, hpending⟩
    exact ⟨correlationId, bridge, htrace _ haccepted, hbridge.trans hsome, hpending⟩

theorem modify (s : AgentScheduler T) (pid : AgentPid)
    (f : AgentProcess T → AgentProcess T) : Grows s (s.modify pid f) :=
  of_same rfl rfl rfl (fun _ h => h) rfl rfl rfl

theorem log (s : AgentScheduler T) (event : Event) : Grows s (s.log event) :=
  of_same rfl rfl rfl (fun _ h => List.mem_append_left _ h) rfl rfl rfl

/-- A change of the bridge that leaves pending what is pending. -/
theorem bridge (s : AgentScheduler T) (bridge' : Bridge)
    (hpending : ∀ old, s.bridge = some old → ∀ pid correlationId,
      old.Pending pid correlationId → bridge'.Pending pid correlationId) :
    Grows s { s with bridge := some bridge' } := by
  refine ⟨?_, ?_, rfl, rfl⟩
  · intro priority
    cases priority with
    | high => exact List.Subset.refl _
    | normal => exact List.Subset.refl _
    | low => exact List.Subset.refl _
  · rintro q ⟨correlationId, old, haccepted, hsome, hold⟩
    exact ⟨correlationId, bridge', haccepted, rfl, hpending old hsome q correlationId hold⟩

end Grows

theorem footing_modify {s : AgentScheduler T} {pid : AgentPid}
    {f : AgentProcess T → AgentProcess T} {g : Footing → Footing}
    (hg : ∀ proc, s.lookup pid = some proc → (f proc).footing = g proc.footing)
    (q : AgentPid) :
    (s.modify pid f).footing q = (s.footing q).map fun r => if q = pid then g r else r := by
  rw [footing, lookup_modify, footing]
  by_cases hq : q = pid
  · subst hq
    cases hproc : s.lookup q with
    | none => simp
    | some proc => simp [hg proc hproc]
  · simp only [if_neg hq, Option.map_id']

theorem queueOf_enqueue (s : AgentScheduler T) (pid : AgentPid) (priority : Priority) :
    (s.enqueue pid).queueOf priority =
      if (s.footing pid).any (·.priority = priority) then s.queueOf priority ++ [pid]
      else s.queueOf priority := by
  unfold enqueue footing
  cases hproc : s.lookup pid with
  | none => simp
  | some proc =>
      cases hpriority : proc.priority <;> cases priority <;>
        simp [AgentProcess.footing, hpriority, queueOf]

theorem enqueue_cases (s : AgentScheduler T) (pid : AgentPid) :
    ∃ queueHigh queueNormal queueLow,
      s.enqueue pid = { s with queueHigh, queueNormal, queueLow } := by
  unfold enqueue
  split
  · exact ⟨_, _, _, rfl⟩
  · split
    · exact ⟨_, _, _, rfl⟩
    · exact ⟨_, _, _, rfl⟩
    · exact ⟨_, _, _, rfl⟩

theorem footing_enqueue (s : AgentScheduler T) (pid q : AgentPid) :
    (s.enqueue pid).footing q = s.footing q := by
  obtain ⟨_, _, _, h⟩ := enqueue_cases s pid
  rw [h]
  rfl

theorem Grows.enqueue (s : AgentScheduler T) (pid : AgentPid) : Grows s (s.enqueue pid) := by
  refine ⟨?_, ?_, ?_, ?_⟩
  · intro priority
    rw [queueOf_enqueue]
    split
    · exact List.subset_append_left _ _
    · exact List.Subset.refl _
  · obtain ⟨_, _, _, h⟩ := enqueue_cases s pid
    rw [h]
    exact fun _ hq => hq
  · obtain ⟨_, _, _, h⟩ := enqueue_cases s pid
    rw [h]
  · obtain ⟨_, _, _, h⟩ := enqueue_cases s pid
    rw [h]

/-! ## How debts arise and are paid -/

namespace Debts

/-- The second list owes at least what the first does. -/
structure Within (d d' : Debts) : Prop where
  unqueued : d.unqueued ⊆ d'.unqueued
  unanswered : d.unanswered ⊆ d'.unanswered
  stateless : d.stateless ⊆ d'.stateless

theorem Within.refl (d : Debts) : Within d d :=
  ⟨List.Subset.refl _, List.Subset.refl _, List.Subset.refl _⟩

/-- Except for one process. -/
structure WithinBut (pid : AgentPid) (d d' : Debts) : Prop where
  unqueued : ∀ q ≠ pid, q ∈ d.unqueued → q ∈ d'.unqueued
  unanswered : ∀ q ≠ pid, q ∈ d.unanswered → q ∈ d'.unanswered
  stateless : ∀ q ≠ pid, q ∈ d.stateless → q ∈ d'.stateless

theorem Within.but {d d' : Debts} (h : Within d d') (pid : AgentPid) : WithinBut pid d d' :=
  ⟨fun _ _ hq => h.unqueued hq, fun _ _ hq => h.unanswered hq,
    fun _ _ hq => h.stateless hq⟩

end Debts

theorem Tended.grow {d d' : Debts} {s s' : AgentScheduler T} {pid : AgentPid} {f : Footing}
    (h : Tended d s pid f) (hgrows : Grows s s')
    (hunqueued : pid ∈ d.unqueued → pid ∈ d'.unqueued)
    (hunanswered : pid ∈ d.unanswered → pid ∈ d'.unanswered)
    (hstateless : pid ∈ d.stateless → pid ∈ d'.stateless) : Tended d' s' pid f := by
  refine ⟨?_, ?_, h.roomy, fun hlost => hstateless (h.sound hlost)⟩
  · intro hrunnable
    rcases h.queued hrunnable with hqueued | howed
    · exact .inl (hgrows.queues _ hqueued)
    · exact .inr (hunqueued howed)
  · intro hwaiting
    rcases h.asleep hwaiting with hempty | hio | howed
    · exact .inl hempty
    · exact .inr (.inl (hgrows.io pid hio))
    · exact .inr (.inr (hunanswered howed))

namespace Attended

variable {d d' : Debts} {s s' : AgentScheduler T} {pid : AgentPid}

/-- One process changes, and what it needs is shown by itself. -/
theorem change (pid : AgentPid) (h : Attended d s) (hgrows : Grows s s')
    (hdebts : d.WithinBut pid d') (hothers : ∀ q ≠ pid, s'.footing q = s.footing q)
    (hmine : ∀ f, s'.footing pid = some f → Tended d' s' pid f) : Attended d' s' := by
  refine ⟨?_, hgrows.exitHandlers.trans h.noHandlers, hgrows.messageHook.trans h.noHook⟩
  intro q f hf
  by_cases hq : q = pid
  · subst hq
    exact hmine f hf
  · rw [hothers q hq] at hf
    exact (h.each q f hf).grow hgrows (hdebts.unqueued q hq) (hdebts.unanswered q hq)
      (hdebts.stateless q hq)

theorem grow (h : Attended d s) (hgrows : Grows s s')
    (hfooting : ∀ q, s'.footing q = s.footing q) : Attended d s' := by
  apply h.change 0 hgrows ((Debts.Within.refl d).but 0) fun q _ => hfooting q
  intro f hf
  rw [hfooting] at hf
  exact (h.each _ f hf).grow hgrows id id id

theorem weaken (h : Attended d s) (hdebts : d.Within d') : Attended d' s := by
  refine ⟨?_, h.noHandlers, h.noHook⟩
  intro q f hf
  exact (h.each q f hf).grow (Grows.refl s) (fun hq => hdebts.unqueued hq)
    (fun hq => hdebts.unanswered hq) (fun hq => hdebts.stateless hq)

/-- Putting a process into its queue pays that debt. -/
theorem enqueue (h : Attended { d with unqueued := pid :: d.unqueued } s) :
    Attended d (s.enqueue pid) := by
  apply h.change pid (Grows.enqueue s pid)
  · exact ⟨fun q hq howed => (List.mem_cons.mp howed).resolve_left hq, fun _ _ howed => howed,
      fun _ _ howed => howed⟩
  · exact fun q _ => footing_enqueue s pid q
  · intro f hf
    rw [footing_enqueue] at hf
    have htended := h.each pid f hf
    have hqueued : pid ∈ (s.enqueue pid).queueOf f.priority := by
      rw [queueOf_enqueue, hf]
      simp
    refine ⟨fun _ => .inl hqueued, ?_, htended.roomy, htended.sound⟩
    intro hwaiting
    rcases htended.asleep hwaiting with hempty | hio | howed
    · exact .inl hempty
    · exact .inr (.inl ((Grows.enqueue s pid).io pid hio))
    · exact .inr (.inr howed)

theorem enqueueAll (pids : List AgentPid)
    (h : Attended { d with unqueued := pids ++ d.unqueued } s) :
    Attended d (pids.foldl AgentScheduler.enqueue s) := by
  induction pids generalizing s with
  | nil => exact h
  | cons pid rest ih => exact ih (enqueue (d := { d with unqueued := rest ++ d.unqueued }) h)

end Attended

theorem footing_deliverMessage {proc delivered : AgentProcess T} {msg : Message}
    (h : proc.deliverMessage msg = some delivered) :
    delivered.footing = proc.footing.given msg ∧
      proc.footing.mailbox.length < proc.footing.capacity := by
  obtain ⟨hroom, rfl⟩ := AgentProcess.deliverMessage_eq_some.mp h
  exact ⟨rfl, hroom⟩

/-- A process that took a message is awake. -/
theorem Tended.given {s s' : AgentScheduler T} {d d' : Debts} {pid : AgentPid} {f : Footing}
    (h : Tended d s pid f) (msg : Message) (hgrows : Grows s s')
    (hroom : f.mailbox.length < f.capacity)
    (hunqueued : pid ∈ d.unqueued → pid ∈ d'.unqueued)
    (hstateless : pid ∈ d.stateless → pid ∈ d'.stateless)
    (hwoken : f.status = .waiting → pid ∈ s'.queueOf f.priority ∨ pid ∈ d'.unqueued) :
    Tended d' s' pid (f.given msg) := by
  have hawake (hwaits : (f.given msg).status = .waiting) : False := by
    by_cases hwaiting : f.status = .waiting
    · rw [Footing.given, if_pos hwaiting] at hwaits
      contradiction
    · rw [Footing.given, if_neg hwaiting] at hwaits
      exact hwaiting hwaits
  refine ⟨?_, fun hwaits => (hawake hwaits).elim,
    ⟨h.roomy.capacity, ?_, fun hwaits => (hawake hwaits).elim⟩,
    fun hlost => hstateless (h.sound hlost)⟩
  · intro hrunnable
    by_cases hwaiting : f.status = .waiting
    · exact hwoken hwaiting
    · rw [Footing.given, if_neg hwaiting] at hrunnable
      rcases h.queued hrunnable with hqueued | howed
      · exact .inl (hgrows.queues _ hqueued)
      · exact .inr (hunqueued howed)
  · simp only [Footing.given, List.length_append, List.length_singleton]
    exact hroom

/-! ## Messages -/

namespace Attended

variable {d : Debts} {s : AgentScheduler T} {pid dest : AgentPid}

theorem log (h : Attended d s) (event : Event) : Attended d (s.log event) :=
  h.grow (Grows.log s event) fun _ => rfl

/-- What a modification does to the process is all there is to show. -/
theorem modify {d' : Debts} (h : Attended d s) {f : AgentProcess T → AgentProcess T}
    {g : Footing → Footing}
    (hg : ∀ proc, s.lookup pid = some proc → (f proc).footing = g proc.footing)
    (hdebts : d.WithinBut pid d')
    (hmine : ∀ r, s.footing pid = some r → Tended d s pid r →
      Tended d' (s.modify pid f) pid (g r)) : Attended d' (s.modify pid f) := by
  apply h.change pid (Grows.modify s pid f) hdebts
  · intro q hq
    rw [footing_modify hg]
    simp [hq]
  · intro r hr
    rw [footing_modify hg] at hr
    simp only [if_true, Option.map_eq_some_iff] at hr
    obtain ⟨r, hr, rfl⟩ := hr
    exact hmine r hr (h.each pid r hr)

/-- A modification the run queues do not see. -/
theorem modify_aside (h : Attended d s) (pid : AgentPid) {f : AgentProcess T → AgentProcess T}
    (hf : ∀ proc, (f proc).footing = proc.footing) : Attended d (s.modify pid f) := by
  apply h.modify (g := id) (fun proc _ => hf proc) ((Debts.Within.refl d).but pid)
  intro r _ htended
  exact htended.grow (Grows.modify s pid f) id id id

/-- What was owed to a process that is gone or awake may be forgotten. -/
theorem paid {s' : AgentScheduler T} (h : Attended { d with unanswered := dest :: d.unanswered } s)
    (hgrows : Grows s s') (hfooting : ∀ q, s'.footing q = s.footing q)
    (hawake : ∀ f, s.footing dest = some f → f.status ≠ .waiting) : Attended d s' := by
  apply h.change dest hgrows _ fun q _ => hfooting q
  · intro f hf
    rw [hfooting] at hf
    have htended := h.each dest f hf
    refine ⟨?_, fun hwaiting => absurd hwaiting (hawake f hf), htended.roomy, htended.sound⟩
    intro hrunnable
    rcases htended.queued hrunnable with hqueued | howed
    · exact .inl (hgrows.queues _ hqueued)
    · exact .inr howed
  · exact ⟨fun _ _ howed => howed, fun q hq howed => (List.mem_cons.mp howed).resolve_left hq,
      fun _ _ howed => howed⟩

/-- Who slept when the message was put in has yet to be queued. -/
theorem delivered {proc after : AgentProcess T} {msg : Message}
    (h : Attended { d with unanswered := dest :: d.unanswered } s)
    (hproc : s.lookup dest = some proc) (hdeliver : proc.deliverMessage msg = some after) :
    Attended { d with
        unqueued := if proc.status = .waiting then dest :: d.unqueued else d.unqueued }
      (s.modify dest fun _ => after) := by
  obtain ⟨hgiven, hroom⟩ := footing_deliverMessage hdeliver
  have hfooting : s.footing dest = some proc.footing := by simp [footing, hproc]
  have hstays : ∀ q, q ∈ d.unqueued →
      q ∈ if proc.status = .waiting then dest :: d.unqueued else d.unqueued := by
    intro q howed
    split
    · exact List.mem_cons_of_mem dest howed
    · exact howed
  apply h.modify (g := (Footing.given · msg))
  · intro other hother
    cases hproc.symm.trans hother
    exact hgiven
  · exact ⟨fun q _ howed => hstays q howed,
      fun q hq howed => (List.mem_cons.mp howed).resolve_left hq, fun _ _ howed => howed⟩
  · intro f hf htended
    cases hfooting.symm.trans hf
    apply htended.given msg (Grows.modify s dest _) hroom
    · exact hstays dest
    · exact id
    · intro hwaiting
      right
      rw [if_pos (by exact hwaiting)]
      exact List.mem_cons_self

/-- A message to a mailbox pays what was owed to it, and wakes who slept. -/
theorem send (h : Attended { d with unanswered := dest :: d.unanswered } s)
    (code : BehaviorCode T) (msg : Message) (origin : Origin) :
    Attended d (s.send code dest msg origin).2 := by
  have hoffer : (s.log (.handed dest msg origin)).offer code dest msg =
      (.ok (), s.log (.handed dest msg origin)) := by
    unfold offer
    rw [show (s.log (.handed dest msg origin)).messageHook = none from h.noHook]
  have hlogged := h.log (.handed dest msg origin)
  unfold AgentScheduler.send
  rw [hoffer]
  dsimp only
  generalize s.log (.handed dest msg origin) = s at hlogged
  unfold route
  cases hproc : s.lookup dest with
  | none =>
      have hdead : ∀ f, s.footing dest = some f → f.status ≠ .waiting := by
        intro f hf
        simp [footing, hproc] at hf
      dsimp only
      split <;>
        exact hlogged.paid (.of_same rfl rfl rfl (fun _ hmem => List.mem_append_left _ hmem) rfl
          rfl rfl) (fun _ => rfl) hdead
  | some proc =>
      have hfooting : s.footing dest = some proc.footing := by simp [footing, hproc]
      have htended := hlogged.each dest _ hfooting
      dsimp only
      cases hdeliver : proc.deliverMessage msg with
      | none =>
          have hfull := AgentProcess.deliverMessage_eq_none.mp hdeliver
          have hawake : ∀ f, s.footing dest = some f → f.status ≠ .waiting := by
            rintro f hf hwaiting
            cases hfooting.symm.trans hf
            exact absurd (htended.roomy.waiting hwaiting) (Nat.not_lt.mpr hfull)
          exact hlogged.paid (.of_same rfl rfl rfl (fun _ hmem => List.mem_append_left _ hmem) rfl
            rfl rfl) (fun _ => rfl) hawake
      | some after =>
          have hput := hlogged.delivered hproc hdeliver
          dsimp only
          have hlast : ∀ {s' : AgentScheduler T} {d' : Debts}, Attended d' s' →
              ∀ metrics, Attended d' { s'.log (.put dest msg) with metrics } := by
            intro s' d' hs' metrics
            exact hs'.grow (.of_same rfl rfl rfl (fun _ hmem => List.mem_append_left _ hmem)
              rfl rfl rfl) fun _ => rfl
          by_cases hwaiting : proc.status = .waiting
          · simp only [if_pos hwaiting] at hput ⊢
            exact (hlast hput _).enqueue
          · simp only [if_neg hwaiting] at hput ⊢
            exact hlast hput _

/-- The same where nothing was owed. -/
theorem send_any (h : Attended d s) (code : BehaviorCode T) (dest : AgentPid)
    (msg : Message) (origin : Origin) : Attended d (s.send code dest msg origin).2 := by
  have howing : Attended { d with unanswered := dest :: d.unanswered } s :=
    h.weaken ⟨List.Subset.refl _, List.subset_cons_self _ _, List.Subset.refl _⟩
  exact howing.send code msg origin

theorem sendAll (messages : List (AgentPid × Message)) (code : BehaviorCode T)
    (origin : Origin)
    (h : Attended { d with unanswered := messages.map Prod.fst ++ d.unanswered } s) :
    Attended d (s.sendAll code origin messages) := by
  induction messages generalizing s with
  | nil => exact h
  | cons message rest ih =>
      exact ih (send (d := { d with unanswered := rest.map Prod.fst ++ d.unanswered }) h code
        message.2 origin)

/-- A message that goes in directly leaves who slept to be queued. -/
theorem deliverDirect (h : Attended d s) (dest : AgentPid) (msg : Message) :
    Attended { d with
      unqueued := if (s.footing dest).any (·.status = .waiting) then dest :: d.unqueued
        else d.unqueued } (s.deliverDirect dest msg) := by
  have hsubset : d.unqueued ⊆ (if (s.footing dest).any (·.status = .waiting) then
      dest :: d.unqueued else d.unqueued) := by
    split
    · exact List.subset_cons_self _ _
    · exact List.Subset.refl _
  have hweak : Attended { d with
      unqueued := if (s.footing dest).any (·.status = .waiting) then dest :: d.unqueued
        else d.unqueued } s :=
    h.weaken ⟨hsubset, List.Subset.refl _, List.Subset.refl _⟩
  unfold AgentScheduler.deliverDirect
  cases hproc : s.lookup dest with
  | none => exact hweak
  | some proc =>
      have hfooting : s.footing dest = some proc.footing := by simp [footing, hproc]
      cases hdeliver : proc.deliverMessage msg with
      | none =>
          simp only [hdeliver]
          exact hweak.log _
      | some delivered =>
          obtain ⟨hgiven, hroom⟩ := footing_deliverMessage hdeliver
          simp only [hdeliver]
          apply log
          apply hweak.modify (g := (Footing.given · msg))
          · intro other hother
            cases hproc.symm.trans hother
            exact hgiven
          · exact (Debts.Within.refl _).but dest
          · intro f hf htended
            cases hfooting.symm.trans hf
            apply htended.given msg (Grows.modify s dest _) hroom id id
            intro hwaiting
            right
            simp [hfooting, hwaiting]

end Attended

end AgentScheduler

end Zeptobeam
