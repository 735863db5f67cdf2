/-
The scheduler of the virtual machine: three run queues, two wait sets and the process that
runs.  A process records its queue, and wakes up on a message according to this record, but
nothing ever writes it.
-/
import Mathlib.Data.Finset.Basic
import Zeptobeam.SelectiveReceive

namespace Zeptobeam

namespace Emulator

inductive Prio where
  | low
  | normal
  | high
deriving DecidableEq, Repr

/-- Where a process is registered. -/
inductive Queue where
  | none
  | high
  | normal
  | low
  | timedWait
  | infiniteWait
deriving DecidableEq, Repr

inductive SliceResult where
  | none
  | yield
  | infiniteWait
  | finished
  | exception
deriving DecidableEq, Repr

inductive ScheduleHint where
  | continueSameProcess
  | takeAnotherProcess
deriving DecidableEq, Repr

/-- What the scheduler looks at in a process; `catchFound` is whether the stack, unrolled,
has a catch on it. -/
structure Process (M : Type) where
  prio : Prio
  currentQueue : Queue
  mailbox : ProcessMailbox M
  timesliceResult : SliceResult
  isFailed : Bool
  numCatches : Int
  catchFound : Bool
  trapExit : Bool

structure Scheduler where
  queueLow : List Nat
  queueNormal : List Nat
  queueHigh : List Nat
  timedWait : Finset Nat
  infiniteWait : Finset Nat
  advantageCount : Nat
  current : Option Nat

namespace Scheduler

def new : Scheduler :=
  ⟨[], [], [], ∅, ∅, 0, none⟩

def normalAdvantage : Nat := 8

def queueOf (s : Scheduler) : Prio → List Nat
  | .low => s.queueLow
  | .normal => s.queueNormal
  | .high => s.queueHigh

def setQueue (s : Scheduler) (prio : Prio) (pids : List Nat) : Scheduler :=
  match prio with
  | .low => { s with queueLow := pids }
  | .normal => { s with queueNormal := pids }
  | .high => { s with queueHigh := pids }

def pushBack (s : Scheduler) (prio : Prio) (pid : Nat) : Scheduler :=
  match prio with
  | .normal => { s with queueNormal := s.queueNormal ++ [pid] }
  | .low => { s with queueLow := s.queueLow ++ [pid] }
  | .high => { s with queueHigh := s.queueHigh ++ [pid] }

def enqueueWait (s : Scheduler) (infinite : Bool) (pid : Nat) : Scheduler :=
  if infinite then { s with infiniteWait := insert pid s.infiniteWait }
  else { s with timedWait := insert pid s.timedWait }

def leaveWaits (s : Scheduler) (pid : Nat) : Scheduler :=
  { s with timedWait := s.timedWait.erase pid, infiniteWait := s.infiniteWait.erase pid }

/-- The next process, as `current`: a high one first, and low ones before normal ones only
once the queues were found empty so often. -/
def pickFromTheQueues (s : Scheduler) : Scheduler :=
  match s.queueHigh with
  | pid :: rest => { s with queueHigh := rest, current := some pid }
  | [] =>
      if s.advantageCount < normalAdvantage then
        match s.queueNormal, s.queueLow with
        | pid :: rest, _ => { s with queueNormal := rest, current := some pid }
        | [], pid :: rest => { s with queueLow := rest, current := some pid }
        | [], [] => { s with advantageCount := s.advantageCount + 1, current := none }
      else
        match s.queueLow, s.queueNormal with
        | pid :: rest, _ => { s with queueLow := rest, current := some pid }
        | [], pid :: rest => { s with queueNormal := rest, current := some pid }
        | [], [] => { s with advantageCount := 0, current := none }

def Waits (s : Scheduler) (pid : Nat) : Prop :=
  pid ∈ s.timedWait ∨ pid ∈ s.infiniteWait

instance (s : Scheduler) (pid : Nat) : Decidable (s.Waits pid) :=
  inferInstanceAs (Decidable (_ ∨ _))

def running (s : Scheduler) (pid : Nat) : Nat :=
  if s.current = some pid then 1 else 0

def queued (s : Scheduler) (pid : Nat) : Nat :=
  s.queueLow.count pid + s.queueNormal.count pid + s.queueHigh.count pid

def waiting (s : Scheduler) (pid : Nat) : Nat :=
  (if pid ∈ s.timedWait then 1 else 0) + if pid ∈ s.infiniteWait then 1 else 0

/-- In how many places the process is. -/
def places (s : Scheduler) (pid : Nat) : Nat :=
  s.running pid + s.queued pid + s.waiting pid

/-- Once nobody is running. -/
def vacate (s : Scheduler) : Scheduler :=
  { s with current := none }

section Places

variable (s : Scheduler) (pid other : Nat)

theorem waiting_eq_zero_iff : s.waiting pid = 0 ↔ ¬ s.Waits pid := by
  unfold waiting Waits
  split <;> split <;> simp_all

theorem queued_eq_zero_iff : s.queued pid = 0 ↔ ∀ prio, pid ∉ s.queueOf prio := by
  constructor
  · intro h prio hmem
    have hcount := List.count_pos_iff.mpr hmem
    cases prio <;> simp only [queueOf, queued] at hcount h <;> omega
  · intro h
    have hlow := List.count_eq_zero.mpr (h .low)
    have hnormal := List.count_eq_zero.mpr (h .normal)
    have hhigh := List.count_eq_zero.mpr (h .high)
    simp only [queueOf] at hlow hnormal hhigh
    simp only [queued, hlow, hnormal, hhigh]

theorem places_vacate : s.places other = s.vacate.places other + s.running other := by
  have hnobody : s.vacate.running other = 0 := rfl
  have hqueued : s.vacate.queued other = s.queued other := rfl
  have hwaiting : s.vacate.waiting other = s.waiting other := rfl
  simp only [places, hnobody, hqueued, hwaiting]
  omega

theorem queued_pushBack (prio : Prio) :
    (s.pushBack prio pid).queued other = s.queued other + if pid = other then 1 else 0 := by
  cases prio <;> simp only [queued, pushBack, List.count_append, List.count_singleton,
    beq_iff_eq] <;> omega

theorem places_pushBack (prio : Prio) :
    (s.pushBack prio pid).places other = s.places other + if pid = other then 1 else 0 := by
  have hrunning : (s.pushBack prio pid).running other = s.running other := by
    cases prio <;> rfl
  have hwaiting : (s.pushBack prio pid).waiting other = s.waiting other := by
    cases prio <;> rfl
  rw [places, queued_pushBack, hrunning, hwaiting, places]
  omega

theorem places_enqueueWait (hpid : ¬ s.Waits pid) :
    (s.enqueueWait true pid).places other = s.places other + if pid = other then 1 else 0 := by
  have hrunning : (s.enqueueWait true pid).running other = s.running other := rfl
  have hqueued : (s.enqueueWait true pid).queued other = s.queued other := rfl
  have hwaiting : (s.enqueueWait true pid).waiting other
      = s.waiting other + if pid = other then 1 else 0 := by
    have hout := (not_or.mp hpid).2
    by_cases hother : pid = other
    · subst hother
      simp [waiting, enqueueWait, hout]
    · simp [waiting, enqueueWait, hother, Ne.symm hother]
  rw [places, hrunning, hqueued, hwaiting, places]
  omega

theorem leaveWaits_of_not_waits (hpid : ¬ s.Waits pid) : s.leaveWaits pid = s := by
  obtain ⟨htimed, hinfinite⟩ := not_or.mp hpid
  rw [leaveWaits, Finset.erase_eq_of_notMem htimed, Finset.erase_eq_of_notMem hinfinite]

/-- What a pick does: it takes the first process of a queue, if it finds one. -/
theorem pickFromTheQueues_cases :
    (∃ prio pid rest, s.queueOf prio = pid :: rest ∧
      s.pickFromTheQueues = { s.setQueue prio rest with current := some pid }) ∨
    ∃ count, s.pickFromTheQueues = { s.vacate with advantageCount := count } := by
  unfold pickFromTheQueues
  split
  next pid rest hhigh => exact .inl ⟨.high, pid, rest, hhigh, rfl⟩
  next =>
    split
    next =>
      split
      next pid rest hnormal => exact .inl ⟨.normal, pid, rest, hnormal, rfl⟩
      next pid rest _ hlow => exact .inl ⟨.low, pid, rest, hlow, rfl⟩
      next => exact .inr ⟨_, rfl⟩
    next =>
      split
      next pid rest hlow => exact .inl ⟨.low, pid, rest, hlow, rfl⟩
      next pid rest _ hnormal => exact .inl ⟨.normal, pid, rest, hnormal, rfl⟩
      next => exact .inr ⟨_, rfl⟩

theorem places_pickFromTheQueues :
    s.pickFromTheQueues.places other = s.vacate.places other := by
  rcases s.pickFromTheQueues_cases with ⟨prio, pid, rest, hqueue, hpick⟩ | ⟨count, hpick⟩
  · rw [hpick]
    have hwaiting : (setQueue s prio rest).waiting other = s.waiting other := by
      cases prio <;> rfl
    have hqueued : (setQueue s prio rest).queued other + (if pid = other then 1 else 0)
        = s.queued other := by
      cases prio <;> simp only [queueOf] at hqueue <;>
        simp only [queued, setQueue, hqueue, List.count_cons, beq_iff_eq] <;> omega
    have hrunning : ({ setQueue s prio rest with current := some pid } : Scheduler).running other
        = if pid = other then 1 else 0 := by
      simp [running]
    change Scheduler.running _ other + (setQueue s prio rest).queued other
      + (setQueue s prio rest).waiting other = 0 + s.queued other + s.waiting other
    rw [hrunning, hwaiting]
    omega
  · rw [hpick]
    rfl

theorem mem_of_mem_pick {prio : Prio} (h : pid ∈ s.pickFromTheQueues.queueOf prio) :
    pid ∈ s.queueOf prio := by
  rcases s.pickFromTheQueues_cases with ⟨from', head, rest, hqueue, hpick⟩ | ⟨count, hpick⟩
  · rw [hpick] at h
    cases from' <;> cases prio <;> simp only [queueOf, setQueue] at h hqueue ⊢ <;>
      first | exact h | (rw [hqueue]; exact List.mem_cons_of_mem _ h)
  · rw [hpick] at h
    cases prio <;> exact h

theorem waits_pickFromTheQueues : s.pickFromTheQueues.Waits pid ↔ s.Waits pid := by
  rcases s.pickFromTheQueues_cases with ⟨prio, head, rest, -, hpick⟩ | ⟨count, hpick⟩
  · rw [hpick]
    cases prio <;> exact Iff.rfl
  · rw [hpick]
    exact Iff.rfl

theorem mem_queueOf_pushBack {prio own : Prio} :
    other ∈ (s.pushBack own pid).queueOf prio ↔
      other ∈ s.queueOf prio ∨ (prio = own ∧ other = pid) := by
  cases prio <;> cases own <;> simp [queueOf, pushBack]

end Places

end Scheduler

/-- The step does not happen here, or an assertion fails. -/
inductive VmStop where
  | notNow
  | panic
deriving DecidableEq, Repr

structure VM (M : Type) where
  pidCounter : Nat
  scheduler : Scheduler
  processes : Nat → Option (Process M)
  /-- Whether a timeslice is in progress. -/
  inSlice : Bool

/-- What a running process does to its mailbox. -/
inductive MailboxCall where
  | stepOver
  | removeCurrent
  | resetReadIndex
deriving DecidableEq, Repr

def MailboxCall.run {M : Type} (mailbox : ProcessMailbox M) :
    MailboxCall → Option (ProcessMailbox M)
  | .stepOver => mailbox.stepOver
  | .removeCurrent => mailbox.removeCurrent.map Prod.snd
  | .resetReadIndex => some mailbox.resetReadIndex

inductive VmOp (M : Type) where
  | spawn (prio : Prio) (trapExit : Bool)
  /-- The code of the new process is not found, after it was given a pid. -/
  | spawnFailed
  | send (pid : Nat) (message : M)
  | mailbox (call : MailboxCall)
  /-- The catches of the running process, and whether its stack has one. -/
  | catches (numCatches : Int) (catchFound : Bool)
  | processFlag (pid : Nat) (trapExit : Bool)
  | endSlice (result : SliceResult)
  | nextProcess

namespace VM

variable {M : Type}

def new : VM M :=
  ⟨0, Scheduler.new, fun _ => none, false⟩

def setProcess (vm : VM M) (pid : Nat) (process : Option (Process M)) : VM M :=
  { vm with processes := fun other => if other = pid then process else vm.processes other }

def enqueueOpt (vm : VM M) (pid : Nat) (skipQueueCheck : Bool) : Except VmStop (VM M) :=
  match vm.processes pid with
  | none => .error .panic
  | some p =>
      if skipQueueCheck = false ∧ p.currentQueue ≠ .none then .error .panic
      else .ok { vm with scheduler := vm.scheduler.pushBack p.prio pid }

def enqueue (vm : VM M) (pid : Nat) : Except VmStop (VM M) :=
  vm.enqueueOpt pid false

def terminateProcess (vm : VM M) (pid : Nat) : Except VmStop (VM M) :=
  match vm.processes pid with
  | none => .error .panic
  | some p =>
      if p.currentQueue ≠ .none then .error .panic
      else if pid ∈ vm.scheduler.queueNormal ∨ pid ∈ vm.scheduler.queueLow ∨
          pid ∈ vm.scheduler.queueHigh then .error .panic
      else .ok { vm.setProcess pid none with scheduler := vm.scheduler.leaveWaits pid }

def vacate (vm : VM M) : VM M :=
  { vm with scheduler := vm.scheduler.vacate }

/-- A process that failed goes on at a catch, or ends. -/
def handleProcessException (vm : VM M) (pid : Nat) (p : Process M) :
    Except VmStop (ScheduleHint × VM M) :=
  if p.isFailed = false then .error .panic
  else if p.numCatches ≤ 0 then do
    return (.takeAnotherProcess, (← vm.terminateProcess pid).vacate)
  else if p.catchFound then .ok (.continueSameProcess, vm)
  else if p.trapExit then .error .panic
  else do
    return (.takeAnotherProcess, (← vm.terminateProcess pid).vacate)

/-- What became of the process that had the last timeslice. -/
def nextProcessFinalizePrevious (vm : VM M) (pid : Nat) :
    Except VmStop (ScheduleHint × VM M) :=
  match vm.processes pid with
  | none => .error .panic
  | some p =>
      if p.currentQueue ≠ .none then .error .panic
      else
        match p.timesliceResult with
        | .yield | .none => do
            return (.takeAnotherProcess, (← vm.enqueue pid).vacate)
        | .finished => do
            return (.takeAnotherProcess, ← vm.terminateProcess pid)
        | .exception => vm.handleProcessException pid p
        | .infiniteWait =>
            -- with a message to read it is put nowhere
            if p.mailbox.haveUnreadMessages then .ok (.takeAnotherProcess, vm)
            else .ok (.takeAnotherProcess,
              { vm with scheduler := vm.scheduler.enqueueWait true pid })

def pick (vm : VM M) : VM M :=
  let scheduler := vm.scheduler.pickFromTheQueues
  { vm with scheduler, inSlice := scheduler.current.isSome }

def nextProcess (vm : VM M) : Except VmStop (VM M) :=
  match vm.scheduler.current with
  | none => .ok vm.pick
  | some prevPid => do
      let (hint, vm) ← vm.nextProcessFinalizePrevious prevPid
      return if hint = .continueSameProcess then { vm with inSlice := true } else vm.pick

/-- A process that is on record as waiting leaves the wait set for a queue. -/
def notifyNewIncomingMessage (vm : VM M) (pid : Nat) (p : Process M) : Except VmStop (VM M) :=
  match p.currentQueue with
  | .infiniteWait =>
      { vm with scheduler := { vm.scheduler with
        infiniteWait := vm.scheduler.infiniteWait.erase pid } }.enqueueOpt pid true
  | .timedWait =>
      { vm with scheduler := { vm.scheduler with
        timedWait := vm.scheduler.timedWait.erase pid } }.enqueueOpt pid true
  | _ => .ok vm

def deliverMessage (vm : VM M) (pid : Nat) (p : Process M) (message : M) :
    Except VmStop (VM M) :=
  let p := { p with mailbox := p.mailbox.put message }
  (vm.setProcess pid (some p)).notifyNewIncomingMessage pid p

/-- Put a new process under the next pid. -/
def createProcess (vm : VM M) (prio : Prio) (trapExit : Bool) : Except VmStop (VM M) :=
  let pid := vm.pidCounter
  let p : Process M :=
    ⟨prio, .none, ProcessMailbox.new, .none, false, 0, false, trapExit⟩
  ({ vm with pidCounter := pid + 1 }.setProcess pid (some p)).enqueue pid

/-- Change the process that has the timeslice. -/
def changeCurrent (vm : VM M) (change : Process M → Option (Process M)) :
    Except VmStop (VM M) :=
  match vm.scheduler.current with
  | none => .error .notNow
  | some pid =>
      match vm.processes pid with
      | none => .error .notNow
      | some p =>
          match change p with
          | none => .error .panic
          | some p => .ok (vm.setProcess pid (some p))

def step (vm : VM M) : VmOp M → Except VmStop (VM M)
  | .spawn prio trapExit => vm.createProcess prio trapExit
  | .spawnFailed => .ok { vm with pidCounter := vm.pidCounter + 1 }
  | .send pid message =>
      if vm.inSlice = false then .error .notNow
      else
        match vm.processes pid with
        | none => .ok vm
        | some p => vm.deliverMessage pid p message
  | .mailbox call =>
      if vm.inSlice = false then .error .notNow
      else vm.changeCurrent fun p =>
        (call.run p.mailbox).map fun mailbox => { p with mailbox }
  | .catches numCatches catchFound =>
      if vm.inSlice = false then .error .notNow
      else vm.changeCurrent fun p => some { p with numCatches, catchFound }
  | .processFlag pid trapExit =>
      match vm.processes pid with
      | none => .ok vm
      | some p => .ok (vm.setProcess pid (some { p with trapExit }))
  | .endSlice result =>
      if vm.inSlice = false then .error .notNow
      else do
        let vm ← vm.changeCurrent fun p => some { p with
          timesliceResult := result
          isFailed := p.isFailed || result = .exception }
        return { vm with inSlice := false }
  | .nextProcess =>
      if vm.inSlice then .error .notNow else vm.nextProcess

/-! ## Placement -/

/-- Each live process is in one place, if in a queue then in that of its priority, and none
that waits has a message to read. -/
def Placed (vm : VM M) : Prop :=
  ∀ pid p, vm.processes pid = some p →
    vm.scheduler.places pid = 1 ∧
    (∀ prio, pid ∈ vm.scheduler.queueOf prio → p.prio = prio) ∧
    (vm.scheduler.Waits pid → p.mailbox.haveUnreadMessages = false)

/-- No message is sent to a process that waits, and no process is to wait that has a message
to read. -/
def Safe (vm : VM M) : VmOp M → Prop
  | .send pid _ => ¬ vm.scheduler.Waits pid
  | .nextProcess => ∀ pid p, vm.scheduler.current = some pid → vm.processes pid = some p →
      p.timesliceResult = .infiniteWait → p.mailbox.haveUnreadMessages = false
  | _ => True

structure Inv (vm : VM M) : Prop where
  places : ∀ pid, vm.scheduler.places pid = if (vm.processes pid).isSome then 1 else 0
  fresh : ∀ pid, vm.pidCounter ≤ pid → vm.processes pid = none
  unqueued : ∀ pid p, vm.processes pid = some p → p.currentQueue = .none
  own : ∀ pid p, vm.processes pid = some p → ∀ prio, pid ∈ vm.scheduler.queueOf prio →
    p.prio = prio
  inBounds : ∀ pid p, vm.processes pid = some p → p.mailbox.InBounds
  seen : ∀ pid p, vm.processes pid = some p → vm.scheduler.Waits pid →
    p.mailbox.haveUnreadMessages = false

section Inv

variable {vm vm' : VM M} {pid other : Nat} {p p' : Process M}

theorem inv_new : (new : VM M).Inv where
  places := fun _ => rfl
  fresh := fun _ _ => rfl
  unqueued := fun _ _ h => nomatch h
  own := fun _ _ h => nomatch h
  inBounds := fun _ _ h => nomatch h
  seen := fun _ _ h => nomatch h

theorem Inv.placed (h : vm.Inv) : vm.Placed := by
  intro pid p hp
  refine ⟨?_, h.own pid p hp, h.seen pid p hp⟩
  rw [h.places, hp]
  rfl

theorem setProcess_processes (vm : VM M) (process : Option (Process M)) :
    (vm.setProcess pid process).processes other =
      if other = pid then process else vm.processes other := rfl

theorem Inv.live_of_places (h : vm.Inv) (hpid : vm.scheduler.places pid ≠ 0) :
    ∃ p, vm.processes pid = some p := by
  apply Option.isSome_iff_exists.mp
  by_contra hnone
  rw [h.places, if_neg hnone] at hpid
  exact hpid rfl

/-- A running process is in no queue and waits for nothing. -/
theorem Inv.current (h : vm.Inv) (hcurrent : vm.scheduler.current = some pid) :
    (∃ p, vm.processes pid = some p) ∧ (∀ prio, pid ∉ vm.scheduler.queueOf prio) ∧
      ¬ vm.scheduler.Waits pid := by
  have hrunning : vm.scheduler.running pid = 1 := by simp [Scheduler.running, hcurrent]
  obtain ⟨p, hp⟩ : ∃ p, vm.processes pid = some p := by
    apply h.live_of_places
    unfold Scheduler.places
    omega
  have hplaces := h.places pid
  rw [hp] at hplaces
  simp only [Scheduler.places, hrunning, Option.isSome_some, if_true] at hplaces
  refine ⟨⟨p, hp⟩, ?_, ?_⟩
  · rw [← Scheduler.queued_eq_zero_iff]
    omega
  · rw [← Scheduler.waiting_eq_zero_iff]
    omega

/-- A change of a process where it is. -/
theorem Inv.setProcess (h : vm.Inv) (hp : vm.processes pid = some p)
    (hprio : p'.prio = p.prio) (hqueue : p'.currentQueue = p.currentQueue)
    (hbounds : p'.mailbox.InBounds)
    (hseen : vm.scheduler.Waits pid → p'.mailbox.haveUnreadMessages = false) :
    (vm.setProcess pid (some p')).Inv where
  places := by
    intro other
    rw [setProcess_processes]
    by_cases hother : other = pid
    · have hplaces := h.places pid
      rw [hp] at hplaces
      rw [if_pos hother, hother]
      exact hplaces
    · rw [if_neg hother]
      exact h.places other
  fresh := by
    intro other hother
    rw [setProcess_processes]
    have hnone := h.fresh other hother
    by_cases heq : other = pid
    · rw [heq, hp] at hnone
      cases hnone
    · rwa [if_neg heq]
  unqueued := by
    intro other q hq
    rw [setProcess_processes] at hq
    split at hq
    · cases hq
      rw [hqueue]
      exact h.unqueued pid p hp
    · exact h.unqueued other q hq
  own := by
    intro other q hq prio hmem
    rw [setProcess_processes] at hq
    split at hq
    next heq =>
      cases hq
      rw [hprio]
      exact h.own pid p hp prio (heq ▸ hmem)
    next => exact h.own other q hq prio hmem
  inBounds := by
    intro other q hq
    rw [setProcess_processes] at hq
    split at hq
    · cases hq
      exact hbounds
    · exact h.inBounds other q hq
  seen := by
    intro other q hq hwaits
    rw [setProcess_processes] at hq
    split at hq
    next heq =>
      cases hq
      exact hseen (heq ▸ hwaits)
    next => exact h.seen other q hq hwaits

theorem enqueue_eq (hp : vm.processes pid = some p) (hqueue : p.currentQueue = .none) :
    vm.enqueue pid = .ok { vm with scheduler := vm.scheduler.pushBack p.prio pid } := by
  simp [enqueue, enqueueOpt, hp, hqueue]

/-- A process that is in no place is put into its queue. -/
theorem Inv.createProcess (h : vm.Inv) (prio : Prio) (trapExit : Bool) :
    ∃ vm', vm.createProcess prio trapExit = .ok vm' ∧ vm'.Inv := by
  let p : Process M := ⟨prio, .none, ProcessMailbox.new, .none, false, 0, false, trapExit⟩
  let registered := { vm with pidCounter := vm.pidCounter + 1 }.setProcess vm.pidCounter (some p)
  have hp : registered.processes vm.pidCounter = some p := if_pos rfl
  have hnone := h.fresh vm.pidCounter le_rfl
  have hnowhere : ¬ vm.scheduler.Waits vm.pidCounter ∧
      ∀ prio, vm.pidCounter ∉ vm.scheduler.queueOf prio := by
    have hplaces := h.places vm.pidCounter
    rw [hnone] at hplaces
    simp only [Scheduler.places, Option.isSome_none, Bool.false_eq_true, if_false] at hplaces
    rw [← Scheduler.waiting_eq_zero_iff, ← Scheduler.queued_eq_zero_iff]
    omega
  have hwaits : ∀ other, (vm.scheduler.pushBack prio vm.pidCounter).Waits other ↔
      vm.scheduler.Waits other := by
    intro other
    cases prio <;> exact Iff.rfl
  refine ⟨_, enqueue_eq hp rfl, ?_⟩
  constructor
  · intro other
    change (vm.scheduler.pushBack prio vm.pidCounter).places other =
      if (registered.processes other).isSome then 1 else 0
    rw [Scheduler.places_pushBack, h.places]
    by_cases hother : vm.pidCounter = other
    · simp [← hother, hnone, hp]
    · simp [registered, setProcess_processes, hother, Ne.symm hother]
  · intro other hother
    change registered.processes other = none
    have hlt : vm.pidCounter + 1 ≤ other := hother
    rw [setProcess_processes, if_neg (by omega)]
    exact h.fresh other (by omega)
  all_goals
    intro other q hq
    change registered.processes other = some q at hq
    rw [setProcess_processes] at hq
  · split at hq
    · cases hq
      rfl
    · exact h.unqueued other q hq
  · intro queue hmem
    rw [Scheduler.mem_queueOf_pushBack] at hmem
    split at hq
    next heq =>
      cases hq
      rcases hmem with hmem | ⟨rfl, -⟩
      · exact absurd (heq ▸ hmem) (hnowhere.2 queue)
      · rfl
    next hne =>
      rcases hmem with hmem | ⟨-, heq⟩
      · exact h.own other q hq queue hmem
      · exact absurd heq hne
  · split at hq
    · cases hq
      exact Nat.zero_le _
    · exact h.inBounds other q hq
  · intro hother
    have hother := (hwaits other).mp hother
    split at hq
    next heq => exact absurd (heq ▸ hother) hnowhere.1
    next => exact h.seen other q hq hother

/-- A process that runs leaves its slot for a queue. -/
theorem Inv.requeue (h : vm.Inv) (hcurrent : vm.scheduler.current = some pid)
    (hp : vm.processes pid = some p) :
    (vacate { vm with scheduler := vm.scheduler.pushBack p.prio pid }).Inv where
  places := by
    intro other
    have hplaces := Scheduler.places_vacate (vm.scheduler.pushBack p.prio pid) other
    have hrunning : (vm.scheduler.pushBack p.prio pid).running other
        = if pid = other then 1 else 0 := by
      cases p.prio <;> simp [Scheduler.running, Scheduler.pushBack, hcurrent]
    rw [Scheduler.places_pushBack, hrunning, h.places] at hplaces
    exact (Nat.add_right_cancel hplaces).symm
  fresh := h.fresh
  unqueued := h.unqueued
  own := by
    intro other q hq prio hmem
    have hmem : other ∈ (vm.scheduler.pushBack p.prio pid).queueOf prio := by
      cases prio <;> exact hmem
    rcases (Scheduler.mem_queueOf_pushBack _ _ _).mp hmem with hmem | ⟨rfl, rfl⟩
    · exact h.own other q hq prio hmem
    · have heq := hp.symm.trans hq
      rw [Option.some.inj heq]
  inBounds := h.inBounds
  seen := by
    intro other q hq hwaits
    have hwaits : vm.scheduler.Waits other := by
      cases hprio : p.prio <;> rw [hprio] at hwaits <;> exact hwaits
    exact h.seen other q hq hwaits

/-- A process that runs leaves its slot to wait. -/
theorem Inv.wait (h : vm.Inv) (hcurrent : vm.scheduler.current = some pid)
    (hp : vm.processes pid = some p) (hread : p.mailbox.haveUnreadMessages = false) :
    (vacate { vm with scheduler := vm.scheduler.enqueueWait true pid }).Inv where
  places := by
    intro other
    have hplaces := Scheduler.places_vacate (vm.scheduler.enqueueWait true pid) other
    have hrunning : (vm.scheduler.enqueueWait true pid).running other
        = if pid = other then 1 else 0 := by
      simp [Scheduler.running, Scheduler.enqueueWait, hcurrent]
    rw [Scheduler.places_enqueueWait _ _ _ (h.current hcurrent).2.2, hrunning, h.places]
      at hplaces
    exact (Nat.add_right_cancel hplaces).symm
  fresh := h.fresh
  unqueued := h.unqueued
  own := h.own
  inBounds := h.inBounds
  seen := by
    intro other q hq hwaits
    have hwaits : vm.scheduler.Waits other ∨ other = pid := by
      simp only [Scheduler.Waits, vacate, Scheduler.vacate, Scheduler.enqueueWait, if_true,
        Finset.mem_insert] at hwaits ⊢
      tauto
    rcases hwaits with hwaits | rfl
    · exact h.seen other q hq hwaits
    · have heq := hp.symm.trans hq
      rw [← Option.some.inj heq]
      exact hread

theorem Inv.terminate (h : vm.Inv) (hcurrent : vm.scheduler.current = some pid) :
    ∃ vm', vm.terminateProcess pid = .ok vm' ∧ vm'.vacate.Inv := by
  obtain ⟨⟨p, hp⟩, hqueues, hwaits⟩ := h.current hcurrent
  have hterminate : vm.terminateProcess pid = .ok (vm.setProcess pid none) := by
    have hnormal := hqueues .normal
    have hlow := hqueues .low
    have hhigh := hqueues .high
    simp only [Scheduler.queueOf] at hnormal hlow hhigh
    simp [terminateProcess, hp, h.unqueued pid p hp, hnormal, hlow, hhigh,
      Scheduler.leaveWaits_of_not_waits _ _ hwaits]
    rfl
  refine ⟨_, hterminate, ?_⟩
  constructor
  · intro other
    have hplaces := Scheduler.places_vacate vm.scheduler other
    rw [h.places] at hplaces
    change vm.scheduler.vacate.places other =
      if ((vm.setProcess pid none).processes other).isSome then 1 else 0
    rw [setProcess_processes]
    by_cases hother : other = pid
    · have hrunning : vm.scheduler.running other = 1 := by
        simp [Scheduler.running, hcurrent, hother]
      rw [hother, hp, ← hother, hrunning] at hplaces
      simp only [Option.isSome_some, if_true] at hplaces
      rw [if_pos hother]
      simp
      omega
    · have hrunning : vm.scheduler.running other = 0 := by
        simp [Scheduler.running, hcurrent, Ne.symm hother]
      rw [hrunning] at hplaces
      rw [if_neg hother]
      exact hplaces.symm
  · intro other hother
    change (vm.setProcess pid none).processes other = none
    rw [setProcess_processes]
    split
    · rfl
    · exact h.fresh other hother
  all_goals
    intro other q hq
    change (vm.setProcess pid none).processes other = some q at hq
    rw [setProcess_processes] at hq
    split at hq
    · cases hq
  · exact h.unqueued other q hq
  · exact h.own other q hq
  · exact h.inBounds other q hq
  · exact h.seen other q hq

/-- The previous process goes on, or leaves its slot. -/
theorem Inv.finalizePrevious {hint : ScheduleHint} (h : vm.Inv)
    (hcurrent : vm.scheduler.current = some pid) (hsafe : vm.Safe .nextProcess)
    (hok : vm.nextProcessFinalizePrevious pid = .ok (hint, vm')) :
    (hint = .continueSameProcess ∧ vm' = vm) ∨
      (hint = .takeAnotherProcess ∧ vm'.vacate.Inv) := by
  obtain ⟨⟨p, hp⟩, -, -⟩ := h.current hcurrent
  have hqueue := h.unqueued pid p hp
  obtain ⟨ended, hended, hinv⟩ := h.terminate hcurrent
  unfold nextProcessFinalizePrevious at hok
  simp only [hp, hqueue, ne_eq, not_true_eq_false, if_false] at hok
  cases hresult : p.timesliceResult with
  | none | yield =>
      rw [hresult, enqueue_eq hp hqueue] at hok
      cases hok
      exact .inr ⟨rfl, h.requeue hcurrent hp⟩
  | finished =>
      rw [hresult, hended] at hok
      cases hok
      exact .inr ⟨rfl, hinv⟩
  | exception =>
      rw [hresult] at hok
      simp only [handleProcessException, hended] at hok
      split at hok
      · cases hok
      split at hok
      · cases hok
        exact .inr ⟨rfl, hinv⟩
      split at hok
      · cases hok
        exact .inl ⟨rfl, rfl⟩
      split at hok
      · cases hok
      · cases hok
        exact .inr ⟨rfl, hinv⟩
  | infiniteWait =>
      have hread := hsafe pid p hcurrent hp hresult
      rw [hresult] at hok
      simp only [hread, Bool.false_eq_true, if_false] at hok
      cases hok
      exact .inr ⟨rfl, h.wait hcurrent hp hread⟩

/-- The next process leaves its queue to run. -/
theorem Inv.pick (h : vm.vacate.Inv) : vm.pick.Inv where
  places := by
    intro other
    change vm.scheduler.pickFromTheQueues.places other = _
    rw [Scheduler.places_pickFromTheQueues]
    exact h.places other
  fresh := h.fresh
  unqueued := h.unqueued
  own := fun other q hq prio hmem => h.own other q hq prio
    (by
      have hmem := Scheduler.mem_of_mem_pick _ _ hmem
      cases prio <;> exact hmem)
  inBounds := h.inBounds
  seen := fun other q hq hwaits => h.seen other q hq
    ((Scheduler.waits_pickFromTheQueues _ _).mp hwaits)

/-- A change of the running process that leaves its priority and its queue. -/
theorem Inv.changeCurrent (h : vm.Inv) {change : Process M → Option (Process M)}
    (hchange : ∀ p p', change p = some p' → p'.prio = p.prio ∧
      p'.currentQueue = p.currentQueue ∧ (p.mailbox.InBounds → p'.mailbox.InBounds))
    (hok : vm.changeCurrent change = .ok vm') : vm'.Inv := by
  unfold VM.changeCurrent at hok
  split at hok
  · cases hok
  next pid hcurrent =>
    split at hok
    · cases hok
    next p hp =>
      split at hok
      · cases hok
      next p' hp' =>
        cases hok
        obtain ⟨hprio, hqueue, hbounds⟩ := hchange p p' hp'
        apply h.setProcess hp hprio hqueue (hbounds (h.inBounds pid p hp))
        exact fun hwaits => absurd hwaits (h.current hcurrent).2.2

theorem run_inBounds {mailbox after : ProcessMailbox M} {call : MailboxCall}
    (h : call.run mailbox = some after) : after.InBounds := by
  cases call with
  | stepOver => exact ProcessMailbox.inBounds_stepOver h
  | removeCurrent =>
      obtain ⟨⟨val, removed⟩, hremoved, rfl⟩ := Option.map_eq_some_iff.mp h
      exact ProcessMailbox.inBounds_removeCurrent hremoved
  | resetReadIndex =>
      cases h
      exact Nat.zero_le _

/-- As no process is on record as waiting, a message wakes nobody up. -/
theorem Inv.deliverMessage_eq (h : vm.Inv) (hp : vm.processes pid = some p) (message : M) :
    vm.deliverMessage pid p message =
      .ok (vm.setProcess pid (some { p with mailbox := p.mailbox.put message })) := by
  simp [deliverMessage, notifyNewIncomingMessage, h.unqueued pid p hp]

theorem Inv.nextProcess (h : vm.Inv) (hsafe : vm.Safe .nextProcess)
    (hok : vm.nextProcess = .ok vm') : vm'.Inv := by
  unfold VM.nextProcess at hok
  split at hok
  next hcurrent =>
    cases hok
    apply Inv.pick
    have hvacant : vm.vacate = vm := by
      unfold vacate Scheduler.vacate
      rw [← hcurrent]
    rwa [hvacant]
  next pid hcurrent =>
    cases hfinal : vm.nextProcessFinalizePrevious pid with
    | error stop =>
        rw [hfinal] at hok
        cases hok
    | ok result =>
        obtain ⟨hint, after⟩ := result
        rw [hfinal] at hok
        cases hok
        rcases h.finalizePrevious hcurrent hsafe hfinal with ⟨rfl, rfl⟩ | ⟨rfl, hinv⟩
        · exact { h with }
        · exact hinv.pick

/-- A safe step keeps every process in its place. -/
theorem Inv.step (h : vm.Inv) {op : VmOp M} (hsafe : vm.Safe op) (hok : vm.step op = .ok vm') :
    vm'.Inv := by
  cases op with
  | spawn prio trapExit =>
      obtain ⟨created, hcreated, hinv⟩ := h.createProcess prio trapExit
      have heq := hcreated.symm.trans hok
      rwa [← Except.ok.inj heq]
  | spawnFailed =>
      cases hok
      exact { h with fresh := fun other hother => h.fresh other (Nat.le_of_succ_le hother) }
  | send pid message =>
      simp only [VM.step] at hok
      split at hok
      · cases hok
      split at hok
      · cases hok
        exact h
      next p hp =>
        rw [h.deliverMessage_eq hp] at hok
        cases hok
        refine h.setProcess hp ?_ ?_ ((h.inBounds pid p hp).put message) ?_
        · rfl
        · rfl
        · exact fun hwaits => absurd hwaits hsafe
  | mailbox call =>
      simp only [VM.step] at hok
      split at hok
      · cases hok
      apply h.changeCurrent _ hok
      intro p p' hp'
      obtain ⟨mailbox, hrun, rfl⟩ := Option.map_eq_some_iff.mp hp'
      exact ⟨rfl, rfl, fun _ => run_inBounds hrun⟩
  | catches numCatches catchFound =>
      simp only [VM.step] at hok
      split at hok
      · cases hok
      apply h.changeCurrent _ hok
      intro p p' hp'
      cases hp'
      exact ⟨rfl, rfl, id⟩
  | processFlag pid trapExit =>
      simp only [VM.step] at hok
      split at hok
      · cases hok
        exact h
      next p hp =>
        cases hok
        exact h.setProcess hp rfl rfl (h.inBounds pid p hp) (h.seen pid p hp)
  | endSlice result =>
      simp only [VM.step] at hok
      split at hok
      · cases hok
      cases hchanged : vm.changeCurrent fun p => some { p with
          timesliceResult := result
          isFailed := p.isFailed || result = .exception } with
      | error stop =>
          rw [hchanged] at hok
          cases hok
      | ok changed =>
          rw [hchanged] at hok
          cases hok
          have hinv : changed.Inv := by
            apply h.changeCurrent _ hchanged
            intro p p' hp'
            cases hp'
            exact ⟨rfl, rfl, id⟩
          exact { hinv with }
  | nextProcess =>
      simp only [VM.step] at hok
      split at hok
      · cases hok
      · exact h.nextProcess hsafe hok

/-- A message to a process that waits stays unread, and a process that is to wait with a
message to read is in no place. -/
theorem Inv.misplaced (h : vm.Inv) {op : VmOp M} (hclashes : ¬ vm.Safe op)
    (hok : vm.step op = .ok vm') : ¬ vm'.Placed := by
  intro hplaced
  cases op with
  | send pid message =>
      have hwaits : vm.scheduler.Waits pid := not_not.mp hclashes
      obtain ⟨p, hp⟩ : ∃ p, vm.processes pid = some p := by
        apply h.live_of_places
        have hwaiting := (Scheduler.waiting_eq_zero_iff vm.scheduler pid).not.mpr hclashes
        unfold Scheduler.places
        omega
      simp only [VM.step, hp, h.deliverMessage_eq hp] at hok
      split at hok
      · cases hok
      cases hok
      have hunread := (hplaced pid _ (if_pos rfl)).2.2 hwaits
      rw [(h.inBounds pid p hp).haveUnread_put message] at hunread
      cases hunread
  | nextProcess =>
      simp only [Safe, not_forall] at hclashes
      obtain ⟨pid, p, hcurrent, hp, hresult, hunread⟩ := hclashes
      rw [Bool.not_eq_false] at hunread
      have hfinal : vm.nextProcessFinalizePrevious pid = .ok (.takeAnotherProcess, vm) := by
        simp [nextProcessFinalizePrevious, hp, h.unqueued pid p hp, hresult, hunread]
      simp only [VM.step] at hok
      split at hok
      · cases hok
      simp only [VM.nextProcess, hcurrent, hfinal] at hok
      cases hok
      have hnowhere : vm.pick.scheduler.places pid = 0 := by
        have hrunning : vm.scheduler.running pid = 1 := by simp [Scheduler.running, hcurrent]
        have hplaces := Scheduler.places_vacate vm.scheduler pid
        rw [h.places, hp, hrunning] at hplaces
        simp only [Option.isSome_some, if_true] at hplaces
        change vm.scheduler.pickFromTheQueues.places pid = 0
        rw [Scheduler.places_pickFromTheQueues]
        omega
      have hpicked : vm.pick.Placed := hplaced
      have hone := (hpicked pid p hp).1
      rw [hnowhere] at hone
      cases hone
  | _ => exact hclashes trivial

end Inv

open GuardedRun

/-- Every live process is in its place throughout a run, and none waits with a message to
read, exactly when no message is sent to a process that waits and none is to wait that has a
message to read. -/
theorem placed_iff (ops : List (VmOp M)) :
    ThroughoutOk step Placed new ops ↔ GuardedOk step Safe new ops :=
  throughoutOk_iff_guardedOk Safe Placed inv_new (fun _ _ _ h => h.step)
    (fun _ h => h.placed) (fun _ _ _ h => h.misplaced) ops

/-- A process waits, and is sent a message. -/
def unnoticed : List (VmOp Nat) :=
  [.spawn .normal false, .spawn .normal false, .nextProcess, .endSlice .infiniteWait,
    .nextProcess, .send 0 5]

/-- It is left in the wait set with the message. -/
theorem unnoticed_not_placed :
    (unnoticed.foldlM step new).map (fun vm => (vm.scheduler.queueNormal,
      decide (0 ∈ vm.scheduler.infiniteWait),
      (vm.processes 0).map fun p => p.mailbox.haveUnreadMessages)) =
        .ok ([], true, some true) ∧
    ¬ ThroughoutOk step Placed new unnoticed := by
  refine ⟨rfl, fun h => ?_⟩
  have hplaced := h unnoticed List.prefix_rfl _ rfl
  have hunread := (hplaced 0 _ rfl).2.2 (.inr (by decide))
  cases hunread

end VM

end Emulator

end Zeptobeam
