/-
Agent processes and the registry that holds them.  The code of agents is a
parameter: types for behaviours, their states, exit handlers and message hooks,
and the callbacks a behaviour and a hook have.
-/
import Zeptobeam.Types
import Mathlib.Data.List.AList

namespace Zeptobeam

/-- The types user code brings along. -/
structure AgentTypes where
  Behavior : Type
  State : Type
  Handler : Type
  Hook : Type

/-- Asynchronous I/O operations; what only the worker reads is one value. -/
inductive IoOp where
  | httpRequest (request : Json)
  | timer (millis : Nat)
  | custom (kind : String) (payload : Json)
  | agentChat (request : Json)
  | agentDestroy (targetPid : AgentPid)

/-- What a message handler tells the scheduler to do. -/
inductive Action (T : AgentTypes) where
  | «continue»
  | send (dest : AgentPid) (msg : Message)
  | ioRequest (op : IoOp)
  | spawn (behavior : T.Behavior) (args : Json) (link monitor : Bool)
  | stop (reason : Reason)

/-- The callbacks of behaviours and hooks.  A handler that panics gives the panic's
text; the `terminate` callback works on a state that is dropped with it. -/
structure BehaviorCode (T : AgentTypes) where
  init : T.Behavior → Json → Except Reason T.State
  handleMessage : T.Behavior → Message → T.State → Except String (Action T × T.State)
  handleExit : T.Behavior → AgentPid → Reason → T.State →
    Except String (Action T × T.State)
  onSend : T.Hook → AgentPid → Message → Except String Unit × T.Hook

inductive ProcessStatus where
  | runnable
  | waiting
  | suspended
  | exiting
deriving DecidableEq, Repr

inductive Priority where
  | high
  | normal
  | low
deriving DecidableEq, Repr

structure AgentProcess (T : AgentTypes) where
  pid : AgentPid
  behavior : T.Behavior
  state : Option T.State
  mailbox : List Message
  mailboxCapacity : Nat
  reductions : Nat
  status : ProcessStatus
  priority : Priority
  links : List AgentPid
  monitors : List (MonitorRef × AgentPid)
  monitoredBy : List (MonitorRef × AgentPid)
  trapExit : Bool
  receiveTimeout : Option Nat

namespace AgentProcess

variable {T : AgentTypes}

def defaultMailboxCapacity : Nat := 1024

/-- A process before its first message. -/
def started (pid : AgentPid) (behavior : T.Behavior) (state : T.State) (capacity : Nat) :
    AgentProcess T :=
  { pid, behavior, state := some state, mailbox := [], mailboxCapacity := capacity,
    reductions := 0, status := .runnable, priority := .normal, links := [],
    monitors := [], monitoredBy := [], trapExit := false, receiveTimeout := none }

def newWithMailboxCapacity (code : BehaviorCode T) (pid : AgentPid)
    (behavior : T.Behavior) (args : Json) (capacity : Nat) :
    Except Reason (AgentProcess T) := do
  let state ← code.init behavior args
  .ok (started pid behavior state capacity)

def new (code : BehaviorCode T) (pid : AgentPid) (behavior : T.Behavior) (args : Json) :
    Except Reason (AgentProcess T) :=
  newWithMailboxCapacity code pid behavior args defaultMailboxCapacity

/-- The message goes into the mailbox, or the mailbox is full. -/
def deliverMessage (proc : AgentProcess T) (msg : Message) : Option (AgentProcess T) :=
  if proc.mailbox.length ≥ proc.mailboxCapacity then none
  else some { proc with
    mailbox := proc.mailbox ++ [msg]
    receiveTimeout := none
    status := if proc.status = .waiting then .runnable else proc.status }

def nextMessage (proc : AgentProcess T) : Option (Message × AgentProcess T) :=
  match proc.mailbox with
  | [] => none
  | msg :: mailbox => some (msg, { proc with mailbox })

theorem deliverMessage_eq_some {proc proc' : AgentProcess T} {msg : Message} :
    proc.deliverMessage msg = some proc' ↔
      proc.mailbox.length < proc.mailboxCapacity ∧
        { proc with
          mailbox := proc.mailbox ++ [msg]
          receiveTimeout := none
          status := if proc.status = .waiting then .runnable else proc.status } =
            proc' := by
  by_cases hfull : proc.mailbox.length ≥ proc.mailboxCapacity
  · simp [deliverMessage, hfull, Nat.not_lt.mpr hfull]
  · simp [deliverMessage, hfull, Nat.lt_of_not_le hfull]

theorem deliverMessage_eq_none {proc : AgentProcess T} {msg : Message} :
    proc.deliverMessage msg = none ↔ proc.mailboxCapacity ≤ proc.mailbox.length := by
  by_cases hfull : proc.mailbox.length ≥ proc.mailboxCapacity
  · simp [deliverMessage, hfull]
  · simp [deliverMessage, hfull]

end AgentProcess

/-- `Vec::swap_remove`: the last element takes the place of the removed one. -/
def swapRemove {α : Type} (items : List α) (i : Nat) : List α :=
  match items.getLast? with
  | none => []
  | some last => (items.set i last).dropLast

theorem perm_swapRemove {α : Type} {items : List α} {i : Nat} (hi : i < items.length) :
    (items[i] :: swapRemove items i).Perm items := by
  rcases List.eq_nil_or_concat items with rfl | ⟨init, last, rfl⟩
  · simp at hi
  · simp only [swapRemove, List.concat_eq_append, List.getLast?_concat]
    rcases Nat.lt_or_ge i init.length with hlt | hge
    · have hsplit : init = init.take i ++ init[i] :: init.drop (i + 1) := by simp
      rw [List.set_append_left i last hlt, List.dropLast_concat, List.getElem_append_left hlt,
        List.set_eq_take_append_cons_drop, if_pos hlt]
      calc (init[i] :: (init.take i ++ last :: init.drop (i + 1))).Perm
              (init[i] :: last :: (init.take i ++ init.drop (i + 1))) :=
            List.perm_middle.cons _
        _ |>.Perm (last :: init[i] :: (init.take i ++ init.drop (i + 1))) :=
            List.Perm.swap _ _ _
        _ |>.Perm (last :: init) := by
            conv_rhs => rw [hsplit]
            exact (List.perm_middle.symm).cons _
        _ |>.Perm (init ++ [last]) := (List.perm_append_singleton last init).symm
    · obtain rfl : i = init.length := by
        simp only [List.concat_eq_append, List.length_append, List.length_singleton] at hi
        omega
      simpa using (List.perm_append_singleton last init).symm

structure AgentRegistry (T : AgentTypes) where
  processes : AList fun _ : AgentPid => AgentProcess T
  names : AList fun _ : String => AgentPid

namespace AgentRegistry

variable {T : AgentTypes}

def empty : AgentRegistry T := ⟨∅, ∅⟩

def lookup (registry : AgentRegistry T) (pid : AgentPid) : Option (AgentProcess T) :=
  registry.processes.lookup pid

/-- `lookup_mut` and a change of the process found. -/
def modify (registry : AgentRegistry T) (pid : AgentPid)
    (f : AgentProcess T → AgentProcess T) : AgentRegistry T :=
  match registry.lookup pid with
  | none => registry
  | some proc => { registry with processes := registry.processes.insert pid (f proc) }

/-- `spawn`, with the pid that `AgentPid::new` gives. -/
def spawn (code : BehaviorCode T) (registry : AgentRegistry T) (pid : AgentPid)
    (behavior : T.Behavior) (args : Json) : Except Reason (AgentPid × AgentRegistry T) := do
  let proc ← AgentProcess.new code pid behavior args
  .ok (pid, { registry with processes := registry.processes.insert pid proc })

def remove (registry : AgentRegistry T) (pid : AgentPid) : AgentRegistry T :=
  match registry.lookup pid with
  | none => registry
  | some _ =>
      { processes := registry.processes.erase pid
        names := (registry.names.entries.filter fun name => name.2 ≠ pid).toAList }

def registerName (registry : AgentRegistry T) (name : String) (pid : AgentPid) :
    Except String (AgentRegistry T) :=
  match registry.names.lookup name with
  | some existing =>
      if existing ≠ pid then .error s!"Name '{name}' already registered"
      else .ok { registry with names := registry.names.insert name pid }
  | none => .ok { registry with names := registry.names.insert name pid }

def unregisterName (registry : AgentRegistry T) (name : String) : AgentRegistry T :=
  { registry with names := registry.names.erase name }

def count (registry : AgentRegistry T) : Nat :=
  registry.processes.entries.length

@[simp]
theorem lookup_modify (registry : AgentRegistry T) (pid q : AgentPid)
    (f : AgentProcess T → AgentProcess T) :
    (registry.modify pid f).lookup q =
      if q = pid then (registry.lookup q).map f else registry.lookup q := by
  cases hpid : registry.lookup pid with
  | none =>
      rw [modify, hpid]
      by_cases hq : q = pid
      · rw [if_pos hq, hq, hpid]
        rfl
      · rw [if_neg hq]
  | some proc =>
      rw [modify, hpid]
      by_cases hq : q = pid
      · rw [if_pos hq, hq, hpid]
        exact AList.lookup_insert _
      · rw [if_neg hq]
        exact AList.lookup_insert_ne hq

@[simp]
theorem lookup_remove (registry : AgentRegistry T) (pid q : AgentPid) :
    (registry.remove pid).lookup q = if q = pid then none else registry.lookup q := by
  cases hpid : registry.lookup pid with
  | none =>
      rw [remove, hpid]
      by_cases hq : q = pid
      · rw [if_pos hq, hq, hpid]
      · rw [if_neg hq]
  | some proc =>
      rw [remove, hpid]
      by_cases hq : q = pid
      · rw [if_pos hq, hq]
        exact AList.lookup_erase _ _
      · rw [if_neg hq]
        exact AList.lookup_erase_ne hq

theorem lookup_spawn {code : BehaviorCode T} {registry registry' : AgentRegistry T}
    {pid pid' : AgentPid} {behavior : T.Behavior} {args : Json}
    (h : registry.spawn code pid behavior args = .ok (pid', registry')) :
    pid' = pid ∧ ∃ state, ∀ q, registry'.lookup q =
      if q = pid then
        some (.started pid behavior state AgentProcess.defaultMailboxCapacity)
      else registry.lookup q := by
  simp only [spawn, AgentProcess.new, AgentProcess.newWithMailboxCapacity, bind,
    Except.bind] at h
  cases hinit : code.init behavior args with
  | error reason => simp [hinit] at h
  | ok state =>
      simp only [hinit, Except.ok.injEq, Prod.mk.injEq] at h
      obtain ⟨rfl, rfl⟩ := h
      refine ⟨rfl, state, ?_⟩
      intro q
      by_cases hq : q = pid
      · rw [if_pos hq, hq]
        exact AList.lookup_insert _
      · rw [if_neg hq]
        exact AList.lookup_insert_ne hq

end AgentRegistry

end Zeptobeam
