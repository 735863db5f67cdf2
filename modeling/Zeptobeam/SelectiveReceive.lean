/-
The mailbox of the virtual machine's processes, and the receive loops that compiled code
runs over it.  Removed messages leave empty slots, and the read position steps over those.
It does not step over a message: a loop that has no clause for one is offered it again.
-/
import Mathlib.Data.List.Nodup
import Mathlib.Data.List.Perm.Basic
import Mathlib.Data.List.Range
import Zeptobeam.Lib.EventLog
import Zeptobeam.Lib.GuardedRun

namespace Zeptobeam

namespace Emulator

/-- A slot without a message is a nonvalue. -/
structure ProcessMailbox (M : Type) where
  inbox : List (Option M)
  readIndex : Nat

namespace ProcessMailbox

variable {M : Type}

def new : ProcessMailbox M :=
  ⟨[], 0⟩

def haveUnreadMessages (mailbox : ProcessMailbox M) : Bool :=
  mailbox.readIndex < mailbox.inbox.length

def put (mailbox : ProcessMailbox M) (message : M) : ProcessMailbox M :=
  { mailbox with inbox := mailbox.inbox ++ [some message] }

/-- The message at the read position, `none` in an empty mailbox.  Out of the inbox and at
a nonvalue the call panics. -/
def getCurrent (mailbox : ProcessMailbox M) : Option (Option M) :=
  if mailbox.inbox.isEmpty then some none
  else
    match mailbox.inbox[mailbox.readIndex]? with
    | some (some message) => some (some message)
    | _ => none

/-- Go over nonvalues from `mri` on, round the end of the inbox: to a value, or `none` when
that leads back to the start.  The call panics out of the inbox. -/
def skipNonvalues (inbox : List (Option M)) (startingPos : Nat) :
    Nat → Nat → Option (Option Nat)
  | 0, _ => none
  | fuel + 1, mri =>
      match inbox[mri]? with
      | none => none
      | some (some _) => some (some mri)
      | some none =>
          let next := if mri + 1 = inbox.length then 0 else mri + 1
          if next = startingPos then some none else skipNonvalues inbox startingPos fuel next

def stepOver (mailbox : ProcessMailbox M) : Option (ProcessMailbox M) :=
  if mailbox.inbox.isEmpty then some { mailbox with readIndex := 0 }
  else
    match skipNonvalues mailbox.inbox mailbox.readIndex mailbox.inbox.length
        mailbox.readIndex with
    | none => none
    | some none => some new
    | some (some mri) => some { mailbox with readIndex := mri }

/-- Take the slot at the read position, and step over what is left of it. -/
def removeCurrent (mailbox : ProcessMailbox M) : Option (Option M × ProcessMailbox M) :=
  match mailbox.inbox[mailbox.readIndex]? with
  | none => none
  | some val =>
      let emptied := { mailbox with inbox := mailbox.inbox.set mailbox.readIndex none }
      emptied.stepOver.map fun after => (val, after)

def resetReadIndex (mailbox : ProcessMailbox M) : ProcessMailbox M :=
  { mailbox with readIndex := 0 }

/-- The messages in the mailbox. -/
def messages (mailbox : ProcessMailbox M) : List M :=
  mailbox.inbox.filterMap id

/-- The slots before the read position are the empty ones. -/
def Holds (mailbox : ProcessMailbox M) (messages : List M) : Prop :=
  ∃ k, mailbox = ⟨List.replicate k none ++ messages.map some, k⟩ ∧ (messages = [] → k = 0)

section Holds

variable {mailbox : ProcessMailbox M} {m : M} {rest : List M}

theorem holds_new : (new : ProcessMailbox M).Holds [] :=
  ⟨0, rfl, fun _ => rfl⟩

theorem Holds.messages {held : List M} (h : mailbox.Holds held) : mailbox.messages = held := by
  obtain ⟨k, rfl, -⟩ := h
  simp [ProcessMailbox.messages, List.filterMap_append]

theorem Holds.put {held : List M} (h : mailbox.Holds held) (m : M) :
    (mailbox.put m).Holds (held ++ [m]) := by
  obtain ⟨k, rfl, -⟩ := h
  exact ⟨k, by simp [ProcessMailbox.put], by simp⟩

theorem Holds.getCurrent {held : List M} (h : mailbox.Holds held) :
    mailbox.getCurrent = some held.head? := by
  obtain ⟨k, rfl, hk⟩ := h
  cases held with
  | nil => simp [ProcessMailbox.getCurrent, hk rfl]
  | cons m rest => simp [ProcessMailbox.getCurrent]

theorem skipNonvalues_of_value {inbox : List (Option M)} {mri : Nat}
    (h : inbox[mri]? = some (some m)) (start fuel : Nat) :
    skipNonvalues inbox start (fuel + 1) mri = some (some mri) := by
  rw [skipNonvalues, h]

theorem skipNonvalues_of_nonvalue {inbox : List (Option M)} {mri : Nat}
    (h : inbox[mri]? = some none) (next : Nat)
    (hnext : next = if mri + 1 = inbox.length then 0 else mri + 1) (start fuel : Nat) :
    skipNonvalues inbox start (fuel + 1) mri =
      if next = start then some none else skipNonvalues inbox start fuel next := by
  rw [skipNonvalues, h, hnext]

/-- A message at the read position is not stepped over. -/
theorem Holds.stepOver {held : List M} (h : mailbox.Holds held) :
    mailbox.stepOver = some mailbox := by
  obtain ⟨k, rfl, hk⟩ := h
  cases held with
  | nil => simp [ProcessMailbox.stepOver, hk rfl]
  | cons m rest =>
      have hslot : (List.replicate k none ++ (m :: rest).map some)[k]? = some (some m) := by
        simp
      have hlength : (List.replicate k none ++ (m :: rest).map some).length
          = (k + rest.length) + 1 := by
        simp
        omega
      unfold ProcessMailbox.stepOver
      rw [if_neg (by simp), hlength, skipNonvalues_of_value hslot]

/-- From an empty slot among empty slots the walk leads back to the start. -/
theorem skipNonvalues_replicate {k start : Nat} (hstart : start < k) (mri fuel : Nat)
    (hmri : mri < start) (hfuel : start ≤ mri + fuel) :
    skipNonvalues (List.replicate k (none : Option M)) start fuel mri = some none := by
  induction fuel generalizing mri with
  | zero => omega
  | succ fuel ih =>
      have hslot : (List.replicate k (none : Option M))[mri]? = some none := by
        rw [List.getElem?_replicate, if_pos (by omega)]
      rw [skipNonvalues_of_nonvalue hslot _ rfl, List.length_replicate,
        if_neg (by omega : ¬ mri + 1 = k)]
      by_cases hnext : mri + 1 = start
      · rw [if_pos hnext]
      · rw [if_neg hnext]
        exact ih (mri + 1) (by omega) (by omega)

/-- The slot that was emptied is stepped over: to the next message, or to a new inbox. -/
theorem stepOver_emptied (k : Nat) (rest : List M) :
    ∃ after, (ProcessMailbox.mk (List.replicate (k + 1) none ++ rest.map some) k).stepOver =
      some after ∧ after.Holds rest := by
  have hslot : (List.replicate (k + 1) none ++ rest.map some)[k]? = some none := by
    rw [List.getElem?_append_left (by simp), List.getElem?_replicate, if_pos (by omega)]
  have hlength : (List.replicate (k + 1) none ++ rest.map some).length
      = (k + rest.length) + 1 := by
    simp
    omega
  unfold ProcessMailbox.stepOver
  rw [if_neg (by simp)]
  cases rest with
  | nil =>
      refine ⟨new, ?_, holds_new⟩
      rw [hlength, skipNonvalues_of_nonvalue hslot 0 (by simp)]
      by_cases hk : 0 = k
      · rw [if_pos hk]
      · rw [if_neg hk]
        simp only [List.map_nil, List.append_nil]
        rw [skipNonvalues_replicate (by omega) 0 _ (by omega) (by simp)]
  | cons m rest =>
      have hvalue : (List.replicate (k + 1) none ++ (m :: rest).map some)[k + 1]?
          = some (some m) := by simp
      refine ⟨⟨List.replicate (k + 1) none ++ (m :: rest).map some, k + 1⟩, ?_,
        k + 1, rfl, by simp⟩
      rw [hlength, skipNonvalues_of_nonvalue hslot (k + 1) (by simp),
        if_neg (Nat.succ_ne_self k)]
      have hfuel : k + (m :: rest).length = (k + rest.length) + 1 := by
        simp
        omega
      rw [hfuel, skipNonvalues_of_value hvalue]

theorem Holds.removeCurrent (h : mailbox.Holds (m :: rest)) :
    ∃ after, mailbox.removeCurrent = some (some m, after) ∧ after.Holds rest := by
  obtain ⟨k, rfl, -⟩ := h
  have hset : (List.replicate k (none : Option M) ++ (m :: rest).map some).set k none
      = List.replicate (k + 1) none ++ rest.map some := by
    rw [List.set_append_right _ _ (by simp), List.length_replicate, Nat.sub_self,
      List.replicate_succ']
    simp
  have hslot : (List.replicate k (none : Option M) ++ (m :: rest).map some)[k]?
      = some (some m) := by simp
  obtain ⟨after, hafter, hholds⟩ := stepOver_emptied k rest
  refine ⟨after, ?_, hholds⟩
  unfold ProcessMailbox.removeCurrent
  rw [hslot]
  simp only [hset, hafter, Option.map_some]

end Holds

/-- The read position is in the inbox, or at its end. -/
def InBounds (mailbox : ProcessMailbox M) : Prop :=
  mailbox.readIndex ≤ mailbox.inbox.length

section InBounds

variable {mailbox after : ProcessMailbox M}

theorem skipNonvalues_lt {inbox : List (Option M)} {start fuel mri : Nat}
    {found : Nat} (h : skipNonvalues inbox start fuel mri = some (some found)) :
    found < inbox.length := by
  induction fuel generalizing mri with
  | zero => cases h
  | succ fuel ih =>
      rw [skipNonvalues] at h
      split at h
      next => cases h
      next m hslot =>
        obtain rfl : mri = found := by simpa using h
        exact (List.getElem?_eq_some_iff.mp hslot).1
      next hslot =>
        generalize (if mri + 1 = inbox.length then 0 else mri + 1) = next at h
        by_cases hstart : next = start
        · simp [hstart] at h
        · simp only [hstart, if_false] at h
          exact ih h

theorem inBounds_stepOver (h : mailbox.stepOver = some after) : after.InBounds := by
  unfold stepOver at h
  split at h
  · cases h
    exact Nat.zero_le _
  · split at h
    next => cases h
    next =>
      cases h
      exact Nat.le_refl 0
    next mri hskip =>
      cases h
      exact (skipNonvalues_lt hskip).le

theorem inBounds_removeCurrent {val : Option M}
    (h : mailbox.removeCurrent = some (val, after)) : after.InBounds := by
  unfold removeCurrent at h
  split at h
  · cases h
  · obtain ⟨stepped, hstepped, heq⟩ := Option.map_eq_some_iff.mp h
    obtain ⟨-, rfl⟩ := Prod.mk.inj heq
    exact inBounds_stepOver hstepped

theorem InBounds.put (h : mailbox.InBounds) (m : M) : (mailbox.put m).InBounds := by
  unfold InBounds at h
  simp only [InBounds, ProcessMailbox.put, List.length_append]
  omega

/-- A message that was put is unread. -/
theorem InBounds.haveUnread_put (h : mailbox.InBounds) (m : M) :
    (mailbox.put m).haveUnreadMessages = true := by
  unfold InBounds at h
  simp only [haveUnreadMessages, ProcessMailbox.put, List.length_append, List.length_singleton,
    decide_eq_true_eq]
  omega

end InBounds

end ProcessMailbox

/-! ## Receive loops -/

/-- A message by the number of its arrival. -/
structure Message (T : Type) where
  number : Nat
  term : T
deriving DecidableEq, Repr

/-- What happens to messages.  `offered` is what `loop_rec` puts into x0, `removed` what
`remove_message` does, and `exhausted` a jump of `loop_rec` to its fail label. -/
inductive ReceiveEvent (T : Type) where
  | arrived (message : Message T)
  | offered (message : Message T)
  | removed (val : Option (Message T))
  | exhausted
deriving DecidableEq, Repr

/-- Where compiled code is in a receive. -/
inductive ReceivePhase where
  /-- Before `loop_rec`, on entry or after a wait. -/
  | ready
  /-- At the clauses, with a message. -/
  | matching
  /-- Before `loop_rec` again: no clause took the message. -/
  | rejected
  /-- At the fail label of `loop_rec`. -/
  | failed
deriving DecidableEq, Repr

structure Receiver (T : Type) where
  mailbox : ProcessMailbox (Message T)
  phase : ReceivePhase
  log : List (ReceiveEvent T)

inductive ReceiveOp (T : Type) where
  | arrive (term : T)
  | loopRec
  | loopRecEnd
  | removeMessage
  | wait

/-- Compiled code does not do this here, or the call panics. -/
inductive ReceiveStop where
  | notCompiled
  | panic
deriving DecidableEq, Repr

section Log

variable {T : Type}

def arrivalsOf (log : List (ReceiveEvent T)) : List (Message T) :=
  log.filterMap fun
    | .arrived message => some message
    | _ => none

def removalsOf (log : List (ReceiveEvent T)) : List (Message T) :=
  log.filterMap fun
    | .removed val => val
    | _ => none

/-- The messages offered since the scan began: a receive ends with a removal. -/
def scanOf (log : List (ReceiveEvent T)) : List (Message T) :=
  log.foldl (fun scan event =>
    match event with
    | .offered message => scan ++ [message]
    | .removed _ => []
    | _ => scan) []

section Concat

variable (log : List (ReceiveEvent T)) (event : ReceiveEvent T)

theorem arrivalsOf_concat : arrivalsOf (log ++ [event]) = arrivalsOf log ++ arrivalsOf [event] :=
  List.filterMap_append

theorem removalsOf_concat : removalsOf (log ++ [event]) = removalsOf log ++ removalsOf [event] :=
  List.filterMap_append

theorem scanOf_concat :
    scanOf (log ++ [event]) =
      match event with
      | .offered message => scanOf log ++ [message]
      | .removed _ => []
      | _ => scanOf log := by
  rw [scanOf, List.foldl_concat]
  rfl

/-- Messages are numbered as they come. -/
def Numbered (log : List (ReceiveEvent T)) : Prop :=
  (arrivalsOf log).map Message.number = List.range (arrivalsOf log).length

variable {log event}

theorem Numbered.concat (h : Numbered log) (hnone : arrivalsOf [event] = []) :
    Numbered (log ++ [event]) := by
  unfold Numbered
  rw [arrivalsOf_concat, hnone, List.append_nil, h]

theorem Numbered.arrive (h : Numbered log) (term : T) :
    Numbered (log ++ [.arrived ⟨(arrivalsOf log).length, term⟩]) := by
  have hnew : arrivalsOf [.arrived ⟨(arrivalsOf log).length, term⟩]
      = [⟨(arrivalsOf log).length, term⟩] := rfl
  unfold Numbered
  rw [arrivalsOf_concat, hnew, List.map_append, h, List.length_append]
  simp [List.range_succ]

end Concat

/-- What is asked of an event, given the events before it. -/
def ReceiveEvent.Allowed (before : List (ReceiveEvent T)) : ReceiveEvent T → Prop
  | .arrived _ => True
  | .offered message => message ∈ arrivalsOf before ∧ message ∉ removalsOf before ∧
      ∀ earlier ∈ scanOf before, earlier.number < message.number
  | .removed val => val.isSome = true ∧ (scanOf before).getLast? = val
  | .exhausted => ∀ message ∈ arrivalsOf before,
      message ∈ removalsOf before ∨ message ∈ scanOf before

end Log

namespace Receiver

variable {T : Type}

def start : Receiver T :=
  ⟨ProcessMailbox.new, .ready, []⟩

def step (s : Receiver T) : ReceiveOp T → Except ReceiveStop (Receiver T)
  | .arrive term =>
      let message := ⟨(arrivalsOf s.log).length, term⟩
      .ok { s with mailbox := s.mailbox.put message, log := s.log ++ [.arrived message] }
  | .loopRec =>
      if s.phase = .ready ∨ s.phase = .rejected then
        match s.mailbox.getCurrent with
        | none => .error .panic
        | some (some message) =>
            .ok { s with phase := .matching, log := s.log ++ [.offered message] }
        | some none => .ok { s with phase := .failed, log := s.log ++ [.exhausted] }
      else .error .notCompiled
  | .loopRecEnd =>
      if s.phase = .matching then
        match s.mailbox.stepOver with
        | none => .error .panic
        | some mailbox => .ok { s with mailbox, phase := .rejected }
      else .error .notCompiled
  | .removeMessage =>
      if s.phase = .matching then
        match s.mailbox.removeCurrent with
        | none => .error .panic
        | some (val, mailbox) =>
            .ok { mailbox, phase := .ready, log := s.log ++ [.removed val] }
      else .error .notCompiled
  | .wait =>
      if s.phase = .failed then .ok { s with phase := .ready } else .error .notCompiled

/-- Messages are offered in the order of their arrival and once in a scan, none after its
removal; the message last offered is the one removed; a scan ends after all messages; each
message is in the mailbox until it is removed; and no call panics. -/
def Selective (s : Receiver T) : Prop :=
  EventLog.Lawful ReceiveEvent.Allowed s.log ∧
    (removalsOf s.log ++ s.mailbox.messages).Perm (arrivalsOf s.log) ∧
    ∀ op, s.step op ≠ .error .panic

/-- No message is offered after one that no clause took. -/
def Taken (s : Receiver T) (op : ReceiveOp T) : Prop :=
  op = .loopRec → s.phase ≠ .rejected

/-- The messages that the scan has offered. -/
def scanned (held : List (Message T)) : ReceivePhase → List (Message T)
  | .ready | .failed => []
  | .matching | .rejected => held.take 1

/-- The mailbox holds the messages that came after the removed ones. -/
structure Inv (s : Receiver T) (held : List (Message T)) : Prop where
  holds : s.mailbox.Holds held
  arrivals : arrivalsOf s.log = removalsOf s.log ++ held
  numbered : Numbered s.log
  scan : scanOf s.log = scanned held s.phase
  some_held : s.phase = .matching ∨ s.phase = .rejected → held ≠ []
  lawful : EventLog.Lawful ReceiveEvent.Allowed s.log

theorem inv_start : (start : Receiver T).Inv [] where
  holds := ProcessMailbox.holds_new
  arrivals := rfl
  numbered := rfl
  scan := rfl
  some_held := by rintro (h | h) <;> cases h
  lawful := EventLog.lawful_nil

section Steps

variable {s s' : Receiver T} {held rest : List (Message T)} {m : Message T}

theorem Inv.nodup (h : s.Inv held) : (removalsOf s.log ++ held).Nodup := by
  rw [← h.arrivals]
  apply List.Nodup.of_map Message.number
  have hnumbered : (arrivalsOf s.log).map Message.number = _ := h.numbered
  rw [hnumbered]
  exact List.nodup_range

theorem Inv.held_of_matching (h : s.Inv held) (hphase : s.phase = .matching) :
    ∃ m rest, held = m :: rest ∧ scanOf s.log = [m] := by
  cases held with
  | nil => exact absurd rfl (h.some_held (.inl hphase))
  | cons m rest => exact ⟨m, rest, rfl, by rw [h.scan, hphase]; rfl⟩

theorem Inv.no_panic (h : s.Inv held) (op : ReceiveOp T) : s.step op ≠ .error .panic := by
  cases op with
  | arrive term => simp [step]
  | loopRec =>
      rw [step, h.holds.getCurrent]
      split
      · cases held <;> simp
      · simp
  | loopRecEnd =>
      rw [step, h.holds.stepOver]
      split <;> simp
  | removeMessage =>
      rw [step]
      split
      next hphase =>
        obtain ⟨m, rest, rfl, -⟩ := h.held_of_matching hphase
        obtain ⟨after, hafter, -⟩ := h.holds.removeCurrent
        rw [hafter]
        simp
      next => simp
  | wait =>
      rw [step]
      split <;> simp

theorem Inv.arrive (h : s.Inv held) {term : T} (hm : m = ⟨(arrivalsOf s.log).length, term⟩) :
    Inv { s with mailbox := s.mailbox.put m, log := s.log ++ [.arrived m] } (held ++ [m]) where
  holds := h.holds.put m
  arrivals := by
    change arrivalsOf (s.log ++ [.arrived m]) = removalsOf (s.log ++ [.arrived m]) ++ _
    rw [arrivalsOf_concat, removalsOf_concat, h.arrivals]
    simp [arrivalsOf, removalsOf]
  numbered := by
    rw [hm]
    exact h.numbered.arrive term
  scan := by
    change scanOf (s.log ++ [.arrived m]) = scanned (held ++ [m]) s.phase
    rw [scanOf_concat]
    refine h.scan.trans ?_
    have hsome := h.some_held
    cases hphase : s.phase with
    | ready | failed => rfl
    | matching | rejected =>
        simp only [hphase, true_or, or_true, true_implies] at hsome
        exact (List.take_append_of_le_length (List.length_pos_iff.mpr hsome)).symm
  some_held := fun _ => by simp
  lawful := EventLog.lawful_concat_iff.mpr ⟨h.lawful, trivial⟩

/-- The first message held is offered, unless the scan has had it. -/
theorem Inv.offered (h : s.Inv (m :: rest)) (hready : s.phase = .ready) :
    Inv { s with phase := .matching, log := s.log ++ [.offered m] } (m :: rest) where
  holds := h.holds
  arrivals := by
    change arrivalsOf (s.log ++ [.offered m]) = removalsOf (s.log ++ [.offered m]) ++ _
    rw [arrivalsOf_concat, removalsOf_concat, h.arrivals]
    simp [arrivalsOf, removalsOf]
  numbered := h.numbered.concat rfl
  scan := by
    change scanOf (s.log ++ [.offered m]) = [m]
    rw [scanOf_concat]
    change scanOf s.log ++ [m] = [m]
    rw [h.scan, hready]
    rfl
  some_held := fun _ => by simp
  lawful := by
    have hnodup := h.nodup
    refine EventLog.lawful_concat_iff.mpr ⟨h.lawful, ?_, ?_, ?_⟩
    · rw [h.arrivals]
      simp
    · intro hremoved
      exact (List.nodup_append.mp hnodup).2.2 m hremoved m List.mem_cons_self rfl
    · rw [h.scan, hready]
      intro earlier hearlier
      cases hearlier

theorem Inv.exhausted (h : s.Inv []) (hready : s.phase = .ready) :
    Inv { s with phase := .failed, log := s.log ++ [.exhausted] } [] where
  holds := h.holds
  arrivals := by
    change arrivalsOf (s.log ++ [.exhausted]) = removalsOf (s.log ++ [.exhausted]) ++ _
    rw [arrivalsOf_concat, removalsOf_concat, h.arrivals]
    simp [arrivalsOf, removalsOf]
  numbered := h.numbered.concat rfl
  scan := by
    change scanOf (s.log ++ [.exhausted]) = []
    rw [scanOf_concat]
    exact h.scan.trans (by rw [hready]; rfl)
  some_held := by rintro (h | h) <;> cases h
  lawful := by
    refine EventLog.lawful_concat_iff.mpr ⟨h.lawful, ?_⟩
    intro message hmessage
    rw [h.arrivals, List.append_nil] at hmessage
    exact .inl hmessage

theorem Inv.removed (h : s.Inv (m :: rest)) (hmatching : s.phase = .matching)
    {mailbox : ProcessMailbox (Message T)} (hmailbox : mailbox.Holds rest) :
    Inv ⟨mailbox, .ready, s.log ++ [.removed (some m)]⟩ rest where
  holds := hmailbox
  arrivals := by
    change arrivalsOf (s.log ++ [.removed (some m)])
      = removalsOf (s.log ++ [.removed (some m)]) ++ rest
    rw [arrivalsOf_concat, removalsOf_concat, h.arrivals]
    simp [arrivalsOf, removalsOf]
  numbered := h.numbered.concat rfl
  scan := by
    change scanOf (s.log ++ [.removed (some m)]) = []
    rw [scanOf_concat]
  some_held := by rintro (h | h) <;> cases h
  lawful := by
    refine EventLog.lawful_concat_iff.mpr ⟨h.lawful, rfl, ?_⟩
    rw [h.scan, hmatching]
    rfl

/-- No step but that of a rejected message loses the invariant. -/
theorem Inv.step (h : s.Inv held) {op : ReceiveOp T} (htaken : s.Taken op)
    (hs' : s.step op = .ok s') : ∃ held', s'.Inv held' := by
  cases op with
  | arrive term =>
      cases hs'
      exact ⟨_, h.arrive rfl⟩
  | loopRec =>
      have hrejected : s.phase ≠ .rejected := htaken rfl
      rw [Receiver.step, h.holds.getCurrent] at hs'
      split at hs'
      next hphase =>
        have hready : s.phase = .ready := hphase.resolve_right hrejected
        cases held with
        | nil =>
            cases hs'
            exact ⟨_, h.exhausted hready⟩
        | cons m rest =>
            cases hs'
            exact ⟨_, h.offered hready⟩
      next => cases hs'
  | loopRecEnd =>
      rw [Receiver.step, h.holds.stepOver] at hs'
      split at hs'
      next hphase =>
        obtain ⟨m, rest, rfl, hscan⟩ := h.held_of_matching hphase
        cases hs'
        exact ⟨_, { h with scan := hscan, some_held := fun _ => by simp }⟩
      next => cases hs'
  | removeMessage =>
      rw [Receiver.step] at hs'
      split at hs'
      next hphase =>
        obtain ⟨m, rest, rfl, -⟩ := h.held_of_matching hphase
        obtain ⟨after, hafter, hholds⟩ := h.holds.removeCurrent
        rw [hafter] at hs'
        cases hs'
        exact ⟨_, h.removed hphase hholds⟩
      next => cases hs'
  | wait =>
      rw [Receiver.step] at hs'
      split at hs'
      next hphase =>
        cases hs'
        refine ⟨held, { h with scan := ?_, some_held := ?_ }⟩
        · exact h.scan.trans (by rw [hphase]; rfl)
        · rintro (h | h) <;> cases h
      next => cases hs'

theorem Inv.selective (h : s.Inv held) : s.Selective := by
  refine ⟨h.lawful, ?_, h.no_panic⟩
  rw [h.holds.messages, h.arrivals]

/-- The rejected message is offered again. -/
theorem Inv.offered_again (h : s.Inv held) {op : ReceiveOp T} (htaken : ¬ s.Taken op)
    (hs' : s.step op = .ok s') : ¬ s'.Selective := by
  obtain ⟨rfl, hrejected⟩ : op = .loopRec ∧ s.phase = .rejected := by
    simpa [Taken] using htaken
  rw [Receiver.step, h.holds.getCurrent, if_pos (.inr hrejected)] at hs'
  cases held with
  | nil => exact absurd rfl (h.some_held (.inr hrejected))
  | cons m rest =>
      cases hs'
      rintro ⟨hlawful, -⟩
      have hscan : scanOf s.log = [m] := by
        rw [h.scan, hrejected]
        rfl
      have hallowed := (EventLog.lawful_concat_iff.mp hlawful).2.2.2 m
      rw [hscan] at hallowed
      exact absurd (hallowed List.mem_cons_self) (lt_irrefl _)

end Steps

open GuardedRun

def Held (s : Receiver T) : Prop :=
  ∃ held, s.Inv held

/-- A receive is selective throughout a run exactly when no message is offered after one
that no clause took. -/
theorem selective_iff (ops : List (ReceiveOp T)) :
    ThroughoutOk step Selective start ops ↔ GuardedOk step Taken start ops := by
  have hstart : Held (start : Receiver T) := ⟨[], inv_start⟩
  apply throughoutOk_iff_guardedOk Taken Selective hstart
  · rintro s op s' ⟨held, h⟩ htaken hs'
    exact h.step htaken hs'
  · rintro s ⟨held, h⟩
    exact h.selective
  · rintro s op s' ⟨held, h⟩ htaken hs'
    exact h.offered_again htaken hs'

/-- A message that no clause takes, and one that comes after it: the first is offered again. -/
def rejecting : List (ReceiveOp Nat) :=
  [.arrive 5, .arrive 6, .loopRec, .loopRecEnd, .loopRec]

theorem rejecting_offers_twice :
    (rejecting.foldlM step start).map (fun s => s.log) = .ok
      [.arrived ⟨0, 5⟩, .arrived ⟨1, 6⟩, .offered ⟨0, 5⟩, .offered ⟨0, 5⟩] ∧
    ¬ ThroughoutOk step Selective start rejecting := by
  refine ⟨rfl, fun h => ?_⟩
  have hlawful := (h rejecting List.prefix_rfl _ rfl).1
  have hallowed := hlawful [.arrived ⟨0, 5⟩, .arrived ⟨1, 6⟩, .offered ⟨0, 5⟩]
    (.offered ⟨0, 5⟩) [] rfl
  exact absurd (hallowed.2.2 ⟨0, 5⟩ List.mem_cons_self) (lt_irrefl _)

end Receiver

end Emulator

end Zeptobeam
