/-
Where each message of a run is.  The trace is read as a ledger: what was handed to
`send` was put, refused, dead-lettered or queued for outside, and what went into a
mailbox is there, or was handled, or was discarded.
-/
import Zeptobeam.SchedulerTermination
import Mathlib.Data.List.Count

namespace Zeptobeam

/-- What happens to a message. -/
inductive Fate where
  | handed
  | put
  | refusedToCaller
  | refused
  | deadLettered
  | queued
  | drained
  | direct
  | dropped
  | handled
  | discarded
deriving DecidableEq

/-- The message an event is about, and what happens to it there. -/
def Event.fate : Event → Option (Fate × AgentPid × Message)
  | .handed dest msg _ => some (.handed, dest, msg)
  | .refused dest msg .caller => some (.refusedToCaller, dest, msg)
  | .refused dest msg _ => some (.refused, dest, msg)
  | .put dest msg => some (.put, dest, msg)
  | .direct dest msg true => some (.direct, dest, msg)
  | .direct dest msg false => some (.dropped, dest, msg)
  | .queuedOutbound dest msg => some (.queued, dest, msg)
  | .drainedOutbound dest msg => some (.drained, dest, msg)
  | .deadLetter dest msg _ => some (.deadLettered, dest, msg)
  | .handled pid msg => some (.handled, pid, msg)
  | .discarded pid msg => some (.discarded, pid, msg)
  | _ => none

def Event.evicts : Event → Bool
  | .deadLetter _ _ evicting => evicting
  | _ => false

def Event.deadLetterTarget : Event → Option AgentPid
  | .deadLetter dest _ _ => some dest
  | _ => none

/-- How often a message of this text for this process met the fate. -/
def times (trace : List Event) (fate : Fate) (dest : AgentPid) (msg : Message) : Nat :=
  trace.countP fun event => event.fate = some (fate, dest, msg)

def deadLetterTargets (trace : List Event) : List AgentPid :=
  trace.filterMap Event.deadLetterTarget

def evictions (trace : List Event) : Nat :=
  trace.countP Event.evicts

@[simp]
theorem times_nil (fate : Fate) (dest : AgentPid) (msg : Message) :
    times [] fate dest msg = 0 := rfl

@[simp]
theorem times_append (trace events : List Event) (fate : Fate) (dest : AgentPid)
    (msg : Message) :
    times (trace ++ events) fate dest msg =
      times trace fate dest msg + times events fate dest msg :=
  List.countP_append

theorem times_cons (event : Event) (trace : List Event) (fate : Fate) (dest : AgentPid)
    (msg : Message) :
    times (event :: trace) fate dest msg =
      times trace fate dest msg +
        if event.fate = some (fate, dest, msg) then 1 else 0 := by
  simp [times, List.countP_cons]

theorem times_pos_iff {trace : List Event} {fate : Fate} {dest : AgentPid}
    {msg : Message} :
    0 < times trace fate dest msg ↔ ∃ event ∈ trace, event.fate = some (fate, dest, msg) := by
  simp [times, List.countP_pos_iff]

/-- One fate for each of some messages. -/
theorem times_map {α : Type} (f : α → Event) (g : α → AgentPid × Message) {fate : Fate}
    (hf : ∀ a, (f a).fate = some (fate, g a)) (items : List α) (fate' : Fate)
    (dest : AgentPid) (msg : Message) :
    times (items.map f) fate' dest msg =
      if fate' = fate then (items.map g).count (dest, msg) else 0 := by
  induction items with
  | nil => simp
  | cons a rest ih =>
      rw [List.map_cons, times_cons, ih, hf, List.map_cons, List.count_cons]
      by_cases hfate : fate' = fate
      · simp [hfate]
      · simp [hfate, Ne.symm hfate]

/-! ## The dead letters -/

/-- The buffer holds the last dead letters of the trace. -/
structure DeadLetterQueue.Keeps (queue : DeadLetterQueue) (trace : List Event) : Prop where
  letters : queue.buffer.map DeadLetter.targetPid =
    (deadLetterTargets trace).drop (evictions trace)
  evicted : evictions trace ≤ (deadLetterTargets trace).length
  capacity : 0 < queue.capacity

namespace DeadLetterQueue.Keeps

variable {queue : DeadLetterQueue} {trace : List Event}

theorem append (h : queue.Keeps trace) {events : List Event}
    (hevents : ∀ event ∈ events, event.deadLetterTarget = none) :
    queue.Keeps (trace ++ events) := by
  have htargets : deadLetterTargets (trace ++ events) = deadLetterTargets trace := by
    rw [deadLetterTargets, List.filterMap_append, List.filterMap_eq_nil_iff.mpr hevents,
      List.append_nil]
    rfl
  have hevictions : evictions (trace ++ events) = evictions trace := by
    have hnone : events.countP Event.evicts = 0 := by
      rw [List.countP_eq_zero]
      intro event hevent
      have htarget := hevents event hevent
      cases event with
      | deadLetter => contradiction
      | _ => exact Bool.false_ne_true
    rw [evictions, List.countP_append, hnone, Nat.add_zero]
    rfl
  refine ⟨?_, ?_, h.capacity⟩
  · rw [htargets, hevictions]
    exact h.letters
  · rw [htargets, hevictions]
    exact h.evicted

theorem log (h : queue.Keeps trace) {event : Event}
    (hevent : event.deadLetterTarget = none) : queue.Keeps (trace ++ [event]) := by
  apply h.append
  intro other hother
  rwa [List.mem_singleton.mp hother]

theorem push (h : queue.Keeps trace) (dest : AgentPid) (msg : Message)
    (reason : DeadLetterReason) :
    (queue.push ⟨none, dest, reason⟩).Keeps (trace ++
      [.deadLetter dest msg (decide (queue.buffer.length ≥ queue.capacity))]) := by
  have htargets : ∀ evicting, deadLetterTargets (trace ++ [.deadLetter dest msg evicting]) =
      deadLetterTargets trace ++ [dest] := by
    intro evicting
    simp [deadLetterTargets, Event.deadLetterTarget]
  have hlength : queue.buffer.length + evictions trace =
      (deadLetterTargets trace).length := by
    have hlength := congrArg List.length h.letters
    rw [List.length_map, List.length_drop] at hlength
    have hle := h.evicted
    omega
  have hcapacity := h.capacity
  by_cases hfull : queue.buffer.length ≥ queue.capacity
  · have hevictions : evictions (trace ++ [.deadLetter dest msg true]) =
        evictions trace + 1 := by
      simp [evictions, Event.evicts]
    rw [decide_eq_true hfull]
    refine ⟨?_, ?_, h.capacity⟩
    · rw [htargets, hevictions, List.drop_append_of_le_length (by omega), ← List.drop_drop,
        ← h.letters]
      simp [DeadLetterQueue.push, hfull]
    · rw [htargets, hevictions, List.length_append]
      omega
  · have hevictions : evictions (trace ++ [.deadLetter dest msg false]) =
        evictions trace := by
      simp [evictions, Event.evicts]
    rw [decide_eq_false hfull]
    refine ⟨?_, ?_, h.capacity⟩
    · rw [htargets, hevictions, List.drop_append_of_le_length (by omega), ← h.letters]
      simp [DeadLetterQueue.push, hfull]
    · rw [htargets, hevictions, List.length_append]
      omega

end DeadLetterQueue.Keeps

theorem Event.deadLetterTarget_of_fate {event : Event} (h : event.fate = none) :
    event.deadLetterTarget = none := by
  cases event with
  | deadLetter => contradiction
  | _ => rfl

namespace AgentScheduler

variable {T : AgentTypes}

def mailboxOf (s : AgentScheduler T) (pid : AgentPid) : List Message :=
  (s.lookup pid).elim [] AgentProcess.mailbox

theorem mailboxOf_modify (s : AgentScheduler T) (pid q : AgentPid)
    (f : AgentProcess T → AgentProcess T) :
    (s.modify pid f).mailboxOf q =
      if q = pid then (s.lookup q).elim [] fun proc => (f proc).mailbox
      else s.mailboxOf q := by
  rw [mailboxOf, lookup_modify]
  by_cases hq : q = pid
  · rw [if_pos hq, if_pos hq]
    cases s.lookup q with
    | none => rfl
    | some proc => rfl
  · rw [if_neg hq, if_neg hq, mailboxOf]

/-- A change that leaves the mailbox alone. -/
theorem mailboxOf_modify_same {s : AgentScheduler T} {pid : AgentPid}
    {f : AgentProcess T → AgentProcess T} (hf : ∀ proc, (f proc).mailbox = proc.mailbox)
    (q : AgentPid) : (s.modify pid f).mailboxOf q = s.mailboxOf q := by
  rw [mailboxOf_modify]
  split
  · simp only [hf]
    rfl
  · rfl

/-- The ledger of a scheduler's messages, while `send` owes some of them a place. -/
structure Ledger (owing : List (AgentPid × Message)) (s : AgentScheduler T) : Prop where
  fresh : ∀ q, (s.lookup q).isSome → q < s.nextPid
  placed : ∀ dest msg, times s.trace .handed dest msg =
    times s.trace .put dest msg + times s.trace .refusedToCaller dest msg +
      times s.trace .refused dest msg + times s.trace .deadLettered dest msg +
      times s.trace .queued dest msg + owing.count (dest, msg)
  mailbox : ∀ dest msg, (s.mailboxOf dest).count msg + times s.trace .handled dest msg +
    times s.trace .discarded dest msg =
      times s.trace .put dest msg + times s.trace .direct dest msg
  outbound : ∀ dest msg, s.outboundMessages.count (dest, msg) +
    times s.trace .drained dest msg = times s.trace .queued dest msg
  letters : s.deadLetters.Keeps s.trace

namespace Ledger

variable {owing owing' : List (AgentPid × Message)} {s s' : AgentScheduler T}

theorem new (bridge : Option Bridge) (hook : Option T.Hook) (routing : Bool)
    (nextPid nextMonitorRef : Nat) :
    Ledger [] (new bridge hook routing nextPid nextMonitorRef : AgentScheduler T) := by
  refine ⟨?_, fun _ _ => rfl, fun _ _ => rfl, fun _ _ => rfl, rfl, Nat.le_refl _, ?_⟩
  · intro q hq
    contradiction
  · exact Nat.zero_lt_succ _

/-- The new events account for what changed. -/
theorem step (h : Ledger owing s) {events : List Event}
    (htrace : s'.trace = s.trace ++ events)
    (hfresh : ∀ q, (s'.lookup q).isSome → q < s'.nextPid)
    (hletters : s'.deadLetters.Keeps (s.trace ++ events))
    (hplaced : ∀ d m, times events .handed d m + owing.count (d, m) =
      times events .put d m + times events .refusedToCaller d m +
        times events .refused d m + times events .deadLettered d m +
        times events .queued d m + owing'.count (d, m))
    (hmailbox : ∀ d m, (s'.mailboxOf d).count m + times events .handled d m +
      times events .discarded d m =
        (s.mailboxOf d).count m + times events .put d m + times events .direct d m)
    (houtbound : ∀ d m, s'.outboundMessages.count (d, m) + times events .drained d m =
      s.outboundMessages.count (d, m) + times events .queued d m) : Ledger owing' s' := by
  refine ⟨hfresh, ?_, ?_, ?_, htrace ▸ hletters⟩
  · intro d m
    have hold := h.placed d m
    have hnew := hplaced d m
    simp only [htrace, times_append]
    omega
  · intro d m
    have hold := h.mailbox d m
    have hnew := hmailbox d m
    simp only [htrace, times_append]
    omega
  · intro d m
    have hold := h.outbound d m
    have hnew := houtbound d m
    simp only [htrace, times_append]
    omega

/-- No message moves. -/
theorem quiet (h : Ledger owing s)
    (htrace : ∃ events, s'.trace = s.trace ++ events ∧ ∀ event ∈ events, event.fate = none)
    (hmailbox : ∀ q, s'.mailboxOf q = s.mailboxOf q)
    (houtbound : s'.outboundMessages = s.outboundMessages)
    (hletters : s'.deadLetters = s.deadLetters)
    (hfresh : ∀ q, (s'.lookup q).isSome → q < s'.nextPid) : Ledger owing s' := by
  obtain ⟨events, htrace, hevents⟩ := htrace
  have hkept : s'.deadLetters.Keeps (s.trace ++ events) := by
    rw [hletters]
    apply h.letters.append
    exact fun event hevent => Event.deadLetterTarget_of_fate (hevents event hevent)
  have hnone : ∀ fate d m, times events fate d m = 0 := by
    intro fate d m
    rw [times, List.countP_eq_zero]
    intro event hevent
    simp [hevents event hevent]
  apply h.step htrace hfresh hkept
  · intro d m
    simp only [hnone]
  · intro d m
    simp only [hnone, hmailbox]
  · intro d m
    simp only [hnone, houtbound]

/-- The processes are the same, and the events logged are about no message. -/
theorem same (h : Ledger owing s)
    (htrace : ∃ events, s'.trace = s.trace ++ events ∧ ∀ event ∈ events, event.fate = none)
    (hlookup : ∀ q, s'.lookup q = s.lookup q)
    (houtbound : s'.outboundMessages = s.outboundMessages)
    (hletters : s'.deadLetters = s.deadLetters)
    (hnextPid : s.nextPid ≤ s'.nextPid) : Ledger owing s' := by
  apply h.quiet htrace _ houtbound hletters
  · intro q hq
    rw [hlookup q] at hq
    exact Nat.lt_of_lt_of_le (h.fresh q hq) hnextPid
  · intro q
    rw [mailboxOf, hlookup q, mailboxOf]

theorem log (h : Ledger owing s) {event : Event} (hevent : event.fate = none) :
    Ledger owing (s.log event) := by
  refine h.same ⟨[event], rfl, ?_⟩ (fun _ => rfl) rfl rfl (Nat.le_refl _)
  intro other hother
  rwa [List.mem_singleton.mp hother]

theorem fresh_modify (h : Ledger owing s) (pid : AgentPid)
    (f : AgentProcess T → AgentProcess T) (q : AgentPid)
    (hq : ((s.modify pid f).lookup q).isSome) : q < s.nextPid := by
  rw [lookup_modify] at hq
  apply h.fresh q
  split at hq
  · simpa using hq
  · exact hq

theorem modify (h : Ledger owing s) (pid : AgentPid)
    {f : AgentProcess T → AgentProcess T} (hf : ∀ proc, (f proc).mailbox = proc.mailbox) :
    Ledger owing (s.modify pid f) :=
  h.quiet ⟨[], by simp [AgentScheduler.modify]⟩ (mailboxOf_modify_same hf) rfl rfl
    (h.fresh_modify pid f)

/-! ## What `send` does -/

theorem handed (h : Ledger owing s) (dest : AgentPid) (msg : Message) (origin : Origin) :
    Ledger ((dest, msg) :: owing) (s.log (.handed dest msg origin)) := by
  refine h.step rfl h.fresh (h.letters.log rfl) ?_ ?_ ?_
  · intro d m
    simp only [times_cons, times_nil, Event.fate, List.count_cons]
    simp
    omega
  · intro d m
    simp [times_cons, Event.fate, mailboxOf]
  · intro d m
    simp [times_cons, Event.fate, AgentScheduler.log]

theorem refused {dest : AgentPid} {msg : Message} (h : Ledger ((dest, msg) :: owing) s)
    (origin : Origin) : Ledger owing (s.log (.refused dest msg origin)) := by
  have hfate : (Event.refused dest msg origin).fate = some (.refusedToCaller, dest, msg) ∨
      (Event.refused dest msg origin).fate = some (.refused, dest, msg) := by
    cases origin with
    | caller => exact .inl rfl
    | _ => exact .inr rfl
  refine h.step rfl h.fresh (h.letters.log rfl) ?_ ?_ ?_
  · intro d m
    simp only [times_cons, times_nil, List.count_cons]
    rcases hfate with hfate | hfate
    · simp [hfate]
      omega
    · simp [hfate]
      omega
  · intro d m
    rcases hfate with hfate | hfate
    · simp [times_cons, hfate, mailboxOf]
    · simp [times_cons, hfate, mailboxOf]
  · intro d m
    rcases hfate with hfate | hfate
    · simp [times_cons, hfate, AgentScheduler.log]
    · simp [times_cons, hfate, AgentScheduler.log]

theorem offer (h : Ledger owing s) (code : BehaviorCode T) (dest : AgentPid)
    (msg : Message) : Ledger owing (s.offer code dest msg).2 := by
  rcases offer_cases code s dest msg with ⟨_, hoffer⟩ | ⟨hook, _, hoffer⟩ |
    ⟨text, hook, _, hoffer⟩
  · rw [hoffer]
    exact h
  all_goals
    rw [hoffer]
    exact h.same ⟨_, rfl, by simp [Event.fate]⟩ (fun _ => rfl) rfl rfl (Nat.le_refl _)

theorem mailboxOf_deliver {proc delivered : AgentProcess T} {dest : AgentPid}
    {msg : Message} (hproc : s.lookup dest = some proc)
    (hdeliver : proc.deliverMessage msg = some delivered) (q : AgentPid) :
    (s.modify dest fun _ => delivered).mailboxOf q =
      if q = dest then s.mailboxOf q ++ [msg] else s.mailboxOf q := by
  rw [mailboxOf_modify]
  by_cases hq : q = dest
  · rw [if_pos hq, if_pos hq, mailboxOf, hq, hproc]
    rw [← (AgentProcess.deliverMessage_eq_some.mp hdeliver).2]
    rfl
  · rw [if_neg hq, if_neg hq]

theorem deadLetter {dest : AgentPid} {msg : Message} (h : Ledger ((dest, msg) :: owing) s)
    (reason : DeadLetterReason) : Ledger owing (s.pushDeadLetter dest msg reason) := by
  refine h.step rfl h.fresh (h.letters.push dest msg reason) ?_ ?_ ?_
  · intro d m
    simp only [times_cons, times_nil, Event.fate, List.count_cons]
    simp
    omega
  · intro d m
    simp [times_cons, Event.fate, mailboxOf, AgentScheduler.lookup, pushDeadLetter,
      AgentScheduler.log]
  · intro d m
    simp [times_cons, Event.fate, pushDeadLetter, AgentScheduler.log]

theorem route {dest : AgentPid} {msg : Message} (h : Ledger ((dest, msg) :: owing) s) :
    Ledger owing (s.route dest msg).2 := by
  rcases route_cases s dest msg with ⟨proc, delivered, _, _, _, _, hproc, hdeliver, hroute⟩ |
    ⟨reason, metrics, hroute⟩ | hroute
  · rw [hroute]
    refine h.step rfl (h.fresh_modify dest _) (h.letters.log rfl) ?_ ?_ ?_
    · intro d m
      simp only [times_cons, times_nil, Event.fate, List.count_cons]
      simp
      omega
    · intro d m
      have hmailbox := mailboxOf_deliver hproc hdeliver d
      change (List.count m ((s.modify dest fun _ => delivered).mailboxOf d)) + _ + _ = _
      rw [hmailbox]
      by_cases hd : d = dest
      · simp [times_cons, Event.fate, hd, List.count_cons]
      · simp [times_cons, Event.fate, hd, Ne.symm hd]
    · intro d m
      simp [times_cons, Event.fate]
  · rw [hroute]
    apply deadLetter
    exact h.same ⟨[], by simp⟩ (fun _ => rfl) rfl rfl (Nat.le_refl _)
  · rw [hroute]
    refine h.step rfl h.fresh (h.letters.log rfl) ?_ ?_ ?_
    · intro d m
      simp only [times_cons, times_nil, Event.fate, List.count_cons]
      simp
      omega
    · intro d m
      simp [times_cons, Event.fate, mailboxOf, AgentScheduler.lookup, AgentScheduler.log]
    · intro d m
      simp [times_cons, Event.fate, AgentScheduler.log, List.count_cons]

theorem send (h : Ledger owing s) (code : BehaviorCode T) (dest : AgentPid) (msg : Message)
    (origin : Origin) : Ledger owing (s.send code dest msg origin).2 := by
  have hasked := (h.handed dest msg origin).offer code dest msg
  unfold AgentScheduler.send
  generalize (s.log (.handed dest msg origin)).offer code dest msg = asked at hasked
  obtain ⟨answer, asked⟩ := asked
  cases answer with
  | error text => exact hasked.refused origin
  | ok => exact hasked.route

/-! ## The other moves -/

theorem direct (h : Ledger owing s) (dest : AgentPid) (msg : Message) :
    Ledger owing (s.deliverDirect dest msg) := by
  unfold deliverDirect
  split
  · exact h
  · rename_i proc hproc
    split
    · refine h.step rfl h.fresh (h.letters.log rfl) ?_ ?_ ?_
      · intro d m
        simp [times_cons, Event.fate]
      · intro d m
        simp [times_cons, Event.fate, mailboxOf]
      · intro d m
        simp [times_cons, Event.fate, AgentScheduler.log]
    · rename_i delivered hdeliver
      refine h.step rfl (h.fresh_modify dest _) (h.letters.log rfl) ?_ ?_ ?_
      · intro d m
        simp [times_cons, Event.fate]
      · intro d m
        have hmailbox := mailboxOf_deliver hproc hdeliver d
        change (List.count m ((s.modify dest fun _ => delivered).mailboxOf d)) + _ + _ = _
        rw [hmailbox]
        by_cases hd : d = dest
        · simp [times_cons, Event.fate, hd, List.count_cons]
        · simp [times_cons, Event.fate, hd, Ne.symm hd]
      · intro d m
        simp [times_cons, Event.fate, AgentScheduler.log, AgentScheduler.modify]

/-- The first message leaves the mailbox, for good or for the behaviour. -/
theorem take (h : Ledger owing s) {pid : AgentPid} {proc : AgentProcess T} {msg : Message}
    {rest : List Message} {event : Event}
    (hevent : event = .handled pid msg ∨ event = .discarded pid msg)
    (hproc : s.lookup pid = some proc) (hmailbox : proc.mailbox = msg :: rest)
    (state : Option T.State) : Ledger owing ((s.takeMessage pid state).log event) := by
  have htarget : event.deadLetterTarget = none := by
    rcases hevent with rfl | rfl
    · rfl
    · rfl
  refine h.step rfl (h.fresh_modify pid _) (h.letters.log htarget) ?_ ?_ ?_
  · intro d m
    rcases hevent with rfl | rfl
    · simp [times_cons, Event.fate]
    · simp [times_cons, Event.fate]
  · intro d m
    have hafter : ((s.takeMessage pid state).log event).mailboxOf d =
        if d = pid then rest else s.mailboxOf d := by
      change (s.modify pid _).mailboxOf d = _
      rw [mailboxOf_modify]
      by_cases hd : d = pid
      · rw [if_pos hd, if_pos hd, hd, hproc]
        simp [hmailbox]
      · rw [if_neg hd, if_neg hd]
    have hbefore : s.mailboxOf pid = msg :: rest := by
      rw [mailboxOf, hproc]
      exact hmailbox
    rw [hafter]
    by_cases hd : d = pid
    · rcases hevent with rfl | rfl
      · simp [times_cons, Event.fate, hd, hbefore, List.count_cons]
      · simp [times_cons, Event.fate, hd, hbefore, List.count_cons]
    · rcases hevent with rfl | rfl
      · simp [times_cons, Event.fate, hd, Ne.symm hd]
      · simp [times_cons, Event.fate, hd, Ne.symm hd]
  · intro d m
    rcases hevent with rfl | rfl
    · simp [times_cons, Event.fate, AgentScheduler.log, takeMessage, AgentScheduler.modify]
    · simp [times_cons, Event.fate, AgentScheduler.log, takeMessage, AgentScheduler.modify]

theorem drain (h : Ledger owing s) : Ledger owing s.drainOutboundMessages.2 := by
  have htimes := times_map (fun message => Event.drainedOutbound message.1 message.2) id
    (fun _ => rfl) s.outboundMessages
  have htarget : ∀ event ∈ s.outboundMessages.map fun message =>
      Event.drainedOutbound message.1 message.2, event.deadLetterTarget = none := by
    intro event hevent
    obtain ⟨message, _, rfl⟩ := List.mem_map.mp hevent
    rfl
  refine h.step rfl h.fresh (h.letters.append htarget) ?_ ?_ ?_
  · intro d m
    simp [htimes]
  · intro d m
    simp [htimes, mailboxOf, AgentScheduler.lookup, drainOutboundMessages]
  · intro d m
    simp [htimes, drainOutboundMessages]

theorem remove (h : Ledger owing s) (pid : AgentPid) :
    Ledger owing (s.removeProcess pid) := by
  cases hproc : s.lookup pid with
  | none => rwa [removeProcess_of_dead hproc]
  | some proc =>
      have htimes : ∀ fate d m, times (.removed pid :: proc.mailbox.map fun msg =>
          .discarded pid msg) fate d m =
          if fate = .discarded then (proc.mailbox.map fun msg => (pid, msg)).count (d, m)
          else 0 := by
        intro fate d m
        rw [times_cons, times_map _ (fun msg => (pid, msg)) fun _ => rfl]
        simp [Event.fate]
      apply h.step (by rw [removeProcess_of_live hproc])
      · intro q hq
        rw [lookup_removeProcess] at hq
        rw [removeProcess_of_live hproc]
        apply h.fresh q
        split at hq
        · contradiction
        · exact hq
      · rw [removeProcess_of_live hproc]
        apply h.letters.append
        intro event hevent
        rcases List.mem_cons.mp hevent with rfl | hevent
        · rfl
        · obtain ⟨msg, _, rfl⟩ := List.mem_map.mp hevent
          rfl
      · intro d m
        simp [htimes]
      · intro d m
        have hafter : (s.removeProcess pid).mailboxOf d =
            if d = pid then [] else s.mailboxOf d := by
          rw [mailboxOf, lookup_removeProcess]
          split
          · rfl
          · rfl
        have hbefore : s.mailboxOf pid = proc.mailbox := by
          rw [mailboxOf, hproc]
          rfl
        rw [hafter]
        by_cases hd : d = pid
        · have hinj : Function.Injective fun msg : Message => (pid, msg) := by
            intro a b hab
            simpa using hab
          have hcount := List.count_map_of_injective proc.mailbox _ hinj m
          simp [htimes, hd, hbefore, hcount]
        · have hcount : (proc.mailbox.map fun msg => (pid, msg)).count (d, m) = 0 := by
            rw [List.count_eq_zero]
            intro hmem
            obtain ⟨msg, _, heq⟩ := List.mem_map.mp hmem
            exact hd (congrArg Prod.fst heq).symm
          simp [htimes, hd, hcount]
      · intro d m
        rw [removeProcess_of_live hproc]
        simp [htimes]

theorem spawn (h : Ledger owing s) (code : BehaviorCode T) (behavior : T.Behavior)
    (args : Json) : Ledger owing (s.spawn code behavior args).2 := by
  rcases spawn_cases code s behavior args with ⟨reason, hspawn⟩ |
    ⟨registry, state, hspawn, hlookup⟩
  · rw [hspawn]
    exact h.same ⟨[], by simp⟩ (fun _ => rfl) rfl rfl (Nat.le_succ _)
  · rw [hspawn]
    have hnew : s.lookup s.nextPid = none := by
      cases hproc : s.lookup s.nextPid with
      | none => rfl
      | some proc =>
          have hlt := h.fresh s.nextPid (by rw [hproc]; rfl)
          exact absurd hlt (Nat.lt_irrefl _)
    refine h.quiet ⟨[], by simp⟩ ?_ rfl rfl ?_
    · intro q
      change (registry.lookup q).elim [] AgentProcess.mailbox = s.mailboxOf q
      rw [hlookup q, mailboxOf]
      by_cases hq : q = s.nextPid
      · rw [if_pos hq, hq, hnew]
        rfl
      · rw [if_neg hq]
    · intro q hq
      change (registry.lookup q).isSome at hq
      rw [hlookup q] at hq
      by_cases hpid : q = s.nextPid
      · exact Nat.lt_succ_of_le (Nat.le_of_eq hpid)
      · rw [if_neg hpid] at hq
        exact Nat.lt_succ_of_lt (h.fresh q hq)

theorem stable (code : BehaviorCode T) : Stable code (Ledger owing) := by
  intro s s' hmove h
  have hsame : ∀ {s' : AgentScheduler T}, s'.trace = s.trace → s'.outboundMessages =
      s.outboundMessages → s'.deadLetters = s.deadLetters →
      (∀ q, s'.lookup q = s.lookup q) → s.nextPid ≤ s'.nextPid → Ledger owing s' := by
    intro s' htrace houtbound hletters hlookup hnextPid
    exact h.same ⟨[], by simpa using htrace⟩ hlookup houtbound hletters hnextPid
  cases hmove with
  | aside | rename | routing | hook => exact hsame rfl rfl rfl (fun _ => rfl) (Nat.le_refl _)
  | hookCleared =>
      exact h.same ⟨[.hookCleared], rfl, by simp [Event.fate]⟩ (fun _ => rfl) rfl rfl
        (Nat.le_refl _)
  | counters => exact hsame rfl rfl rfl (fun _ => rfl) (Nat.le_add_right _ _)
  | adjust pid f hquiet => exact h.modify pid hquiet.mailbox
  | send dest msg origin => exact h.send code dest msg origin
  | direct dest msg => exact h.direct dest msg
  | handle pid proc msg rest state hproc hmailbox =>
      exact h.take (.inl rfl) hproc hmailbox state
  | discard pid proc msg rest state hproc hmailbox =>
      exact h.take (.inr rfl) hproc hmailbox state
  | acceptIo pid correlationId => exact h.log rfl
  | spawn behavior args => exact h.spawn code behavior args
  | link first second =>
      unfold link
      apply modify
      · exact h.modify first fun _ => rfl
      · exact fun _ => rfl
  | monitor watcher target =>
      rcases monitor_cases s watcher target with ⟨text, hmonitor⟩ | ⟨_, _, hmonitor⟩
      · rw [hmonitor]
        exact h
      · rw [hmonitor]
        have hnext : Ledger owing { s with nextMonitorRef := s.nextMonitorRef + 1 } :=
          hsame rfl rfl rfl (fun _ => rfl) (Nat.le_refl _)
        apply log
        · apply modify
          · exact hnext.modify watcher fun _ => rfl
          · exact fun _ => rfl
        · rfl
  | demonitor watcher monitorRef =>
      rcases demonitor_cases s watcher monitorRef with hdemonitor |
        ⟨proc, i, target, _, _, hdemonitor⟩
      · rw [hdemonitor]
        exact h
      · rw [hdemonitor]
        apply log
        · apply modify
          · exact h.modify watcher fun _ => rfl
          · exact fun _ => rfl
        · rfl
  | drain => exact h.drain

theorem stableRun (code : AgentCode T) : StableRun code (Ledger owing (T := T)) := by
  have hnotices : StableNotices code.toBehaviorCode (Ledger owing (T := T)) :=
    { move := stable code.toBehaviorCode
      dropMonitoredBy := fun target _ _ h => h.modify target fun _ => rfl
      dropMonitor := fun watcher _ _ h => h.modify watcher fun _ => rfl
      down := fun _ _ _ h => h.send code.toBehaviorCode _ _ _ }
  refine ⟨hnotices.move, ?_, ?_, ?_, ?_⟩
  · intro s pid reason h
    exact hnotices.takeDown (fun _ _ _ _ h => h.log rfl) (fun pid h => h.remove pid) h pid
      reason
  · intro s exitHandlers handlersOut h
    exact h.same ⟨[], by simp⟩ (fun _ => rfl) rfl rfl (Nat.le_refl _)
  · intro s id handlersOut h
    exact h.log rfl
  · intro s id pid reason h
    exact h.log rfl

end Ledger

end AgentScheduler

end Zeptobeam
