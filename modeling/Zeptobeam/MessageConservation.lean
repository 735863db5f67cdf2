/-
Message conservation.  A scheduler keeps every message it took on, in exactly one
place, as long as none of five things happened: a mailbox was discarded, a message
past `send` met a full mailbox, the hook refused a message of the scheduler itself,
the outbound queue was drained, or the dead letters ran over.
-/
import Zeptobeam.MessageLedger
import Zeptobeam.ClusterOwnership

namespace Zeptobeam

/-- The event drops a message, or the record of one. -/
def Event.loses : Event → Bool
  | .discarded _ _ => true
  | .direct _ _ delivered => !delivered
  | .refused _ _ origin => origin ≠ .caller
  | .drainedOutbound _ _ => true
  | .deadLetter _ _ evicting => evicting
  | _ => false

/-- The messages a run took on: those the scheduler made itself, and those of callers
that the hook, if there is one, accepted. -/
def produced (trace : List Event) (dest : AgentPid) (msg : Message) : Nat :=
  times trace .handed dest msg + times trace .direct dest msg +
    times trace .dropped dest msg - times trace .refusedToCaller dest msg

namespace AgentScheduler

variable {T : AgentTypes}

/-- Each message the run took on is in the mailbox of a live process, handled, in the
outbound queue or dead-lettered, and the dead letters are all on record. -/
structure Conserved (s : AgentScheduler T) : Prop where
  balanced : ∀ dest msg, produced s.trace dest msg =
    (s.mailboxOf dest).count msg + times s.trace .handled dest msg +
      s.outboundMessages.count (dest, msg) + times s.trace .deadLettered dest msg
  recorded : s.deadLetters.buffer.map DeadLetter.targetPid = deadLetterTargets s.trace

namespace Ledger

variable {s : AgentScheduler T}

/-- What the run took on and no place has was lost on one of four ways. -/
theorem balance (h : Ledger [] s) (dest : AgentPid) (msg : Message) :
    produced s.trace dest msg =
      (s.mailboxOf dest).count msg + times s.trace .handled dest msg +
        s.outboundMessages.count (dest, msg) + times s.trace .deadLettered dest msg +
        (times s.trace .discarded dest msg + times s.trace .dropped dest msg +
          times s.trace .refused dest msg + times s.trace .drained dest msg) := by
  have hplaced := h.placed dest msg
  have hmailbox := h.mailbox dest msg
  have houtbound := h.outbound dest msg
  rw [List.count_nil] at hplaced
  unfold produced
  omega

theorem recorded_iff (h : Ledger [] s) :
    s.deadLetters.buffer.map DeadLetter.targetPid = deadLetterTargets s.trace ↔
      evictions s.trace = 0 := by
  rw [h.letters.letters]
  constructor
  · intro hsame
    have hlength := congrArg List.length hsame
    rw [List.length_drop] at hlength
    have hle := h.letters.evicted
    omega
  · intro hnone
    rw [hnone, List.drop_zero]

end Ledger

end AgentScheduler

/-- The fates after which a message is nowhere. -/
def Fate.lossy : Fate → Bool
  | .discarded | .dropped | .refused | .drained => true
  | _ => false

/-- An event loses a message, or the record of one. -/
theorem Event.loses_eq_false_iff (event : Event) :
    event.loses = false ↔
      (∀ fate dest msg, event.fate = some (fate, dest, msg) → fate.lossy = false) ∧
        event.evicts = false := by
  cases event with
  | direct dest msg delivered =>
      cases delivered with
      | false => simp [Event.loses, Event.fate, Fate.lossy, Event.evicts]
      | true => simp [Event.loses, Event.fate, Fate.lossy, Event.evicts]
  | refused dest msg origin =>
      cases origin with
      | caller => simp [Event.loses, Event.fate, Fate.lossy, Event.evicts]
      | _ => simp [Event.loses, Event.fate, Fate.lossy, Event.evicts]
  | _ => simp [Event.loses, Event.fate, Fate.lossy, Event.evicts]

theorem lossless_iff (trace : List Event) :
    (∀ event ∈ trace, event.loses = false) ↔
      (∀ fate : Fate, fate.lossy = true → ∀ dest msg, times trace fate dest msg = 0) ∧
        evictions trace = 0 := by
  constructor
  · intro hlossless
    constructor
    · intro fate hlossy dest msg
      rw [times, List.countP_eq_zero]
      intro event hevent hfate
      have hkept := ((Event.loses_eq_false_iff event).mp (hlossless event hevent)).1
      have hnot := hkept fate dest msg (of_decide_eq_true hfate)
      rw [hlossy] at hnot
      contradiction
    · rw [evictions, List.countP_eq_zero]
      intro event hevent
      have hkept := ((Event.loses_eq_false_iff event).mp (hlossless event hevent)).2
      simp [hkept]
  · rintro ⟨hnone, hevictions⟩ event hevent
    rw [Event.loses_eq_false_iff]
    constructor
    · intro fate dest msg hfate
      by_contra hlossy
      have hzero := hnone fate (by simpa using hlossy) dest msg
      have hpos := times_pos_iff.mpr ⟨event, hevent, hfate⟩
      omega
    · rw [evictions, List.countP_eq_zero] at hevictions
      simpa using hevictions event hevent

namespace AgentScheduler

variable {T : AgentTypes}

/-- In every reachable state, all messages taken on are accounted for exactly when no
step of the run lost one. -/
theorem conserved_iff_lossless (code : AgentCode T) (s : AgentScheduler T)
    (h : Reachable code s) :
    s.Conserved ↔ ∀ event ∈ s.trace, event.loses = false := by
  obtain ⟨bridge, hook, routing, nextPid, nextMonitorRef, ops, hrun⟩ := h
  have hledger : Ledger [] s :=
    (Ledger.stableRun code).run hrun (Ledger.new bridge hook routing nextPid nextMonitorRef)
  rw [lossless_iff]
  constructor
  · rintro ⟨hbalanced, hrecorded⟩
    refine ⟨?_, hledger.recorded_iff.mp hrecorded⟩
    intro fate hlossy dest msg
    have hsame := (hledger.balance dest msg).symm.trans (hbalanced dest msg)
    cases fate with
    | discarded => omega
    | dropped => omega
    | refused => omega
    | drained => omega
    | _ => contradiction
  · rintro ⟨hnone, hevictions⟩
    refine ⟨?_, hledger.recorded_iff.mpr hevictions⟩
    intro dest msg
    rw [hledger.balance dest msg, hnone .discarded rfl, hnone .dropped rfl,
      hnone .refused rfl, hnone .drained rfl]
    rfl

/-- One message is read, and one has nobody to go to. -/
theorem conserved_iff_lossless_of_dead_letter :
    ∃ s, run plainCode (new none none false 1 1)
        [(0, .call (.spawn () .null)), (0, .call (.enqueue 1)),
          (0, .call (.send 1 (.text "a"))), (0, .call (.send 2 (.text "b"))),
          (0, .call (.tick 0 (.latestFirst plainTypes)))] = some s ∧
      s.trace = [.handed 1 (.text "a") .caller, .put 1 (.text "a"),
        .handed 2 (.text "b") .caller, .deadLetter 2 (.text "b") false,
        .handled 1 (.text "a")] ∧ s.Conserved := by
  have htrace : (run plainCode (new none none false 1 1)
      [(0, .call (.spawn () .null)), (0, .call (.enqueue 1)),
        (0, .call (.send 1 (.text "a"))), (0, .call (.send 2 (.text "b"))),
        (0, .call (.tick 0 (.latestFirst plainTypes)))]).map AgentScheduler.trace =
      some [.handed 1 (.text "a") .caller, .put 1 (.text "a"),
        .handed 2 (.text "b") .caller, .deadLetter 2 (.text "b") false,
        .handled 1 (.text "a")] := rfl
  obtain ⟨s, hrun, hs⟩ := Option.map_eq_some_iff.mp htrace
  refine ⟨s, hrun, hs, ?_⟩
  rw [conserved_iff_lossless plainCode s ⟨_, _, _, _, _, _, hrun⟩, hs]
  decide

/-- A process is terminated with a message unread: the message is nowhere. -/
theorem unread_mailbox_not_conserved :
    ∃ s, run plainCode (new none none false 1 1)
        [(0, .call (.spawn () .null)), (0, .call (.send 1 (.text "a"))),
          (1, .call (.terminateProcess 1 .shutdown))] = some s ∧
      produced s.trace 1 (.text "a") = 1 ∧ s.deadLetters.buffer = [] ∧ ¬ s.Conserved := by
  have hlost : (run plainCode (new none none false 1 1)
      [(0, .call (.spawn () .null)), (0, .call (.send 1 (.text "a"))),
        (1, .call (.terminateProcess 1 .shutdown))]).map (fun s =>
      (produced s.trace 1 (.text "a"), s.deadLetters.buffer,
        (s.mailboxOf 1).count (.text "a") + times s.trace .handled 1 (.text "a") +
          s.outboundMessages.count (1, .text "a") +
          times s.trace .deadLettered 1 (.text "a"))) = some (1, [], 0) := by
    decide
  obtain ⟨s, hrun, hs⟩ := Option.map_eq_some_iff.mp hlost
  simp only [Prod.mk.injEq] at hs
  obtain ⟨hproduced, hletters, hplaces⟩ := hs
  refine ⟨s, hrun, hproduced, hletters, ?_⟩
  intro hconserved
  have hbalanced := hconserved.balanced 1 (.text "a")
  omega

end AgentScheduler

/-! ## Across partitions -/

namespace SchedulerCluster

open AgentScheduler (Ledger Allots)

variable {T : AgentTypes}

/-- Each partition keeps its own ledger, at the shared counters. -/
def Accounts (c : SchedulerCluster T) : Prop :=
  ∀ s ∈ c.schedulers, Ledger [] (c.load s)

theorem ledger_shared {s : AgentScheduler T} (h : Ledger [] s) {nextPid : Nat}
    (hnext : s.nextPid ≤ nextPid) (bridge : Option Bridge) (nextMonitorRef : Nat) :
    Ledger [] { s with bridge, nextPid, nextMonitorRef } :=
  ⟨fun q hq => (h.fresh q hq).trans_le hnext, h.placed, h.mailbox, h.outbound, h.letters⟩

namespace Accounts

variable {c : SchedulerCluster T} {s s' : AgentScheduler T}

theorem store (h : c.Accounts) (hs' : Ledger [] s') (hnext : c.nextPid ≤ s'.nextPid) (i : Nat) :
    (c.store i s').Accounts := by
  intro t ht
  rcases List.mem_or_eq_of_mem_set ht with ht | rfl
  · exact ledger_shared (h t ht) hnext _ _
  · exact ledger_shared hs' (Nat.le_refl _) _ _

theorem send (h : c.Accounts) (code : BehaviorCode T) (dest : AgentPid) (msg : Message)
    {origin : Origin} (horigin : origin.ofMonitor = false) :
    (c.send code dest msg origin).2.Accounts := by
  have hreconciled : c.reconcilePidMap.Accounts := h
  unfold SchedulerCluster.send
  dsimp only
  split
  · exact hreconciled
  · split
    · exact hreconciled
    · rename_i s hs
      have hsent := AgentScheduler.messagesOnly_send code (c.reconcilePidMap.load s) dest msg
        horigin
      exact hreconciled.store ((hreconciled s (List.mem_of_getElem? hs)).send code dest msg origin)
        (Nat.le_of_eq hsent.nextPid.symm) _

theorem clusterStable (code : AgentCode T) : ClusterStable code (Accounts (T := T)) where
  part {c i s s'} hs hevolves hc :=
    hc.store (hevolves (Ledger.stableRun code) (hc s (List.mem_of_getElem? hs)))
      (hevolves (Allots.stableRun code (c.load s)) (.refl _)).nextPid i
  route {c} hc := by
    refine routeOutboundMessages_keeps _ (fun dest msg _ horigin h => h.send _ dest msg horigin) ?_
    intro t ht
    obtain ⟨s, hs, rfl⟩ := List.mem_map.mp ht
    exact (hc s hs).drain
  bridges _ _ _ hc t ht := by
    obtain ⟨s, hs, rfl⟩ := List.mem_map.mp ht
    exact ledger_shared (hc s hs) (Nat.le_refl _) _ _
  aside _ _ _ _ _ _ hc t ht := ledger_shared (hc t ht) (Nat.le_add_right _ _) _ _

end Accounts

/-- Whatever a cluster does, the books of every partition balance. -/
theorem partitions_account {code : AgentCode T} {c : SchedulerCluster T}
    (h : Reachable code c) : c.Accounts := by
  obtain ⟨partitions, hook, nextPid, nextMonitorRef, ops, hrun⟩ := h
  refine (Accounts.clusterStable code).run (fun s hs => ?_) hrun
  obtain ⟨i, _, rfl⟩ := List.mem_map.mp hs
  exact Ledger.new none (hook i) true nextPid nextMonitorRef

/-- A message from outside to the second partition. -/
theorem partitions_account_of_send :
    ((run plainCode (new 2 (fun _ => none) 1 1) [(0, .spawn () .null), (0, .spawn () .null),
      (0, .send 2 (.text "a"))]).get rfl).Accounts :=
  partitions_account ⟨2, fun _ => none, 1, 1, _, (Option.some_get _).symm⟩

end SchedulerCluster

end Zeptobeam
