/-
What taking a process down does to everybody else: the removed process is gone,
the records of its monitors are dropped at the other ends, and its links are told.
-/
import Zeptobeam.SchedulerMoves

namespace Zeptobeam

/-- What is left of the relations of `q` when the records it shares with a removed
process are dropped at its end. -/
def Relations.without (r : Relations) (pid q : AgentPid)
    (monitors monitoredBy : List (MonitorRef × AgentPid)) : Relations :=
  { r with
    monitors := r.monitors.filter fun x => ¬ (x.2 = pid ∧ (x.1, q) ∈ monitoredBy)
    monitoredBy := r.monitoredBy.filter fun x => ¬ (x.2 = pid ∧ (x.1, q) ∈ monitors) }

namespace AgentScheduler

variable {T : AgentTypes}

@[simp]
theorem lookup_removeProcess (s : AgentScheduler T) (pid q : AgentPid) :
    (s.removeProcess pid).lookup q = if q = pid then none else s.lookup q := by
  cases hproc : s.lookup pid with
  | none =>
      simp only [removeProcess, hproc]
      by_cases hq : q = pid
      · rw [if_pos hq, hq, hproc]
      · rw [if_neg hq]
  | some proc =>
      simp only [removeProcess, hproc]
      exact AgentRegistry.lookup_remove s.registry pid q

theorem removeProcess_of_dead {s : AgentScheduler T} {pid : AgentPid}
    (hdead : s.lookup pid = none) : s.removeProcess pid = s := by
  simp only [removeProcess, hdead]

theorem removeProcess_of_live {s : AgentScheduler T} {pid : AgentPid}
    {proc : AgentProcess T} (hproc : s.lookup pid = some proc) :
    s.removeProcess pid = { s with
      registry := s.registry.remove pid
      trace := s.trace ++ .removed pid ::
        proc.mailbox.map fun msg => .discarded pid msg } := by
  simp only [removeProcess, hproc]

/-! ## The other ends of the monitors -/

/-- Each record changes the process it points to. -/
theorem modifyAll_eq (f : MonitorRef × AgentPid → AgentProcess T → AgentProcess T)
    (records : List (MonitorRef × AgentPid)) (s : AgentScheduler T) :
    ∃ registry,
      records.foldl (fun s record => s.modify record.2 (f record)) s =
        { s with registry } ∧
      ∀ q, registry.lookup q = (s.lookup q).map fun proc =>
        (records.filter (·.2 = q)).foldl (fun proc record => f record proc) proc := by
  induction records generalizing s with
  | nil => exact ⟨s.registry, rfl, fun q => by simp [lookup]⟩
  | cons record rest ih =>
      obtain ⟨registry, hrest, hlookup⟩ := ih (s.modify record.2 (f record))
      refine ⟨registry, hrest, ?_⟩
      intro q
      rw [hlookup q, lookup_modify]
      by_cases hq : q = record.2
      · rw [if_pos hq, Option.map_map, List.filter_cons_of_pos (by simp [hq])]
        rfl
      · rw [if_neg hq, List.filter_cons_of_neg (by simpa using fun h => hq h.symm)]

theorem foldl_filter_ne {α β : Type} [DecidableEq β] (g : α → β) (records : List α)
    (items : List β) :
    records.foldl (fun items record => items.filter (· ≠ g record)) items =
      items.filter fun x => x ∉ records.map g := by
  induction records generalizing items with
  | nil => simp
  | cons record rest ih =>
      rw [List.foldl_cons, ih, List.filter_filter]
      apply List.filter_congr
      intro x _
      simp [Bool.and_comm, -List.mem_map]

theorem mem_shared_iff {records : List (MonitorRef × AgentPid)} {pid q : AgentPid}
    {x : MonitorRef × AgentPid} :
    x ∈ (records.filter (·.2 = q)).map (fun record => (record.1, pid)) ↔
      x.2 = pid ∧ (x.1, q) ∈ records := by
  obtain ⟨ref, other⟩ := x
  constructor
  · intro hx
    obtain ⟨⟨ref', q'⟩, hrecord, heq⟩ := List.mem_map.mp hx
    obtain ⟨hmem, hq⟩ := List.mem_filter.mp hrecord
    simp only [Prod.mk.injEq, decide_eq_true_eq] at heq hq
    obtain ⟨rfl, rfl⟩ := heq
    exact ⟨rfl, hq ▸ hmem⟩
  · rintro ⟨hpid, hmem⟩
    apply List.mem_map.mpr
    exact ⟨(ref, q), List.mem_filter.mpr ⟨hmem, by simp⟩, by simpa using hpid.symm⟩

theorem dropMonitoredBy_all (s : AgentScheduler T) (pid : AgentPid)
    (monitors : List (MonitorRef × AgentPid)) :
    ∃ registry,
      monitors.foldl (fun s record => s.dropMonitoredBy record.2 record.1 pid) s =
        { s with registry } ∧
      ∀ q, (registry.lookup q).map AgentProcess.relations =
        (s.relations q).map fun r => r.without pid q monitors [] := by
  obtain ⟨registry, heq, hlookup⟩ := modifyAll_eq (fun record proc =>
    { proc with monitoredBy := proc.monitoredBy.filter (· ≠ (record.1, pid)) }) monitors s
  refine ⟨registry, heq, ?_⟩
  intro q
  rw [hlookup q, relations, Option.map_map, Option.map_map]
  congr 1
  funext proc
  have hfold : ∀ (records : List (MonitorRef × AgentPid)) (proc : AgentProcess T),
      records.foldl (fun proc record => { proc with
        monitoredBy := proc.monitoredBy.filter (· ≠ (record.1, pid)) }) proc =
      { proc with
        monitoredBy := records.foldl
          (fun items record => items.filter (· ≠ (record.1, pid))) proc.monitoredBy } :=
    fun records proc =>
      List.foldl_hom (fun items => { proc with monitoredBy := items }) fun _ _ => rfl
  simp only [Function.comp, hfold, foldl_filter_ne, mem_shared_iff, AgentProcess.relations,
    Relations.without]
  simp

theorem dropMonitor_all (s : AgentScheduler T) (pid : AgentPid)
    (monitoredBy : List (MonitorRef × AgentPid)) :
    ∃ registry,
      monitoredBy.foldl (fun s record => s.dropMonitor record.2 record.1 pid) s =
        { s with registry } ∧
      ∀ q, (registry.lookup q).map AgentProcess.relations =
        (s.relations q).map fun r => r.without pid q [] monitoredBy := by
  obtain ⟨registry, heq, hlookup⟩ := modifyAll_eq (fun record proc =>
    { proc with monitors := proc.monitors.filter (· ≠ (record.1, pid)) }) monitoredBy s
  refine ⟨registry, heq, ?_⟩
  intro q
  rw [hlookup q, relations, Option.map_map, Option.map_map]
  congr 1
  funext proc
  have hfold : ∀ (records : List (MonitorRef × AgentPid)) (proc : AgentProcess T),
      records.foldl (fun proc record => { proc with
        monitors := proc.monitors.filter (· ≠ (record.1, pid)) }) proc =
      { proc with
        monitors := records.foldl
          (fun items record => items.filter (· ≠ (record.1, pid))) proc.monitors } :=
    fun records proc =>
      List.foldl_hom (fun items => { proc with monitors := items }) fun _ _ => rfl
  simp only [Function.comp, hfold, foldl_filter_ne, mem_shared_iff, AgentProcess.relations,
    Relations.without]
  simp

theorem Relations.without_without (r : Relations) (pid q : AgentPid)
    (monitors monitoredBy : List (MonitorRef × AgentPid)) :
    (r.without pid q monitors []).without pid q [] monitoredBy =
      r.without pid q monitors monitoredBy := by
  simp [Zeptobeam.Relations.without]

/-! ## The links -/

/-- The linked processes that die next. -/
def cascading (s : AgentScheduler T) (reason : Reason) (links : List AgentPid) :
    List AgentPid :=
  if reason = .normal then []
  else links.filter fun q => (s.relations q).any fun r => !r.trapExit

/-- One link: the process that traps gets a message, the other its turn to die. -/
theorem notifyLink_spec (pid : AgentPid) (reason : Reason) (notices : LinkNotices T)
    (linked : AgentPid) :
    MessagesOnly notices.scheduler (notifyLink pid reason notices linked).scheduler ∧
      (notifyLink pid reason notices linked).pidsToCascade =
        notices.pidsToCascade ++ notices.scheduler.cascading reason [linked] ∧
      ((notices.scheduler.relations linked).any (·.trapExit) →
        ∃ delivered, (notifyLink pid reason notices linked).scheduler.trace =
          notices.scheduler.trace ++
            [.direct linked (.system (.exit pid reason)) delivered]) := by
  cases hproc : notices.scheduler.lookup linked with
  | none => simp [notifyLink, hproc, relations, cascading, MessagesOnly.refl]
  | some proc =>
      by_cases htrap : proc.trapExit
      · have hdirect := messagesOnly_deliverDirect notices.scheduler linked
          (.system (.exit pid reason))
        simp only [notifyLink, hproc, htrap, if_true]
        refine ⟨hdirect, ?_, ?_⟩
        · simp [cascading, relations, hproc, AgentProcess.relations, htrap]
        · intro _
          unfold deliverDirect
          simp only [hproc]
          split
          · exact ⟨false, rfl⟩
          · exact ⟨true, rfl⟩
      · have hnotrap : ¬ (notices.scheduler.relations linked).any (·.trapExit) := by
          simp [relations, hproc, AgentProcess.relations, htrap]
        simp only [notifyLink, hproc, if_neg htrap]
        by_cases hnormal : reason = .normal
        · simp [hnormal, cascading, MessagesOnly.refl, hnotrap]
        · rw [if_pos hnormal]
          refine ⟨.refl _, ?_, fun htrapping => absurd htrapping hnotrap⟩
          simp [cascading, hnormal, relations, hproc, AgentProcess.relations, htrap]

/-- What all links of a terminated process get. -/
theorem notifyLinks_spec (pid : AgentPid) (reason : Reason) (links : List AgentPid)
    (notices : LinkNotices T) :
    MessagesOnly notices.scheduler (links.foldl (notifyLink pid reason) notices).scheduler ∧
      (links.foldl (notifyLink pid reason) notices).pidsToCascade =
        notices.pidsToCascade ++ notices.scheduler.cascading reason links ∧
      ∃ events, (links.foldl (notifyLink pid reason) notices).scheduler.trace =
          notices.scheduler.trace ++ events ∧
        ∀ linked ∈ links, (notices.scheduler.relations linked).any (·.trapExit) →
          ∃ delivered, .direct linked (.system (.exit pid reason)) delivered ∈ events := by
  induction links generalizing notices with
  | nil => exact ⟨.refl _, by simp [cascading], [], by simp⟩
  | cons linked rest ih =>
      obtain ⟨hfirst, hcascade, hexit⟩ := notifyLink_spec pid reason notices linked
      obtain ⟨hrest, hcascades, events, htrace, hexits⟩ :=
        ih (notifyLink pid reason notices linked)
      have hsplit : notices.scheduler.cascading reason (linked :: rest) =
          notices.scheduler.cascading reason [linked] ++
            notices.scheduler.cascading reason rest := by
        unfold cascading
        split
        · rfl
        · exact List.filter_append [linked] rest
      have hsame : (notifyLink pid reason notices linked).scheduler.cascading reason rest =
          notices.scheduler.cascading reason rest := by
        simp only [cascading, hfirst.relations]
      refine ⟨hfirst.trans hrest, ?_, ?_⟩
      · rw [List.foldl_cons, hcascades, hsame, hcascade, hsplit, List.append_assoc]
      · obtain ⟨first, hfirstTrace, _⟩ := hfirst.trace
        refine ⟨first ++ events, ?_, ?_⟩
        · rw [List.foldl_cons, htrace, hfirstTrace, List.append_assoc]
        · intro other hother htrap
          rcases List.mem_cons.mp hother with rfl | hother
          · obtain ⟨delivered, hdelivered⟩ := hexit htrap
            have hevents := List.append_cancel_left (hfirstTrace.symm.trans hdelivered)
            exact ⟨delivered, by simp [hevents]⟩
          · have htrap' := htrap
            rw [← hfirst.relations other] at htrap'
            obtain ⟨delivered, hdelivered⟩ := hexits other hother htrap'
            exact ⟨delivered, List.mem_append_right first hdelivered⟩

/-! ## Taking a process down -/

/-- What the relations of a removed process know before the Down messages go out. -/
structure Settled (s s' : AgentScheduler T) (pid : AgentPid)
    (monitors monitoredBy : List (MonitorRef × AgentPid)) : Prop where
  trace : ∃ events, s'.trace = s.trace ++ events ∧ ∀ event ∈ events, event.ofMessage
  relations : ∀ q, s'.relations q =
    (s.relations q).map fun r => r.without pid q monitors monitoredBy
  nextPid : s'.nextPid = s.nextPid
  nextMonitorRef : s'.nextMonitorRef = s.nextMonitorRef
  exitHandlers : s'.exitHandlers = s.exitHandlers
  handlersOut : s'.handlersOut = s.handlersOut

theorem messagesOnly_enqueueAll (pids : List AgentPid) (s : AgentScheduler T) :
    MessagesOnly s (pids.foldl enqueue s) := by
  induction pids generalizing s with
  | nil => exact .refl s
  | cons pid rest ih => exact (messagesOnly_enqueue s pid).trans (ih (s.enqueue pid))

/-- The cascade, and what the others know, after a process was removed. -/
theorem settleRelations_spec (s : AgentScheduler T) (pid : AgentPid) (reason : Reason)
    (links : List AgentPid) (monitors monitoredBy : List (MonitorRef × AgentPid)) :
    (s.settleRelations pid reason links monitors monitoredBy).1 =
        s.cascading reason links ∧
      Settled s (s.settleRelations pid reason links monitors monitoredBy).2 pid monitors
        monitoredBy ∧
      ∀ linked ∈ links, (s.relations linked).any (·.trapExit) → ∃ delivered,
        .direct linked (.system (.exit pid reason)) delivered ∈
          (s.settleRelations pid reason links monitors monitoredBy).2.trace.drop
            s.trace.length := by
  unfold settleRelations
  obtain ⟨registry, hmonitors, hrelations⟩ := dropMonitoredBy_all s pid monitors
  rw [hmonitors]
  dsimp only
  obtain ⟨hlinks, hcascade, events, htrace, hexits⟩ :=
    notifyLinks_spec pid reason links ⟨{ s with registry }, [], []⟩
  generalize links.foldl (notifyLink pid reason) ⟨{ s with registry }, [], []⟩ = notices at *
  obtain ⟨registry', hwatchers, hrelations'⟩ :=
    dropMonitor_all notices.scheduler pid monitoredBy
  rw [hwatchers]
  have hwoken := messagesOnly_enqueueAll notices.pidsToWake
    { notices.scheduler with registry := registry' }
  generalize notices.pidsToWake.foldl enqueue
    { notices.scheduler with registry := registry' } = final at *
  have hdropped : ∀ q, ({ s with registry } : AgentScheduler T).relations q =
      (s.relations q).map fun r => r.without pid q monitors [] := hrelations
  have htraps : ∀ (q : AgentPid) (p : Bool → Bool),
      (({ s with registry } : AgentScheduler T).relations q).any (fun r => p r.trapExit) =
        (s.relations q).any fun r => p r.trapExit := by
    intro q p
    rw [hdropped q, Option.any_map]
    rfl
  obtain ⟨noticed, hnoticed, hmessages⟩ := hlinks.trace
  obtain ⟨woken, hwokenTrace, hwokenMessages⟩ := hwoken.trace
  have hevents : events = noticed := List.append_cancel_left (htrace.symm.trans hnoticed)
  have hfinal : final.trace = s.trace ++ (noticed ++ woken) := by
    rw [hwokenTrace, ← List.append_assoc]
    exact congrArg (· ++ woken) hnoticed
  refine ⟨?_, ⟨⟨noticed ++ woken, hfinal, ?_⟩, ?_, ?_, ?_, ?_, ?_⟩, ?_⟩
  · rw [hcascade, cascading, cascading]
    simp only [htraps, List.nil_append]
  · intro event hevent
    rcases List.mem_append.mp hevent with hevent | hevent
    · exact hmessages event hevent
    · exact hwokenMessages event hevent
  · intro q
    rw [hwoken.relations q]
    change (registry'.lookup q).map AgentProcess.relations = _
    rw [hrelations' q, hlinks.relations q, hdropped q, Option.map_map]
    simp only [Function.comp_def, Relations.without_without]
  · exact hwoken.nextPid.trans hlinks.nextPid
  · exact hwoken.nextMonitorRef.trans hlinks.nextMonitorRef
  · exact hwoken.exitHandlers.trans hlinks.exitHandlers
  · exact hwoken.handlersOut.trans hlinks.handlersOut
  · intro linked hlinked htrap
    rw [← htraps linked (fun trap => trap)] at htrap
    obtain ⟨delivered, hdelivered⟩ := hexits linked hlinked htrap
    refine ⟨delivered, ?_⟩
    rw [hfinal, List.drop_left]
    exact List.mem_append_left woken (hevents ▸ hdelivered)

/-! ## The Down messages -/

/-- A Down message is handed to `send`, and all else that happens is about messages. -/
theorem messagesOnly_sendDown (code : BehaviorCode T) (pid : AgentPid) (reason : Reason)
    (s : AgentScheduler T) (monitor : MonitorRef × AgentPid) :
    MessagesOnly
      (s.log (.handed monitor.2 (.system (.down monitor.1 pid reason))
        (.monitor monitor.1 pid)))
      (sendDown code pid reason s monitor) :=
  messagesOnly_handed code s _ _ _

/-- A termination of nobody. -/
theorem takeDown_of_dead (code : BehaviorCode T) {s : AgentScheduler T} {pid : AgentPid}
    (hdead : s.lookup pid = none) (reason : Reason) :
    s.takeDown code pid reason =
      ([], (s.cancel pid).log
        (.terminating pid false s.handlersOut s.exitHandlers.isEmpty)) := by
  unfold takeDown
  rw [hdead]
  simp only [Option.elim_none, Option.isSome_none]
  rw [removeProcess_of_dead (by exact hdead)]
  rfl

/-! ## A termination of somebody -/

/-- What the cascade looks at: the links of a process and whether it traps exits. -/
def kin (s : AgentScheduler T) (q : AgentPid) : Option (List AgentPid × Bool) :=
  (s.relations q).map fun r => (r.links, r.trapExit)

theorem kin_eq_lookup (s : AgentScheduler T) (q : AgentPid) :
    s.kin q = (s.lookup q).map fun proc => (proc.links, proc.trapExit) := by
  rw [kin, relations, Option.map_map]
  rfl

theorem isSome_kin (s : AgentScheduler T) (q : AgentPid) :
    (s.kin q).isSome = (s.lookup q).isSome := by
  rw [kin_eq_lookup, Option.isSome_map]

theorem MessagesOnly.kin {s s' : AgentScheduler T} (h : MessagesOnly s s') (q : AgentPid) :
    s'.kin q = s.kin q := by
  rw [AgentScheduler.kin, h.relations q, AgentScheduler.kin]

theorem Settled.kin {s s' : AgentScheduler T} {pid : AgentPid}
    {monitors monitoredBy : List (MonitorRef × AgentPid)}
    (h : Settled s s' pid monitors monitoredBy) (q : AgentPid) : s'.kin q = s.kin q := by
  rw [AgentScheduler.kin, h.relations q, Option.map_map, AgentScheduler.kin]
  rfl

/-- The Down messages leave everything but messages alone. -/
structure Notified (s s' : AgentScheduler T) : Prop where
  trace : ∃ events, s'.trace = s.trace ++ events
  kin : ∀ q, s'.kin q = s.kin q
  nextPid : s'.nextPid = s.nextPid
  exitHandlers : s'.exitHandlers = s.exitHandlers
  handlersOut : s'.handlersOut = s.handlersOut

theorem Notified.trans {s s' s'' : AgentScheduler T} (h : Notified s s')
    (h' : Notified s' s'') : Notified s s'' := by
  obtain ⟨events, htrace⟩ := h.trace
  obtain ⟨events', htrace'⟩ := h'.trace
  refine ⟨⟨events ++ events', by rw [htrace', htrace, List.append_assoc]⟩, ?_,
    h'.nextPid.trans h.nextPid, h'.exitHandlers.trans h.exitHandlers,
    h'.handlersOut.trans h.handlersOut⟩
  intro q
  rw [h'.kin q, h.kin q]

theorem notified_log (s : AgentScheduler T) (event : Event) : Notified s (s.log event) :=
  ⟨⟨[event], rfl⟩, fun _ => rfl, rfl, rfl, rfl⟩

theorem MessagesOnly.notified {s s' : AgentScheduler T} (h : MessagesOnly s s') :
    Notified s s' := by
  obtain ⟨events, htrace, _⟩ := h.trace
  exact ⟨⟨events, htrace⟩, h.kin, h.nextPid, h.exitHandlers, h.handlersOut⟩

theorem notified_sendDowns (code : BehaviorCode T) (pid : AgentPid) (reason : Reason)
    (records : List (MonitorRef × AgentPid)) (s : AgentScheduler T) :
    Notified s (records.foldl (sendDown code pid reason) s) := by
  induction records generalizing s with
  | nil => exact ⟨⟨[], by simp⟩, fun _ => rfl, rfl, rfl, rfl⟩
  | cons record rest ih =>
      have hhanded := notified_log s (.handed record.2
        (.system (.down record.1 pid reason)) (.monitor record.1 pid))
      have hsent := (messagesOnly_sendDown code pid reason s record).notified
      exact (hhanded.trans hsent).trans (ih _)

/-- What taking down a live process leaves, and whom it tells. -/
structure TakenDown (s s' : AgentScheduler T) (pid : AgentPid) (reason : Reason)
    (links : List AgentPid) : Prop where
  kin : ∀ q, s'.kin q = if q = pid then none else s.kin q
  nextPid : s'.nextPid = s.nextPid
  exitHandlers : s'.exitHandlers = s.exitHandlers
  handlersOut : s'.handlersOut = s.handlersOut
  trace : ∃ events, s'.trace = s.trace ++ events ∧
    ∀ linked ∈ links, linked ≠ pid → (s.kin linked).any (·.2) →
      ∃ delivered, .direct linked (.system (.exit pid reason)) delivered ∈ events

theorem takeDown_of_live (code : BehaviorCode T) {s : AgentScheduler T} {pid : AgentPid}
    {proc : AgentProcess T} (hproc : s.lookup pid = some proc) (reason : Reason) :
    (s.takeDown code pid reason).1 =
        (if reason = .normal then []
          else proc.links.filter fun q => q ≠ pid ∧ (s.kin q).any (!·.2)) ∧
      TakenDown s (s.takeDown code pid reason).2 pid reason proc.links := by
  unfold takeDown
  simp only [hproc, Option.elim_some, Option.isSome_some]
  generalize hmarked : (s.cancel pid).log _ = marked
  have hlookup : ∀ q, marked.lookup q = s.lookup q := by
    rw [← hmarked]
    exact fun _ => rfl
  have hremoved : ∀ q, (marked.removeProcess pid).kin q =
      if q = pid then none else s.kin q := by
    intro q
    rw [kin_eq_lookup, lookup_removeProcess, hlookup q, kin_eq_lookup]
    split
    · rfl
    · rfl
  have hframe : (marked.removeProcess pid).nextPid = s.nextPid ∧
      (marked.removeProcess pid).exitHandlers = s.exitHandlers ∧
      (marked.removeProcess pid).handlersOut = s.handlersOut ∧
      ∃ events, (marked.removeProcess pid).trace = s.trace ++ events := by
    rw [removeProcess_of_live (by rw [hlookup]; exact hproc), ← hmarked]
    exact ⟨rfl, rfl, rfl, _, List.append_assoc _ _ _⟩
  obtain ⟨hnextPid, hhandlers, hout, removedEvents, hremovedTrace⟩ := hframe
  generalize marked.removeProcess pid = removed at *
  obtain ⟨hcascade, hsettled, hexits⟩ := settleRelations_spec removed pid reason proc.links
    proc.monitors proc.monitoredBy
  unfold notifyRelations
  generalize removed.settleRelations pid reason proc.links proc.monitors proc.monitoredBy =
    settled at hcascade hsettled hexits
  obtain ⟨pidsToCascade, settled⟩ := settled
  have hdown := notified_sendDowns code pid reason proc.monitoredBy settled
  have htraps : ∀ (q : AgentPid) (p : Bool → Bool),
      (removed.relations q).any (fun r => p r.trapExit) = true ↔
        q ≠ pid ∧ (s.kin q).any (fun k => p k.2) = true := by
    intro q p
    have hany : (removed.relations q).any (fun r => p r.trapExit) =
        (removed.kin q).any fun k => p k.2 := by
      rw [AgentScheduler.kin, Option.any_map]
    rw [hany, hremoved q]
    by_cases hq : q = pid
    · simp [hq]
    · simp [hq]
  dsimp only at hcascade hsettled hexits ⊢
  refine ⟨?_, ?_, ?_, ?_, ?_, ?_⟩
  · rw [hcascade, cascading]
    split
    · rfl
    · apply List.filter_congr
      intro q _
      rw [Bool.eq_iff_iff, htraps q (!·)]
      simp
  · intro q
    rw [hdown.kin q, hsettled.kin q, hremoved q]
  · rw [hdown.nextPid, hsettled.nextPid, hnextPid]
  · rw [hdown.exitHandlers, hsettled.exitHandlers, hhandlers]
  · rw [hdown.handlersOut, hsettled.handlersOut, hout]
  · obtain ⟨settledEvents, hsettledTrace, _⟩ := hsettled.trace
    obtain ⟨downEvents, hdownTrace⟩ := hdown.trace
    refine ⟨removedEvents ++ (settledEvents ++ downEvents), ?_, ?_⟩
    · rw [hdownTrace, hsettledTrace, hremovedTrace, List.append_assoc, List.append_assoc]
    · intro linked hlinked hne htrap
      obtain ⟨delivered, hdelivered⟩ :=
        hexits linked hlinked ((htraps linked id).mpr ⟨hne, htrap⟩)
      rw [hsettledTrace, List.drop_left] at hdelivered
      exact ⟨delivered, List.mem_append_right _ (List.mem_append_left _ hdelivered)⟩

/-! ## A termination of anybody -/

theorem takeDown_exitHandlers (code : BehaviorCode T) (s : AgentScheduler T) (pid : AgentPid)
    (reason : Reason) : (s.takeDown code pid reason).2.exitHandlers = s.exitHandlers := by
  cases hproc : s.lookup pid with
  | none =>
      rw [takeDown_of_dead code hproc]
      rfl
  | some proc => exact (takeDown_of_live code hproc reason).2.exitHandlers

theorem relations_of_kin {s : AgentScheduler T} {q : AgentPid} {links : List AgentPid}
    {trap : Bool} (h : s.kin q = some (links, trap)) :
    ∃ r, s.relations q = some r ∧ r.links = links ∧ r.trapExit = trap := by
  rw [kin, Option.map_eq_some_iff] at h
  obtain ⟨r, hr, heq⟩ := h
  obtain ⟨hlinks, htrap⟩ := Prod.mk.inj heq
  exact ⟨r, hr, hlinks, htrap⟩

theorem kin_takeDown (code : BehaviorCode T) (s : AgentScheduler T) (pid : AgentPid)
    (reason : Reason) (q : AgentPid) :
    (s.takeDown code pid reason).2.kin q = if q = pid then none else s.kin q := by
  cases hproc : s.lookup pid with
  | none =>
      rw [takeDown_of_dead code hproc]
      by_cases hq : q = pid
      · rw [if_pos hq, hq, kin_eq_lookup]
        exact congrArg _ hproc
      · rw [if_neg hq]
        rfl
  | some proc => exact (takeDown_of_live code hproc reason).2.kin q

theorem nextPid_takeDown (code : BehaviorCode T) (s : AgentScheduler T) (pid : AgentPid)
    (reason : Reason) : (s.takeDown code pid reason).2.nextPid = s.nextPid := by
  cases hproc : s.lookup pid with
  | none =>
      rw [takeDown_of_dead code hproc]
      rfl
  | some proc => exact (takeDown_of_live code hproc reason).2.nextPid

/-- The cascade goes on along links to processes that do not trap exits. -/
theorem mem_takeDown (code : BehaviorCode T) {s : AgentScheduler T} {pid : AgentPid}
    {reason : Reason} {q : AgentPid} (h : q ∈ (s.takeDown code pid reason).1) :
    ∃ links trap others, s.kin pid = some (links, trap) ∧ q ∈ links ∧
      s.kin q = some (others, false) := by
  cases hproc : s.lookup pid with
  | none =>
      rw [takeDown_of_dead code hproc] at h
      exact absurd h List.not_mem_nil
  | some proc =>
      rw [(takeDown_of_live code hproc reason).1] at h
      split at h
      · exact absurd h List.not_mem_nil
      · obtain ⟨hlink, hfree⟩ := List.mem_filter.mp h
        rw [decide_eq_true_eq] at hfree
        have hpid : s.kin pid = some (proc.links, proc.trapExit) := by
          rw [kin_eq_lookup, hproc]
          rfl
        cases hkin : s.kin q with
        | none =>
            rw [hkin] at hfree
            exact absurd hfree.2 Bool.false_ne_true
        | some known =>
            obtain ⟨others, trap⟩ := known
            obtain rfl : trap = false := by simpa [hkin] using hfree.2
            exact ⟨proc.links, proc.trapExit, others, hpid, hlink, rfl⟩

theorem finishTermination_cases (s : AgentScheduler T) (pid : AgentPid) :
    ∃ bridge pendingDestroys metrics,
      s.finishTermination pid = { s with bridge, pendingDestroys, metrics } := by
  unfold finishTermination
  dsimp only
  split
  · exact ⟨_, _, _, rfl⟩
  · split
    · exact ⟨_, _, _, rfl⟩
    · exact ⟨_, _, _, rfl⟩

end AgentScheduler

end Zeptobeam
