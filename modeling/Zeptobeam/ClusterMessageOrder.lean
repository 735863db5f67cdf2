/-
The order of messages across partitions.  What one process sends another by Send actions
is handled in that order, each message once at most, whatever the partitions do meanwhile.
-/
import Zeptobeam.MessageOrder
import Zeptobeam.ClusterOwnership

namespace Zeptobeam

open TaggedQueue

namespace SchedulerCluster

variable {T : AgentTypes}

/-- What was drained from one partition for another is handed over there in that order;
some entries still wait. -/
def RoutedInOrder (waiting : List ((AgentPid × Message) × Origin)) (c : SchedulerCluster T) :
    Prop :=
  ∀ (i j : Nat) (sending receiving : AgentScheduler T),
    c.schedulers[i]? = some sending → c.schedulers[j]? = some receiving →
    ∀ sender dest, (picked dest (.routed i sender) (routedMessages receiving.trace) ++
      picked dest (.routed i sender) waiting).Sublist
        (picked dest (.action sender) (outboundBook sending.trace).taken)

/-- The traces go on, and nothing is routed. -/
structure PartGrows (s s' : AgentScheduler T) : Prop where
  grows : s.trace <+: s'.trace
  routed : routedMessages s'.trace = routedMessages s.trace

theorem taken_grows {trace trace' : List Event} (h : trace <+: trace') :
    (outboundBook trace).taken.Sublist (outboundBook trace').taken := by
  obtain ⟨events, rfl⟩ := h
  rw [outboundBook, outboundBook, List.map_append]
  exact (Book.taken_replay_grows _ _ _).sublist

namespace RoutedInOrder

variable {waiting : List ((AgentPid × Message) × Origin)} {c c' : SchedulerCluster T}

/-- The partitions go on by themselves. -/
theorem grow (h : RoutedInOrder waiting c)
    (hparts : ∀ (i : Nat) (s' : AgentScheduler T), c'.schedulers[i]? = some s' →
      ∃ s, c.schedulers[i]? = some s ∧ PartGrows s s') : RoutedInOrder waiting c' := by
  intro i j sending receiving hfrom hto sender dest
  obtain ⟨oldFrom, holdFrom, hgrowsFrom⟩ := hparts i sending hfrom
  obtain ⟨oldTo, holdTo, hgrowsTo⟩ := hparts j receiving hto
  rw [hgrowsTo.routed]
  exact (h i j oldFrom oldTo holdFrom holdTo sender dest).trans
    (picked_sublist (taken_grows hgrowsFrom.grows))

theorem congr (h : RoutedInOrder waiting c) (hsame : c'.schedulers = c.schedulers) :
    RoutedInOrder waiting c' := by
  apply h.grow
  intro i s hs
  exact ⟨s, hsame ▸ hs, List.prefix_refl _, rfl⟩

theorem store_parts {partition : Nat} {s' : AgentScheduler T} (i : Nat) (part : AgentScheduler T)
    (hpart : (c.store partition s').schedulers[i]? = some part) :
    (i = partition ∧ part = s') ∨ c.schedulers[i]? = some part := by
  simp only [SchedulerCluster.store, List.getElem?_set] at hpart
  split at hpart
  · rename_i heq
    split at hpart
    · exact .inl ⟨heq.symm, (Option.some.inj hpart).symm⟩
    · contradiction
  · exact .inr hpart

theorem store (h : RoutedInOrder waiting c) {partition : Nat} {s s' : AgentScheduler T}
    (hs : c.schedulers[partition]? = some s) (hgrows : PartGrows s s') :
    RoutedInOrder waiting (c.store partition s') := by
  apply h.grow
  intro i part hpart
  rcases store_parts i part hpart with ⟨rfl, rfl⟩ | hold
  · exact ⟨s, hs, hgrows⟩
  · exact ⟨part, hold, List.prefix_refl _, rfl⟩

theorem drop {entry : (AgentPid × Message) × Origin}
    (h : RoutedInOrder (entry :: waiting) c) : RoutedInOrder waiting c := by
  intro i j sending receiving hfrom hto sender dest
  have hless : (picked dest (.routed i sender) waiting).Sublist
      (picked dest (.routed i sender) (entry :: waiting)) :=
    picked_sublist (List.sublist_cons_self _ _)
  exact ((List.Sublist.refl _).append hless).trans (h i j sending receiving hfrom hto sender dest)

/-- The first entry is handed over in some partition. -/
theorem hand {dest : AgentPid} {msg : Message} {origin : Origin}
    (h : RoutedInOrder (((dest, msg), origin) :: waiting) c) {partition : Nat}
    {s s' : AgentScheduler T} (hs : c.schedulers[partition]? = some s)
    (hgrows : s.trace <+: s'.trace)
    (hrouted : routedMessages s'.trace =
      routedMessages s.trace ++ [((dest, msg), origin)] ∨
      routedMessages s'.trace = routedMessages s.trace) :
    RoutedInOrder waiting (c.store partition s') := by
  intro i j sending receiving hfrom hto sender q
  have hfromOld : ∃ old, c.schedulers[i]? = some old ∧ old.trace <+: sending.trace := by
    rcases store_parts i sending hfrom with ⟨rfl, rfl⟩ | hold
    · exact ⟨s, hs, hgrows⟩
    · exact ⟨sending, hold, List.prefix_refl _⟩
  obtain ⟨old, hold, holdGrows⟩ := hfromOld
  refine List.Sublist.trans ?_ (picked_sublist (taken_grows holdGrows))
  rcases store_parts j receiving hto with ⟨rfl, rfl⟩ | hother
  · rcases hrouted with hrouted | hrouted
    · have hbefore := h i j old s hold hs sender q
      rw [hrouted, picked_append, List.append_assoc, ← picked_append]
      exact hbefore
    · rw [hrouted]
      exact h.drop i j old s hold hs sender q
  · exact h.drop i j old receiving hold hother sender q

/-- The cluster hands the first entry over, or drops it. -/
theorem send {dest : AgentPid} {msg : Message} {origin : Origin}
    (h : RoutedInOrder (((dest, msg), origin) :: waiting) c) (code : BehaviorCode T) :
    RoutedInOrder waiting (c.send code dest msg origin).2 := by
  have hreconciled : RoutedInOrder (((dest, msg), origin) :: waiting) c.reconcilePidMap :=
    h.congr rfl
  unfold SchedulerCluster.send
  dsimp only
  split
  · exact hreconciled.drop
  · split
    · exact hreconciled.drop
    · rename_i s hs
      have hhanded := AgentScheduler.handedMessages_send code (c.reconcilePidMap.load s) dest
        msg origin
      obtain ⟨events, htrace, _⟩ := AgentScheduler.send_hands code (c.reconcilePidMap.load s)
        dest msg origin
      have hloaded : (c.reconcilePidMap.load s).trace = s.trace := rfl
      rw [hloaded] at hhanded
      refine hreconciled.hand hs ⟨.handed dest msg origin :: events, ?_⟩ ?_
      · rw [htrace, AgentScheduler.log, List.append_assoc]
        rfl
      · rw [routedMessages, hhanded, List.filter_append]
        cases origin with
        | routed => exact .inl rfl
        | _ => exact .inr (List.append_nil _)

end RoutedInOrder

/-! ## Routing -/

/-- What a partition has to send out, as the cluster hands it over. -/
def outboundEntries (entry : AgentScheduler T × Nat) :
    List ((AgentPid × Message) × Origin) :=
  (outboundBook entry.1.trace).queue.map fun item => (item.1, item.2.routedFrom entry.2)

theorem routedFrom_eq_routed {n i : Nat} {sender : AgentPid} {origin : Origin} :
    origin.routedFrom n = .routed i sender ↔ n = i ∧ origin = .action sender := by
  cases origin with
  | action other => simp [Origin.routedFrom]
  | _ => simp [Origin.routedFrom]

theorem picked_outboundEntries (s : AgentScheduler T) (n i : Nat) (sender dest : AgentPid) :
    picked dest (.routed i sender) (outboundEntries (s, n)) =
      if n = i then picked dest (.action sender) (outboundBook s.trace).queue else [] := by
  rw [outboundEntries, picked, List.filter_map, List.map_map]
  by_cases hi : n = i
  · have hsame : (picks dest (.routed i sender) ∘ fun item =>
        (item.1, item.2.routedFrom n)) = picks dest (.action sender) := by
      funext item
      simp [picks, routedFrom_eq_routed, hi]
    rw [if_pos hi, hsame]
    rfl
  · rw [if_neg hi, List.map_eq_nil_iff, List.filter_eq_nil_iff]
    intro item _
    simp [picks, routedFrom_eq_routed, hi]

/-- Of what all partitions send out, a route carries what its own partition does. -/
theorem picked_allEntries (schedulers : List (AgentScheduler T)) (n i : Nat)
    (sender dest : AgentPid) :
    picked dest (.routed i sender) ((schedulers.zipIdx n).flatMap outboundEntries) =
      if n ≤ i then
        schedulers[i - n]?.elim [] fun s =>
          picked dest (.action sender) (outboundBook s.trace).queue
      else [] := by
  induction schedulers generalizing n with
  | nil =>
      split
      · rfl
      · rfl
  | cons s rest ih =>
      rw [List.zipIdx_cons, List.flatMap_cons, picked_append, picked_outboundEntries, ih]
      rcases Nat.lt_trichotomy i n with hlt | heq | hgt
      · rw [if_neg (by omega), if_neg (by omega), if_neg (by omega)]
        rfl
      · rw [if_pos heq.symm, if_neg (by omega), if_pos (by omega), heq, Nat.sub_self,
          List.append_nil]
        rfl
      · obtain ⟨k, rfl⟩ := Nat.exists_eq_add_of_lt hgt
        rw [if_neg (by omega), if_pos (by omega), if_pos (by omega), List.nil_append]
        have hfirst : n + k + 1 - (n + 1) = k := by omega
        have hwhole : n + k + 1 - n = k + 1 := by omega
        rw [hfirst, hwhole]
        rfl

/-- Draining takes all out of the outbound queue. -/
theorem taken_drain {s : AgentScheduler T} (h : s.Tagged) :
    (outboundBook s.drainOutboundMessages.2.trace).taken =
      (outboundBook s.trace).taken ++ (outboundBook s.trace).queue := by
  have hlength : (outboundBook s.trace).queue.length = s.outboundMessages.length := by
    rw [← h.outbound, Book.items, List.length_map]
  have hsteps : (s.outboundMessages.map fun message =>
      Event.drainedOutbound message.1 message.2).map Event.outboundStep =
        List.replicate s.outboundMessages.length (.leave true) := by
    rw [List.map_map]
    exact List.map_const'
  have hleft := Book.taken_leaveAll Origin.scheduler (outboundBook s.trace) _ hlength
  rw [← hleft.1, ← hsteps, outboundBook, AgentScheduler.drainOutboundMessages,
    List.map_append, Book.replay_append]
  rfl

/-- What was drained waits to be handed over. -/
theorem RoutedInOrder.drain {c : SchedulerCluster T} (h : RoutedInOrder [] c)
    (htagged : c.Holds fun _ => AgentScheduler.Tagged) :
    RoutedInOrder (c.schedulers.zipIdx.flatMap outboundEntries) c.drainAll.2 := by
  intro i j sending receiving hsending hreceiving sender dest
  have hdrained : ∀ {k : Nat} {s : AgentScheduler T}, c.drainAll.2.schedulers[k]? = some s →
      ∃ old, c.schedulers[k]? = some old ∧ old.drainOutboundMessages.2 = s := by
    intro k s hs
    rw [drainAll, List.getElem?_map] at hs
    exact Option.map_eq_some_iff.mp hs
  obtain ⟨partition, hsender, rfl⟩ := hdrained hsending
  obtain ⟨receiver, hreceiver, rfl⟩ := hdrained hreceiving
  rw [(AgentScheduler.drain_silent receiver).routed, taken_drain (htagged i partition hsender), picked_append,
    picked_allEntries, if_pos (Nat.zero_le i), Nat.sub_zero, hsender]
  have hbefore := h i j partition receiver hsender hreceiver sender dest
  exact (List.append_nil _ ▸ hbefore).append (List.Sublist.refl _)

/-- Each entry is paired with its own origin. -/
theorem zipIdx_origins {α : Type} (entries : List (α × Origin)) (n : Nat)
    (origins : List Origin) (horigins : origins.drop n = entries.map Prod.snd) :
    ((entries.map Prod.fst).zipIdx n).map
      (fun item => (item.1, origins[item.2]?.getD .scheduler)) = entries := by
  induction entries generalizing n with
  | nil => rfl
  | cons entry rest ih =>
      have hfirst : origins[n]? = some entry.2 := by
        rw [← List.head?_drop, horigins]
        rfl
      have hrest : origins.drop (n + 1) = rest.map Prod.snd := by
        rw [← List.tail_drop, horigins]
        rfl
      rw [List.map_cons, List.zipIdx_cons, List.map_cons, ih (n + 1) hrest, hfirst]
      rfl

/-- The cluster drains exactly these entries. -/
theorem drainAll_entries {c : SchedulerCluster T}
    (h : c.Holds fun _ => AgentScheduler.Tagged) :
    c.drainAll.1 = (c.schedulers.zipIdx.flatMap outboundEntries).map Prod.fst := by
  have hitems : ∀ entry ∈ c.schedulers.zipIdx,
      entry.1.drainOutboundMessages.1 = (outboundEntries entry).map Prod.fst := by
    intro entry hentry
    have htagged := h entry.2 entry.1 (List.mem_zipIdx_iff_getElem?.mp hentry)
    rw [outboundEntries, List.map_map]
    exact htagged.outbound.symm
  have hparts : c.schedulers.flatMap (fun s => s.drainOutboundMessages.1) =
      c.schedulers.zipIdx.flatMap fun entry => entry.1.drainOutboundMessages.1 := by
    conv_lhs => rw [← List.zipIdx_map_fst 0 c.schedulers]
    rw [List.flatMap_map]
  rw [drainAll, List.map_flatMap, hparts]
  exact List.flatMap_congr hitems

theorem outboundOrigins_entries (c : SchedulerCluster T) :
    c.outboundOrigins = (c.schedulers.zipIdx.flatMap outboundEntries).map Prod.snd := by
  rw [outboundOrigins, List.map_flatMap]
  apply List.flatMap_congr
  intro entry _
  rw [outboundEntries, List.map_map]
  rfl

/-- Routing hands over what was drained, one message after the other. -/
theorem RoutedInOrder.routeAll {code : BehaviorCode T} {origins : List Origin}
    {items : List ((AgentPid × Message) × Nat)} {c : SchedulerCluster T} {routed : Nat}
    (h : RoutedInOrder (items.map fun item =>
      (item.1, origins[item.2]?.getD .scheduler)) c) :
    RoutedInOrder [] (items.foldl (fun routed entry =>
      let origin := origins[entry.2]?.getD .scheduler
      match routed.2.send code entry.1.1 entry.1.2 origin with
      | (.ok _, c) => (routed.1 + 1, c)
      | (.error _, c) => (routed.1, c)) (routed, c)).2 := by
  induction items generalizing c routed with
  | nil => exact h
  | cons item rest ih =>
      rw [List.map_cons] at h
      have hsent := h.send code
      rw [List.foldl_cons]
      dsimp only
      generalize c.send code item.1.1 item.1.2 _ = sent at hsent
      obtain ⟨answer, sent⟩ := sent
      cases answer with
      | ok => exact ih hsent
      | error error => exact ih hsent

theorem RoutedInOrder.route {c : SchedulerCluster T} (h : RoutedInOrder [] c)
    (htagged : c.Holds fun _ => AgentScheduler.Tagged) (code : BehaviorCode T) :
    RoutedInOrder [] (c.routeOutboundMessages code).2 := by
  have hentries := zipIdx_origins (c.schedulers.zipIdx.flatMap outboundEntries) 0
    c.outboundOrigins (outboundOrigins_entries c)
  rw [← drainAll_entries htagged] at hentries
  have hdrained := h.drain htagged
  rw [← hentries] at hdrained
  exact hdrained.routeAll

/-! ## Every run -/

/-- What holds in every run that begins at a cluster where no process has been. -/
structure InOrder (start c : SchedulerCluster T) : Prop where
  allots : Allots start c
  tagged : c.Holds fun _ => AgentScheduler.Tagged
  routed : RoutedInOrder [] c

/-- A partition gives out pids from the cluster's counter, so that they are new to it. -/
theorem Owned.fresh_load {c : SchedulerCluster T} (h : c.Owned) {i : Nat}
    {s : AgentScheduler T} (hs : c.schedulers[i]? = some s) (q : AgentPid)
    (hq : (c.load s).nextPid ≤ q) : (c.load s).presence q = 0 := by
  have hcount : (c.schedulers.map fun s => s.presence q)[i]? = some (s.presence q) := by
    rw [List.getElem?_map, hs]
    rfl
  have hle := le_sum hcount
  have hnone := h.fresh q hq
  exact Nat.le_zero.mp (hle.trans (Nat.le_of_eq hnone))

theorem Tagged.send {c : SchedulerCluster T} (h : c.Holds fun _ => AgentScheduler.Tagged)
    (code : BehaviorCode T) (dest : AgentPid) (msg : Message) (origin : Origin) :
    (c.send code dest msg origin).2.Holds fun _ => AgentScheduler.Tagged := by
  have hreconciled : c.reconcilePidMap.Holds fun _ => AgentScheduler.Tagged := h
  unfold SchedulerCluster.send
  dsimp only
  split
  · exact hreconciled
  · split
    · exact hreconciled
    · rename_i partition _ _ s hs
      apply StableParts.store hreconciled
      have hloaded : AgentScheduler.Tagged (c.reconcilePidMap.load s) :=
        (h partition s hs).same rfl (fun _ => rfl) rfl
      exact hloaded.send code dest msg origin

theorem InOrder.clusterStable (code : AgentCode T) {start : SchedulerCluster T}
    (hstart : ∀ q, start.presence q = 0) : ClusterStable code (InOrder start) where
  part {c i s s'} hs hevolves h := by
    have htagged : AgentScheduler.Tagged s' := by
      have hloaded : AgentScheduler.Tagged (c.load s) :=
        (h.tagged i s hs).same rfl (fun _ => rfl) rfl
      have hfresh := (h.allots.owned hstart).fresh_load hs
      exact (hevolves (AgentScheduler.Tagged.stableRun code hfresh) ⟨.refl _, hloaded⟩).2
    have hgrows : s.trace <+: s'.trace :=
      hevolves (AgentScheduler.stableRun_trace code s.trace) (List.prefix_refl _)
    have hrouted : routedMessages s'.trace = routedMessages s.trace :=
      hevolves (AgentScheduler.stableRun_routed code (routedMessages s.trace)) rfl
    exact ⟨(Allots.clusterStable code start).part hs hevolves h.allots,
      StableParts.store h.tagged htagged, h.routed.store hs ⟨hgrows, hrouted⟩⟩
  route {c} h := by
    have hdrained : c.drainAll.2.Holds fun _ => AgentScheduler.Tagged :=
      StableParts.map h.tagged _ (fun _ _ hs => hs.drain) rfl
    exact ⟨(Allots.clusterStable code start).route h.allots,
      routeOutboundMessages_keeps (SchedulerCluster.Holds fun _ => AgentScheduler.Tagged)
        (fun dest msg origin _ h => Tagged.send h code.toBehaviorCode dest msg origin) hdrained,
      h.routed.route h.tagged code.toBehaviorCode⟩
  bridges {c} partBridge bridge handle h := by
    have hmap : ∀ (i : Nat) (s : AgentScheduler T),
        (c.schedulers.map fun s => { s with bridge := partBridge })[i]? = some s →
        ∃ old, c.schedulers[i]? = some old ∧ { old with bridge := partBridge } = s := by
      intro i s hs
      rw [List.getElem?_map] at hs
      exact Option.map_eq_some_iff.mp hs
    refine ⟨(Allots.clusterStable code start).bridges partBridge bridge handle h.allots,
      StableParts.map h.tagged ({ · with bridge := partBridge })
        (fun _ _ hs => hs.same rfl (fun _ => rfl) rfl) rfl, h.routed.grow ?_⟩
    intro i s hs
    obtain ⟨old, hold, rfl⟩ := hmap i s hs
    exact ⟨old, hold, List.prefix_refl _, rfl⟩
  aside pidOwner nextSpawnPartition nextTickPartition bridge pids refs h :=
    ⟨(Allots.clusterStable code start).aside pidOwner nextSpawnPartition nextTickPartition
      bridge pids refs h.allots, h.tagged, h.routed.congr rfl⟩

theorem inOrder_new (partitions : Nat) (hook : Nat → Option T.Hook)
    (nextPid nextMonitorRef : Nat) :
    InOrder (new partitions hook nextPid nextMonitorRef : SchedulerCluster T)
      (new partitions hook nextPid nextMonitorRef) := by
  have hparts : ∀ (i : Nat) (s : AgentScheduler T),
      (new partitions hook nextPid nextMonitorRef : SchedulerCluster T).schedulers[i]? = some s →
      s = .new none (hook i) true nextPid nextMonitorRef := by
    intro i s hs
    rw [SchedulerCluster.new, List.getElem?_map] at hs
    obtain ⟨k, hk, rfl⟩ := Option.map_eq_some_iff.mp hs
    obtain ⟨hlt, hget⟩ := List.getElem?_eq_some_iff.mp hk
    rw [List.getElem_range] at hget
    rw [hget]
  refine ⟨.refl _, ?_, ?_⟩
  · intro i s hs
    rw [hparts i s hs]
    exact .new _ _ _ _ _
  · intro i j sending receiving hsending hreceiving sender dest
    rw [hparts j receiving hreceiving]
    exact List.nil_sublist _

theorem inOrder_of_reachable {code : AgentCode T} {c : SchedulerCluster T}
    (h : Reachable code c) : ∃ start, InOrder start c := by
  obtain ⟨partitions, hook, nextPid, nextMonitorRef, ops, hrun⟩ := h
  exact ⟨_, (InOrder.clusterStable code (Allots.presence_new _ _ _ _)).run
    (inOrder_new partitions hook nextPid nextMonitorRef) hrun⟩

end SchedulerCluster

/-! ## A relay -/

def relayTypes : AgentTypes := ⟨Bool, Unit, Unit, Unit⟩

/-- Who is a relay sends on all it gets to process 2. -/
def relayCode : AgentCode relayTypes where
  init _ _ := .ok ()
  handleMessage (relays : Bool) msg _ := .ok (bif relays then .send 2 msg else .continue, ())
  handleExit _ _ _ _ := .ok (.continue, ())
  onSend _ _ _ := (.ok (), ())
  exitHandler _ _ _ _ := .done ()

namespace SchedulerCluster

end SchedulerCluster

end Zeptobeam
