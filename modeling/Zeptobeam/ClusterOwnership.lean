/-
Who owns a process.  The partitions draw their pids from one counter, so that no pid is in
two of them or comes back; and a reconciliation leaves the owner map with exactly the
processes that are alive.
-/
import Zeptobeam.Cluster
import Zeptobeam.PidHistory

namespace Zeptobeam

namespace SchedulerCluster

variable {T : AgentTypes}

/-- What a run reaches from a new cluster. -/
def Reachable (code : AgentCode T) (c : SchedulerCluster T) : Prop :=
  ∃ partitions hook nextPid nextMonitorRef ops,
    run code (new partitions hook nextPid nextMonitorRef) ops = some c

def LivesIn (c : SchedulerCluster T) (pid : AgentPid) (partition : Nat) : Prop :=
  ∃ s, c.schedulers[partition]? = some s ∧ (s.lookup pid).isSome

/-- How often a pid is there, over all partitions: alive, or removed. -/
def presence (c : SchedulerCluster T) (q : AgentPid) : Nat :=
  (c.schedulers.map fun s => s.presence q).sum

/-! ## Pids are given out once -/

/-- From one state of the cluster to a later one, as it is for one scheduler. -/
structure Allots (start c : SchedulerCluster T) : Prop where
  nextPid : start.nextPid ≤ c.nextPid
  kept : ∀ q, q < start.nextPid ∨ c.nextPid ≤ q → c.presence q = start.presence q
  once : ∀ q, c.presence q ≤ start.presence q + 1

theorem presence_map {c c' : SchedulerCluster T} (f : AgentScheduler T → AgentScheduler T)
    (hf : ∀ s q, (f s).presence q = s.presence q)
    (hc' : c'.schedulers = c.schedulers.map f) (q : AgentPid) :
    c'.presence q = c.presence q := by
  rw [presence, hc', List.map_map, presence]
  congr 1
  apply List.map_congr_left
  intro s _
  exact hf s q

/-- One partition's share is replaced. -/
theorem presence_store {c : SchedulerCluster T} {i : Nat} {s : AgentScheduler T}
    (hs : c.schedulers[i]? = some s) (s' : AgentScheduler T) (q : AgentPid) :
    (c.store i s').presence q + s.presence q = c.presence q + s'.presence q := by
  have hsplit : c.schedulers = c.schedulers.take i ++ s :: c.schedulers.drop (i + 1) := by
    obtain ⟨hi, hget⟩ := List.getElem?_eq_some_iff.mp hs
    rw [← hget]
    simp
  have hset : (c.store i s').schedulers =
      c.schedulers.take i ++ s' :: c.schedulers.drop (i + 1) := by
    obtain ⟨hi, _⟩ := List.getElem?_eq_some_iff.mp hs
    exact List.set_eq_take_append_cons_drop.trans (if_pos hi)
  have hold : c.presence q = ((c.schedulers.take i).map fun s => s.presence q).sum +
      (s.presence q + ((c.schedulers.drop (i + 1)).map fun s => s.presence q).sum) := by
    rw [presence]
    conv_lhs => rw [hsplit]
    rw [List.map_append, List.sum_append, List.map_cons, List.sum_cons]
  rw [presence, hset, List.map_append, List.sum_append, List.map_cons, List.sum_cons, hold]
  omega

namespace Allots

variable {start c c' : SchedulerCluster T}

theorem refl (c : SchedulerCluster T) : Allots c c :=
  ⟨Nat.le_refl _, fun _ _ => rfl, fun _ => Nat.le_succ _⟩

theorem congr (h : Allots start c) (hpresence : ∀ q, c'.presence q = c.presence q)
    (hnextPid : c.nextPid ≤ c'.nextPid) : Allots start c' := by
  refine ⟨h.nextPid.trans hnextPid, ?_, ?_⟩
  · intro q hq
    rw [hpresence q]
    exact h.kept q (hq.imp_right hnextPid.trans)
  · intro q
    rw [hpresence q]
    exact h.once q

/-- What a partition gives out is new to the whole cluster. -/
theorem store (h : Allots start c) {i : Nat} {s s' : AgentScheduler T}
    (hs : c.schedulers[i]? = some s) (hpart : AgentScheduler.Allots (c.load s) s') :
    Allots start (c.store i s') := by
  have hloaded : ∀ q, (c.load s).presence q = s.presence q := fun _ => rfl
  have hfrom : c.nextPid ≤ s'.nextPid := hpart.nextPid
  refine ⟨h.nextPid.trans hfrom, ?_, ?_⟩
  · intro q hq
    have hstored := presence_store hs s' q
    have hsame := hpart.kept q (hq.imp_left fun hlt => Nat.lt_of_lt_of_le hlt h.nextPid)
    rw [hloaded] at hsame
    have hkept := h.kept q (hq.imp_right fun hle => hfrom.trans hle)
    omega
  · intro q
    have hstored := presence_store hs s' q
    rcases Nat.lt_or_ge q c.nextPid with hlt | hge
    · have hsame := hpart.kept q (.inl hlt)
      rw [hloaded] at hsame
      have honce := h.once q
      omega
    · have hkept := h.kept q (.inr hge)
      have honce := hpart.once q
      rw [hloaded] at honce
      omega

theorem send (h : Allots start c) (code : BehaviorCode T) (dest : AgentPid) (msg : Message)
    {origin : Origin} (horigin : origin.ofMonitor = false) :
    Allots start (c.send code dest msg origin).2 := by
  have hreconciled : Allots start c.reconcilePidMap :=
    h.congr (fun _ => rfl) (Nat.le_refl _)
  unfold SchedulerCluster.send
  dsimp only
  split
  · exact hreconciled
  · split
    · exact hreconciled
    · rename_i s hs
      have hsent := AgentScheduler.messagesOnly_send code (c.reconcilePidMap.load s) dest msg
        horigin
      exact hreconciled.store hs ((AgentScheduler.Allots.refl _).congr
        (fun q => AgentScheduler.presence_congr (hsent.live q) hsent.lifeless.removedPids)
        (Nat.le_of_eq hsent.nextPid.symm))

theorem clusterStable (code : AgentCode T) (start : SchedulerCluster T) :
    ClusterStable code (Allots start) where
  part hs hevolves h := h.store hs
    (hevolves (AgentScheduler.Allots.stableRun code _) (AgentScheduler.Allots.refl _))
  route {c} h := by
    have hdrain : ∀ (s : AgentScheduler T) (q : AgentPid),
        s.drainOutboundMessages.2.presence q = s.presence q := by
      intro s q
      have hmove : AgentScheduler.Move code.toBehaviorCode s s.drainOutboundMessages.2 :=
        .drain s
      have hlifeless := hmove.lifeless
      exact AgentScheduler.presence_congr rfl hlifeless.removedPids
    have hdrained : Allots start c.drainAll.2 :=
      h.congr (presence_map _ hdrain rfl) (Nat.le_refl _)
    exact routeOutboundMessages_keeps (Allots start)
      (fun dest msg origin horigin h => h.send code.toBehaviorCode dest msg horigin) hdrained
  bridges partBridge _ _ h :=
    h.congr (presence_map ({ · with bridge := partBridge }) (fun _ _ => rfl) rfl)
      (Nat.le_refl _)
  aside _ _ _ _ pids _ h := h.congr (fun _ => rfl) (Nat.le_add_right _ _)

theorem presence_new (partitions : Nat) (hook : Nat → Option T.Hook)
    (nextPid nextMonitorRef : Nat) (q : AgentPid) :
    (new partitions hook nextPid nextMonitorRef : SchedulerCluster T).presence q = 0 := by
  apply List.sum_eq_zero_iff_forall_eq_nat.mpr
  intro n hn
  obtain ⟨s, hs, rfl⟩ := List.mem_map.mp hn
  obtain ⟨i, _, rfl⟩ := List.mem_map.mp hs
  rfl

end Allots

/-- Each pid is there once at most, and not before the counter has come to it. -/
structure Owned (c : SchedulerCluster T) : Prop where
  once : ∀ q, c.presence q ≤ 1
  fresh : ∀ q, c.nextPid ≤ q → c.presence q = 0

theorem Allots.owned {start c : SchedulerCluster T} (h : Allots start c)
    (hstart : ∀ q, start.presence q = 0) : c.Owned := by
  refine ⟨fun q => ?_, fun q hq => ?_⟩
  · have honce := h.once q
    rwa [hstart q] at honce
  · rw [h.kept q (.inr hq), hstart q]

theorem owned_of_reachable {code : AgentCode T} {c : SchedulerCluster T}
    (h : Reachable code c) : c.Owned := by
  obtain ⟨partitions, hook, nextPid, nextMonitorRef, ops, hrun⟩ := h
  exact ((Allots.clusterStable code _).run (.refl _) hrun).owned (Allots.presence_new _ _ _ _)

/-! ## One partition for each process -/

theorem le_sum {counts : List Nat} {i a : Nat} (hi : counts[i]? = some a) :
    a ≤ counts.sum := by
  induction counts generalizing i with
  | nil => simp at hi
  | cons n rest ih =>
      rw [List.sum_cons]
      cases i with
      | zero =>
          obtain rfl : n = a := by simpa using hi
          exact Nat.le_add_right _ _
      | succ i => exact (ih (by simpa using hi)).trans (Nat.le_add_left _ _)

theorem add_le_sum {counts : List Nat} {i j a b : Nat} (hij : i ≠ j)
    (hi : counts[i]? = some a) (hj : counts[j]? = some b) : a + b ≤ counts.sum := by
  induction counts generalizing i j with
  | nil => simp at hi
  | cons n rest ih =>
      rw [List.sum_cons]
      cases i with
      | zero =>
          obtain rfl : n = a := by simpa using hi
          cases j with
          | zero => contradiction
          | succ j => exact Nat.add_le_add_left (le_sum (by simpa using hj)) _
      | succ i =>
          cases j with
          | zero =>
              obtain rfl : n = b := by simpa using hj
              have hle : a ≤ rest.sum := le_sum (by simpa using hi)
              omega
          | succ j =>
              have hle := ih (by simpa using hij) (by simpa using hi) (by simpa using hj)
              exact hle.trans (Nat.le_add_left _ _)

theorem presence_pos {s : AgentScheduler T} {pid : AgentPid} (hlive : (s.lookup pid).isSome) :
    1 ≤ s.presence pid := by
  rw [AgentScheduler.presence, if_pos hlive]
  exact Nat.le_add_right _ _

theorem Owned.partition_unique {c : SchedulerCluster T} (h : c.Owned) {pid : AgentPid}
    {i j : Nat} (hi : c.LivesIn pid i) (hj : c.LivesIn pid j) : i = j := by
  obtain ⟨s, hs, hlive⟩ := hi
  obtain ⟨s', hs', hlive'⟩ := hj
  by_contra hij
  have hcounts : ∀ {k : Nat} {s : AgentScheduler T}, c.schedulers[k]? = some s →
      (c.schedulers.map fun s => s.presence pid)[k]? = some (s.presence pid) := by
    intro k s hs
    rw [List.getElem?_map, hs]
    rfl
  have hle := (add_le_sum hij (hcounts hs) (hcounts hs')).trans (h.once pid)
  have hfirst := presence_pos hlive
  have hsecond := presence_pos hlive'
  omega

/-! ## The owner map -/

theorem lookup_filter_keys {β : Type} (p : AgentPid → Bool)
    (owners : AList fun _ : AgentPid => β) (q : AgentPid) :
    (owners.entries.filter fun entry => p entry.1).toAList.lookup q =
      if p q then owners.lookup q else none := by
  rw [AList.lookup_to_alist, AList.lookup]
  induction owners.entries with
  | nil => simp
  | cons entry rest ih =>
      obtain ⟨k, value⟩ := entry
      rw [List.filter_cons]
      by_cases hk : p k
      · rw [if_pos hk]
        by_cases hq : q = k
        · subst hq
          rw [List.dlookup_cons_eq, List.dlookup_cons_eq, if_pos hk]
        · rw [List.dlookup_cons_ne _ _ hq, List.dlookup_cons_ne _ _ hq, ih]
      · rw [if_neg hk]
        by_cases hq : q = k
        · subst hq
          rw [ih, if_neg hk, if_neg hk]
        · rw [List.dlookup_cons_ne _ _ hq, ih]

theorem lookup_insertAll (pids : List AgentPid) (partition : Nat)
    (owners : AList fun _ : AgentPid => Nat) (q : AgentPid) :
    (pids.foldl (fun owners pid => owners.insert pid partition) owners).lookup q =
      if q ∈ pids then some partition else owners.lookup q := by
  induction pids generalizing owners with
  | nil => simp
  | cons pid rest ih =>
      rw [List.foldl_cons, ih]
      by_cases hrest : q ∈ rest
      · rw [if_pos hrest, if_pos (List.mem_cons_of_mem pid hrest)]
      · rw [if_neg hrest]
        by_cases hq : q = pid
        · rw [if_pos (hq ▸ List.mem_cons_self), hq, AList.lookup_insert]
        · rw [AList.lookup_insert_ne hq,
            if_neg (List.not_mem_cons_of_ne_of_not_mem hq hrest)]

theorem mem_keys_iff (s : AgentScheduler T) (q : AgentPid) :
    q ∈ s.registry.processes.keys ↔ (s.lookup q).isSome := by
  rw [AgentScheduler.lookup, AgentRegistry.lookup, AList.lookup_isSome]
  exact AList.mem_keys.symm

/-- Who is in no partition keeps its owner. -/
theorem lookup_owners_absent {entries : List (AgentScheduler T × Nat)} {q : AgentPid}
    (habsent : ∀ entry ∈ entries, q ∉ entry.1.registry.processes.keys)
    (owners : AList fun _ : AgentPid => Nat) :
    (entries.foldl (fun owners entry => entry.1.registry.processes.keys.foldl
      (fun owners pid => owners.insert pid entry.2) owners) owners).lookup q =
        owners.lookup q := by
  induction entries generalizing owners with
  | nil => rfl
  | cons entry rest ih =>
      rw [List.foldl_cons, ih fun later hlater => habsent later (.tail _ hlater),
        lookup_insertAll, if_neg (habsent entry List.mem_cons_self)]

/-- Who is in a partition is given to the last one it is in. -/
theorem lookup_owners_present {entries : List (AgentScheduler T × Nat)} {q : AgentPid}
    {entry : AgentScheduler T × Nat} (hentry : entry ∈ entries)
    (hq : q ∈ entry.1.registry.processes.keys) (owners : AList fun _ : AgentPid => Nat) :
    ∃ last ∈ entries, q ∈ last.1.registry.processes.keys ∧
      (entries.foldl (fun owners entry => entry.1.registry.processes.keys.foldl
        (fun owners pid => owners.insert pid entry.2) owners) owners).lookup q =
          some last.2 := by
  induction entries generalizing owners entry with
  | nil => contradiction
  | cons first rest ih =>
      rw [List.foldl_cons]
      by_cases hlater : ∃ later ∈ rest, q ∈ later.1.registry.processes.keys
      · obtain ⟨later, hmem, hin⟩ := hlater
        obtain ⟨last, hlast, hfound⟩ := ih hmem hin _
        exact ⟨last, .tail _ hlast, hfound⟩
      · push Not at hlater
        have hfirst : entry = first := by
          rcases List.mem_cons.mp hentry with heq | hmem
          · exact heq
          · exact absurd hq (hlater entry hmem)
        subst hfirst
        refine ⟨entry, List.mem_cons_self, hq, ?_⟩
        rw [lookup_owners_absent hlater, lookup_insertAll, if_pos hq]

/-- What the owner map should say. -/
def OwnersExact (c : SchedulerCluster T) : Prop :=
  ∀ pid partition, c.pidOwner.lookup pid = some partition ↔ c.LivesIn pid partition

theorem livesIn_iff {c : SchedulerCluster T} {pid : AgentPid} {partition : Nat} :
    c.LivesIn pid partition ↔
      ∃ s, (s, partition) ∈ c.schedulers.zipIdx ∧ pid ∈ s.registry.processes.keys := by
  constructor
  · rintro ⟨s, hs, hlive⟩
    exact ⟨s, List.mem_zipIdx_iff_getElem?.mpr hs, (mem_keys_iff s pid).mpr hlive⟩
  · rintro ⟨s, hs, hin⟩
    exact ⟨s, List.mem_zipIdx_iff_getElem?.mp hs, (mem_keys_iff s pid).mp hin⟩

theorem Owned.reconciled {c : SchedulerCluster T} (h : c.Owned) :
    c.reconcilePidMap.OwnersExact := by
  intro pid partition
  have hlookup : c.reconcilePidMap.pidOwner.lookup pid =
      if pid ∈ c.schedulers.flatMap (fun s => s.registry.processes.keys) then
        (c.schedulers.zipIdx.foldl (fun owners entry =>
          entry.1.registry.processes.keys.foldl
            (fun owners pid => owners.insert pid entry.2) owners) c.pidOwner).lookup pid
      else none := by
    rw [reconcilePidMap, lookup_filter_keys
      (fun pid => decide (pid ∈ c.schedulers.flatMap fun s => s.registry.processes.keys))]
    simp only [decide_eq_true_eq]
  have hsame : c.reconcilePidMap.LivesIn pid partition ↔ c.LivesIn pid partition := Iff.rfl
  rw [hlookup, hsame]
  constructor
  · intro hfound
    split at hfound
    · rename_i hseen
      obtain ⟨s, hs, hin⟩ := List.mem_flatMap.mp hseen
      obtain ⟨i, hi⟩ := List.mem_iff_getElem?.mp hs
      have hentry : (s, i) ∈ c.schedulers.zipIdx := List.mem_zipIdx_iff_getElem?.mpr hi
      obtain ⟨last, hlast, hkeys, howner⟩ := lookup_owners_present hentry hin c.pidOwner
      obtain rfl : last.2 = partition := Option.some.inj (howner.symm.trans hfound)
      exact livesIn_iff.mpr ⟨last.1, hlast, hkeys⟩
    · contradiction
  · intro hlives
    obtain ⟨s, hs, hin⟩ := livesIn_iff.mp hlives
    rw [if_pos (List.mem_flatMap.mpr
      ⟨s, List.mem_of_getElem? (List.mem_zipIdx_iff_getElem?.mp hs), hin⟩)]
    obtain ⟨last, hlast, hkeys, howner⟩ := lookup_owners_present hs hin c.pidOwner
    rw [howner, h.partition_unique (livesIn_iff.mpr ⟨last.1, hlast, hkeys⟩) hlives]

/-- After a run every live process is in one partition, no pid stands for two processes,
and none is there that was not given out; and each reconciliation, also the one that ends
a round, leaves the owner map with who is alive, and where. -/
theorem pids_owned {code : AgentCode T} {c : SchedulerCluster T} (h : Reachable code c) :
    (∀ pid i j, c.LivesIn pid i → c.LivesIn pid j → i = j) ∧
      (∀ pid, c.presence pid ≤ 1 ∧ (c.nextPid ≤ pid → c.presence pid = 0)) ∧
      c.reconcilePidMap.OwnersExact ∧
      ∀ fuel now order worked c', c.tick code fuel now order = some (worked, c') →
        c'.OwnersExact := by
  have howned := owned_of_reachable h
  refine ⟨fun pid i j => howned.partition_unique,
    fun pid => ⟨howned.once pid, howned.fresh pid⟩, howned.reconciled, ?_⟩
  intro fuel now order worked c' htick
  obtain ⟨partitions, hook, nextPid, nextMonitorRef, ops, hrun⟩ := h
  have hstable := Allots.clusterStable code
    (new partitions hook nextPid nextMonitorRef : SchedulerCluster T)
  obtain ⟨routed, hrouted, rfl⟩ := hstable.tick_reconciled (hstable.run (.refl _) hrun) htick
  exact (hrouted.owned (Allots.presence_new _ _ _ _)).reconciled

/-- Two processes in two partitions, of which the first is terminated. -/
theorem pids_owned_of_termination :
    ∃ c : SchedulerCluster plainTypes,
      run plainCode (new 2 (fun _ => none) 1 1) [(4, .spawn () .null), (4, .spawn () .null),
        (4, .call 0 (.terminateProcess 1 .shutdown)),
        (4, .tick (fun _ => 0) fun _ => .latestFirst _)] = some c ∧
      c.presence 1 = 1 ∧ (∀ i, ¬ c.LivesIn 1 i) ∧ c.LivesIn 2 1 ∧
      c.reconcilePidMap.OwnersExact := by
  have hshape : (run plainCode (new 2 (fun _ => none) 1 1) [(4, .spawn () .null),
        (4, .spawn () .null), (4, .call 0 (.terminateProcess 1 .shutdown)),
        (4, .tick (fun _ => 0) fun _ => .latestFirst _)]).map
      (fun c => (c.presence 1, c.schedulers.map fun s =>
        ((s.lookup 1).isSome, (s.lookup 2).isSome))) =
      some (1, [(false, false), (false, true)]) := by
    rfl
  obtain ⟨c, hrun, hc⟩ := Option.map_eq_some_iff.mp hshape
  obtain ⟨hpresence, hlives⟩ := Prod.mk.inj hc
  have hlive : ∀ i : Nat, (c.schedulers[i]?.map fun s : AgentScheduler plainTypes =>
      ((s.lookup 1).isSome, (s.lookup 2).isSome)) = [(false, false), (false, true)][i]? := by
    intro i
    rw [← hlives, List.getElem?_map]
  have hreached : Reachable plainCode c := ⟨2, fun _ => none, 1, 1, _, hrun⟩
  have howned := pids_owned hreached
  refine ⟨c, hrun, hpresence, ?_, ?_, howned.2.2.1⟩
  · rintro i ⟨s, hs, hsome⟩
    have hi := hlive i
    rw [hs, Option.map_some] at hi
    match i with
    | 0 => simp_all
    | 1 => simp_all
    | i + 2 => simp at hi
  · have hsecond := hlive 1
    obtain ⟨s, hs, hpair⟩ := Option.map_eq_some_iff.mp hsecond
    exact ⟨s, hs, (Prod.mk.inj hpair).2⟩

end SchedulerCluster

end Zeptobeam
