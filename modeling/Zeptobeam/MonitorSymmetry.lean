/-
The monitors of a scheduler agree with the book of its trace in every reachable
state.  So a monitor stands at both of its ends or at none, and each monitor on a
process that ends is paid with one Down message.
-/
import Zeptobeam.MonitorBook

namespace Zeptobeam

namespace AgentScheduler

variable {T : AgentTypes}

def book (s : AgentScheduler T) : MonitorBook := .ofTrace s.trace

/-- The records at both ends are those of the book, and the notices it owes were sent,
but for the pending ones. -/
structure Booked (pending : List Monitor) (s : AgentScheduler T) : Prop where
  sound : s.book.Sound s.nextMonitorRef
  fresh : ∀ q r, s.relations q = some r → q < s.nextPid
  monitors : ∀ q r, s.relations q = some r → ∀ monitorRef target,
    (monitorRef, target) ∈ r.monitors ↔ ⟨monitorRef, q, target⟩ ∈ s.book.installed
  nodup : ∀ q r, s.relations q = some r → (r.monitors.map Prod.fst).Nodup
  monitoredBy : ∀ q r, s.relations q = some r → r.monitoredBy = s.book.watchersOf q
  live : ∀ m ∈ s.book.installed,
    (s.relations m.watcher).isSome ∧ (s.relations m.target).isSome
  sent : s.book.owed = s.book.sent ++ pending

theorem book_log (s : AgentScheduler T) (event : Event) :
    (s.log event).book = s.book.record event := by
  simp [book, log]

namespace Booked

variable {pending : List Monitor} {s s' : AgentScheduler T}

theorem new (bridge : Option Bridge) (hook : Option T.Hook) (routing : Bool)
    (nextPid nextMonitorRef : Nat) :
    Booked [] (new bridge hook routing nextPid nextMonitorRef : AgentScheduler T) := by
  refine ⟨.empty _, ?_, ?_, ?_, ?_, ?_, rfl⟩
  · intro q r hr
    contradiction
  · intro q r hr
    contradiction
  · intro q r hr
    contradiction
  · intro q r hr
    contradiction
  · intro m hm
    contradiction

/-- Nothing is said of links and trap_exit, and the counters may move on. -/
theorem congr (h : Booked pending s)
    (hrelations : ∀ q, (s'.relations q).map (fun r => (r.monitors, r.monitoredBy)) =
      (s.relations q).map fun r => (r.monitors, r.monitoredBy))
    (hbook : s'.book = s.book) (hpid : s.nextPid ≤ s'.nextPid)
    (href : s.nextMonitorRef ≤ s'.nextMonitorRef) : Booked pending s' := by
  have hback : ∀ q r', s'.relations q = some r' → ∃ r, s.relations q = some r ∧
      r.monitors = r'.monitors ∧ r.monitoredBy = r'.monitoredBy := by
    intro q r' hr'
    have hq := hrelations q
    rw [hr'] at hq
    obtain ⟨r, hr, heq⟩ := Option.map_eq_some_iff.mp hq.symm
    simp only [Prod.mk.injEq] at heq
    exact ⟨r, hr, heq.1, heq.2⟩
  have hsome : ∀ q, (s.relations q).isSome → (s'.relations q).isSome := by
    intro q hq
    have heq := congrArg Option.isSome (hrelations q)
    simpa [hq] using heq
  refine ⟨?_, ?_, ?_, ?_, ?_, ?_, ?_⟩
  · rw [hbook]
    exact h.sound.mono href
  · intro q r' hr'
    obtain ⟨r, hr, _, _⟩ := hback q r' hr'
    exact Nat.lt_of_lt_of_le (h.fresh q r hr) hpid
  · intro q r' hr'
    obtain ⟨r, hr, hmonitors, _⟩ := hback q r' hr'
    rw [← hmonitors, hbook]
    exact h.monitors q r hr
  · intro q r' hr'
    obtain ⟨r, hr, hmonitors, _⟩ := hback q r' hr'
    rw [← hmonitors]
    exact h.nodup q r hr
  · intro q r' hr'
    obtain ⟨r, hr, _, hmonitoredBy⟩ := hback q r' hr'
    rw [← hmonitoredBy, hbook]
    exact h.monitoredBy q r hr
  · intro m hm
    rw [hbook] at hm
    exact ⟨hsome _ (h.live m hm).1, hsome _ (h.live m hm).2⟩
  · rw [hbook]
    exact h.sent

theorem messagesOnly (h : Booked pending s) (hm : MessagesOnly s s') :
    Booked pending s' := by
  obtain ⟨events, htrace, hevents⟩ := hm.trace
  apply h.congr
  · intro q
    rw [hm.relations q]
  · rw [book, htrace, MonitorBook.ofTrace_append, MonitorBook.foldl_ofMessage _ hevents]
    rfl
  · exact Nat.le_of_eq hm.nextPid.symm
  · exact Nat.le_of_eq hm.nextMonitorRef.symm

theorem log (h : Booked pending s) {event : Event}
    (hevent : s.book.record event = s.book) : Booked pending (s.log event) := by
  apply h.congr
  · exact fun _ => rfl
  · rw [book_log, hevent]
  · exact Nat.le_refl _
  · exact Nat.le_refl _

/-- A live process or a reference of the book was there before the next one. -/
theorem relations_nextPid (h : Booked pending s) : s.relations s.nextPid = none := by
  cases hr : s.relations s.nextPid with
  | none => rfl
  | some r => exact absurd (h.fresh s.nextPid r hr) (Nat.lt_irrefl _)

theorem spawn (h : Booked pending s) (code : BehaviorCode T) (behavior : T.Behavior)
    (args : Json) : Booked pending (s.spawn code behavior args).2 := by
  rcases spawn_cases code s behavior args with ⟨reason, hspawn⟩ |
    ⟨registry, state, hspawn, hlookup⟩
  · rw [hspawn]
    exact h.congr (fun _ => rfl) rfl (Nat.le_succ _) (Nat.le_refl _)
  · rw [hspawn]
    generalize hs' : ({ s with nextPid := s.nextPid + 1, registry } : AgentScheduler T) = s'
    have hrelations : ∀ q, s'.relations q =
        if q = s.nextPid then some ⟨[], false, [], []⟩ else s.relations q := by
      intro q
      rw [← hs', relations, relations]
      change (registry.lookup q).map _ = _
      rw [hlookup q]
      split
      · rfl
      · rfl
    have hbook : s'.book = s.book := by rw [← hs']; rfl
    have hnone : ∀ m ∈ s.book.installed, m.watcher ≠ s.nextPid ∧ m.target ≠ s.nextPid := by
      intro m hm
      obtain ⟨hwatcher, htarget⟩ := h.live m hm
      constructor
      · intro heq
        rw [heq, h.relations_nextPid] at hwatcher
        contradiction
      · intro heq
        rw [heq, h.relations_nextPid] at htarget
        contradiction
    have hcases : ∀ q r, s'.relations q = some r →
        q = s.nextPid ∧ r = ⟨[], false, [], []⟩ ∨ q ≠ s.nextPid ∧ s.relations q = some r := by
      intro q r hr
      rw [hrelations q] at hr
      split at hr
      · exact .inl ⟨‹_›, (Option.some.inj hr).symm⟩
      · exact .inr ⟨‹_›, hr⟩
    refine ⟨?_, ?_, ?_, ?_, ?_, ?_, ?_⟩
    · rw [hbook, ← hs']
      exact h.sound
    · intro q r hr
      rw [← hs']
      rcases hcases q r hr with ⟨rfl, _⟩ | ⟨_, hr⟩
      · exact Nat.lt_succ_self _
      · exact Nat.lt_succ_of_lt (h.fresh q r hr)
    · intro q r hr monitorRef target
      rw [hbook]
      rcases hcases q r hr with ⟨rfl, rfl⟩ | ⟨_, hr⟩
      · simp only [List.not_mem_nil, false_iff]
        exact fun hm => (hnone _ hm).1 rfl
      · exact h.monitors q r hr monitorRef target
    · intro q r hr
      rcases hcases q r hr with ⟨rfl, rfl⟩ | ⟨_, hr⟩
      · exact List.nodup_nil
      · exact h.nodup q r hr
    · intro q r hr
      rw [hbook]
      rcases hcases q r hr with ⟨rfl, rfl⟩ | ⟨_, hr⟩
      · rw [MonitorBook.watchersOf, List.filter_eq_nil_iff.mpr]
        · rfl
        · intro m hm
          simpa using (hnone m hm).2
      · exact h.monitoredBy q r hr
    · intro m hm
      rw [hbook] at hm
      rw [hrelations, hrelations, if_neg (hnone m hm).1, if_neg (hnone m hm).2]
      exact h.live m hm
    · rw [hbook]
      exact h.sent

/-- The records after a write to the watcher's monitors and to the target's watchers. -/
theorem relations_ends (s : AgentScheduler T) (watcher target : AgentPid)
    (f g : List (MonitorRef × AgentPid) → List (MonitorRef × AgentPid)) (q : AgentPid) :
    ((s.modify watcher fun proc => { proc with monitors := f proc.monitors }).modify target
        fun proc => { proc with monitoredBy := g proc.monitoredBy }).relations q =
      (s.relations q).map fun r =>
        { r with
          monitors := if q = watcher then f r.monitors else r.monitors
          monitoredBy := if q = target then g r.monitoredBy else r.monitoredBy } := by
  rw [relations_modify_map (g := fun r => { r with monitoredBy := g r.monitoredBy })
      (fun _ => rfl),
    relations_modify_map (g := fun r => { r with monitors := f r.monitors }) (fun _ => rfl),
    Option.map_map]
  congr 1
  funext r
  by_cases hw : q = watcher
  · by_cases ht : q = target
    · simp [hw, ← ht]
    · simp [hw, hw ▸ ht]
  · by_cases ht : q = target
    · simp [ht, ht ▸ hw]
    · simp [hw, ht]

/-- Both ends of a monitor and the book are written. -/
theorem of_ends (h : Booked pending s) (watcher target : AgentPid)
    (f g : List (MonitorRef × AgentPid) → List (MonitorRef × AgentPid))
    (hrelations : ∀ q, s'.relations q = (s.relations q).map fun r =>
      { r with
        monitors := if q = watcher then f r.monitors else r.monitors
        monitoredBy := if q = target then g r.monitoredBy else r.monitoredBy })
    (hpid : s'.nextPid = s.nextPid) (hsound : s'.book.Sound s'.nextMonitorRef)
    (hmonitors : ∀ q r, s.relations q = some r → ∀ monitorRef other,
      (monitorRef, other) ∈ (if q = watcher then f r.monitors else r.monitors) ↔
        ⟨monitorRef, q, other⟩ ∈ s'.book.installed)
    (hnodup : ∀ r, s.relations watcher = some r → ((f r.monitors).map Prod.fst).Nodup)
    (hmonitoredBy : ∀ q r, s.relations q = some r →
      (if q = target then g r.monitoredBy else r.monitoredBy) = s'.book.watchersOf q)
    (hlive : ∀ m ∈ s'.book.installed,
      (s.relations m.watcher).isSome ∧ (s.relations m.target).isSome)
    (hsent : s'.book.owed = s'.book.sent ++ pending) : Booked pending s' := by
  have hback : ∀ q r', s'.relations q = some r' → ∃ r, s.relations q = some r ∧
      r' = { r with
        monitors := if q = watcher then f r.monitors else r.monitors
        monitoredBy := if q = target then g r.monitoredBy else r.monitoredBy } := by
    intro q r' hr'
    rw [hrelations q] at hr'
    obtain ⟨r, hr, heq⟩ := Option.map_eq_some_iff.mp hr'
    exact ⟨r, hr, heq.symm⟩
  refine ⟨hsound, ?_, ?_, ?_, ?_, ?_, hsent⟩
  · intro q r' hr'
    obtain ⟨r, hr, _⟩ := hback q r' hr'
    rw [hpid]
    exact h.fresh q r hr
  · intro q r' hr'
    obtain ⟨r, hr, rfl⟩ := hback q r' hr'
    exact hmonitors q r hr
  · intro q r' hr'
    obtain ⟨r, hr, rfl⟩ := hback q r' hr'
    by_cases hq : q = watcher
    · subst hq
      simpa only [↓reduceIte] using hnodup r hr
    · simpa only [if_neg hq] using h.nodup q r hr
  · intro q r' hr'
    obtain ⟨r, hr, rfl⟩ := hback q r' hr'
    exact hmonitoredBy q r hr
  · intro m hm
    rw [hrelations, hrelations, Option.isSome_map, Option.isSome_map]
    exact hlive m hm

theorem monitor (h : Booked pending s) (watcher target : AgentPid) :
    Booked pending (s.monitor watcher target).2 := by
  rcases monitor_cases s watcher target with ⟨text, hmonitor⟩ |
    ⟨hwatcher, htarget, hmonitor⟩
  · rw [hmonitor]
    exact h
  · rw [hmonitor]
    dsimp only
    generalize hs' : AgentScheduler.log (T := T) _ _ = s'
    have hbook : s'.book = s.book.install ⟨s.nextMonitorRef, watcher, target⟩ := by
      rw [← hs', book_log]
      rfl
    apply h.of_ends watcher target (· ++ [(s.nextMonitorRef, target)])
      (· ++ [(s.nextMonitorRef, watcher)])
    · intro q
      rw [← hs']
      exact relations_ends { s with nextMonitorRef := s.nextMonitorRef + 1 } watcher target
        (· ++ [(s.nextMonitorRef, target)]) (· ++ [(s.nextMonitorRef, watcher)]) q
    · subst hs'
      exact rfl
    · rw [hbook, ← hs']
      exact h.sound.install watcher target
    · intro q r hr monitorRef other
      have hold := h.monitors q r hr monitorRef other
      rw [hbook, MonitorBook.install, List.mem_append, ← hold]
      by_cases hq : q = watcher
      · simp [hq]
      · simp [hq]
    · intro r hr
      rw [List.map_append, List.map_cons, List.map_nil]
      refine List.nodup_append.mpr ⟨h.nodup watcher r hr, by simp, ?_⟩
      intro ref href other hother
      obtain ⟨x, hx, rfl⟩ := List.mem_map.mp href
      obtain rfl := List.mem_singleton.mp hother
      have hinstalled := (h.monitors watcher r hr x.1 x.2).mp hx
      exact Nat.ne_of_lt (h.sound.below _ (List.mem_append_left _ hinstalled))
    · intro q r hr
      rw [hbook, MonitorBook.watchersOf_install, ← h.monitoredBy q r hr]
    · intro m hm
      rw [hbook] at hm
      rcases List.mem_append.mp hm with hm | hm
      · exact h.live m hm
      · obtain rfl := List.mem_singleton.mp hm
        simp only [relations, Option.isSome_map]
        exact ⟨hwatcher, htarget⟩
    · rw [hbook]
      exact h.sent

/-- Removing the record of a reference removes exactly that one. -/
theorem mem_swapRemove_of_nodup {monitors : List (MonitorRef × AgentPid)} {i : Nat}
    {monitorRef : MonitorRef} {target : AgentPid}
    (hrecord : monitors[i]? = some (monitorRef, target))
    (hnodup : (monitors.map Prod.fst).Nodup) (x : MonitorRef × AgentPid) :
    x ∈ swapRemove monitors i ↔ x ∈ monitors ∧ x.1 ≠ monitorRef := by
  obtain ⟨hi, hget⟩ := List.getElem?_eq_some_iff.mp hrecord
  have hperm := perm_swapRemove hi
  have hcons := (hperm.map Prod.fst).nodup_iff.mpr hnodup
  rw [List.map_cons, List.nodup_cons, hget] at hcons
  rw [← hperm.mem_iff, List.mem_cons, hget]
  constructor
  · intro hx
    refine ⟨.inr hx, ?_⟩
    intro heq
    have hmem : x.1 ∈ (swapRemove monitors i).map Prod.fst := List.mem_map_of_mem hx
    rw [heq] at hmem
    exact hcons.1 hmem
  · rintro ⟨rfl | hx, hne⟩
    · exact absurd rfl hne
    · exact hx

theorem demonitor (h : Booked pending s) (watcher : AgentPid) (monitorRef : MonitorRef) :
    Booked pending (s.demonitor watcher monitorRef).2 := by
  rcases demonitor_cases s watcher monitorRef with hdemonitor |
    ⟨proc, i, target, hproc, hrecord, hdemonitor⟩
  · rw [hdemonitor]
    exact h
  · rw [hdemonitor]
    dsimp only
    generalize hs' : AgentScheduler.log (T := T) _ _ = s'
    obtain ⟨hi, hget⟩ := List.getElem?_eq_some_iff.mp hrecord
    have hwatcher : s.relations watcher = some proc.relations := by
      rw [relations, hproc]
      rfl
    have hinstalled : (⟨monitorRef, watcher, target⟩ : Monitor) ∈ s.book.installed := by
      apply (h.monitors watcher _ hwatcher monitorRef target).mp
      rw [← hget]
      exact List.getElem_mem hi
    have hbook : s'.book = s.book.cancel monitorRef := by
      rw [← hs', book_log]
      rfl
    apply h.of_ends watcher target (swapRemove · i)
      fun watchers => watchers.filter (· ≠ (monitorRef, watcher))
    · intro q
      rw [← hs']
      exact relations_ends s watcher target (swapRemove · i)
        (fun watchers => watchers.filter (· ≠ (monitorRef, watcher))) q
    · subst hs'
      exact rfl
    · rw [hbook, ← hs']
      exact h.sound.cancel hinstalled
    · intro q r hr ref other
      have hold := h.monitors q r hr ref other
      simp only [hbook, MonitorBook.cancel, List.mem_filter, decide_eq_true_eq, ← hold]
      by_cases hq : q = watcher
      · subst hq
        obtain rfl : proc.relations = r := Option.some.inj (hwatcher.symm.trans hr)
        rw [if_pos rfl]
        exact mem_swapRemove_of_nodup hrecord (h.nodup q _ hr) (ref, other)
      · rw [if_neg hq]
        refine ⟨fun hmem => ⟨hmem, ?_⟩, fun hmem => hmem.1⟩
        intro heq
        have hsame := h.sound.eq_of_ref (hold.mp hmem) hinstalled heq
        exact hq (congrArg Monitor.watcher hsame)
    · intro r hr
      obtain rfl : proc.relations = r := Option.some.inj (hwatcher.symm.trans hr)
      have hcons := ((perm_swapRemove hi).map Prod.fst).nodup_iff.mpr (h.nodup watcher _ hr)
      exact (List.nodup_cons.mp hcons).2
    · intro q r hr
      rw [hbook, h.sound.watchersOf_cancel hinstalled, ← h.monitoredBy q r hr]
    · intro m hm
      rw [hbook] at hm
      exact h.live m (List.mem_filter.mp hm).1
    · rw [hbook]
      exact h.sent

theorem stable (code : BehaviorCode T) : Stable code (Booked pending) := by
  intro s s' hmove h
  rcases hmove.messagesOnly_or_relation with hmessages | hrelation
  · exact h.messagesOnly hmessages
  · cases hrelation with
    | counters pids refs =>
        exact h.congr (fun _ => rfl) rfl (Nat.le_add_right _ _) (Nat.le_add_right _ _)
    | adjust pid f hquiet =>
        refine h.congr ?_ rfl (Nat.le_refl _) (Nat.le_refl _)
        intro q
        rw [relations, lookup_modify, relations]
        by_cases hq : q = pid
        · simp [if_pos hq, AgentProcess.relations, hquiet.monitors, hquiet.monitoredBy,
            Function.comp_def]
        · rw [if_neg hq]
    | spawn behavior args => exact h.spawn code behavior args
    | link first second =>
        refine h.congr ?_ rfl (Nat.le_refl _) (Nat.le_refl _)
        intro q
        rw [AgentScheduler.link,
          relations_modify_map (g := fun r => { r with links := r.links ++ [first] })
            (fun _ => rfl),
          relations_modify_map (g := fun r => { r with links := r.links ++ [second] })
            (fun _ => rfl),
          Option.map_map, Option.map_map]
        congr 1
        funext r
        simp only [Function.comp]
        split
        · split
          · rfl
          · rfl
        · split
          · rfl
          · rfl
    | monitor watcher target => exact h.monitor watcher target
    | demonitor watcher monitorRef => exact h.demonitor watcher monitorRef

/-- The removed process owes what stood on it, until the Down messages are out. -/
theorem settled (h : Booked [] s) {pid : AgentPid} {r : Relations}
    (hpid : s.relations pid = some r) {removed : AgentScheduler T}
    (hrelations : ∀ q, removed.relations q = if q = pid then none else s.relations q)
    (hbook : removed.book = s.book.ended pid) (hnextPid : removed.nextPid = s.nextPid)
    (hnextRef : removed.nextMonitorRef = s.nextMonitorRef)
    (hsettled : Settled removed s' pid r.monitors r.monitoredBy) :
    Booked (s.book.installed.filter fun m => m.target = pid) s' := by
  have hsame : s'.book = s.book.ended pid := by
    obtain ⟨events, htrace, hevents⟩ := hsettled.trace
    rw [book, htrace, MonitorBook.ofTrace_append, MonitorBook.foldl_ofMessage _ hevents]
    exact hbook
  have hback : ∀ q r', s'.relations q = some r' → q ≠ pid ∧ ∃ old,
      s.relations q = some old ∧ r' = old.without pid q r.monitors r.monitoredBy := by
    intro q r' hr'
    rw [hsettled.relations q, hrelations q] at hr'
    obtain ⟨old, hold, heq⟩ := Option.map_eq_some_iff.mp hr'
    split at hold
    · contradiction
    · exact ⟨‹_›, old, hold, heq.symm⟩
  have hwatched : ∀ q monitorRef, (monitorRef, q) ∈ r.monitoredBy ↔
      ⟨monitorRef, q, pid⟩ ∈ s.book.installed := by
    intro q monitorRef
    rw [h.monitoredBy pid r hpid, MonitorBook.mem_watchersOf]
  refine ⟨?_, ?_, ?_, ?_, ?_, ?_, ?_⟩
  · rw [hsame, hsettled.nextMonitorRef, hnextRef]
    exact h.sound.ended pid
  · intro q r' hr'
    obtain ⟨_, old, hold, _⟩ := hback q r' hr'
    rw [hsettled.nextPid, hnextPid]
    exact h.fresh q old hold
  · intro q r' hr' monitorRef target
    obtain ⟨hq, old, hold, rfl⟩ := hback q r' hr'
    simp only [Relations.without, List.mem_filter, hsame, MonitorBook.ended,
      decide_eq_true_eq, hwatched, ← h.monitors q old hold monitorRef]
    constructor
    · rintro ⟨hmem, hkept⟩
      exact ⟨hmem, hq, fun htarget => hkept ⟨htarget, htarget ▸ hmem⟩⟩
    · rintro ⟨hmem, _, htarget⟩
      exact ⟨hmem, fun hshared => htarget hshared.1⟩
  · intro q r' hr'
    obtain ⟨_, old, hold, rfl⟩ := hback q r' hr'
    exact (h.nodup q old hold).sublist (List.filter_sublist.map _)
  · intro q r' hr'
    obtain ⟨hq, old, hold, rfl⟩ := hback q r' hr'
    rw [hsame, MonitorBook.watchersOf_ended _ hq, Relations.without,
      ← h.monitoredBy q old hold]
    apply List.filter_congr
    intro x hx
    rw [h.monitoredBy q old hold, MonitorBook.mem_watchersOf] at hx
    by_cases hwatcher : x.2 = pid
    · rw [hwatcher] at hx
      have hrecord := (h.monitors pid r hpid x.1 q).mpr hx
      simp [hwatcher, hrecord]
    · simp [hwatcher]
  · intro m hm
    rw [hsame] at hm
    obtain ⟨hm, hne⟩ := List.mem_filter.mp hm
    simp only [decide_eq_true_eq] at hne
    rw [hsettled.relations, hsettled.relations, hrelations, hrelations, if_neg hne.1,
      if_neg hne.2, Option.isSome_map, Option.isSome_map]
    exact h.live m hm
  · rw [hsame, MonitorBook.ended, h.sent, List.append_nil]

/-- One Down message pays one notice. -/
theorem sendDown {m : Monitor} {rest : List Monitor} (h : Booked (m :: rest) s)
    (code : BehaviorCode T) {pid : AgentPid} (reason : Reason) (htarget : m.target = pid) :
    Booked rest (sendDown code pid reason s (m.monitorRef, m.watcher)) := by
  have hpaid : Booked rest (s.log (.handed m.watcher (.system (.down m.monitorRef pid reason))
      (.monitor m.monitorRef pid))) := by
    have hbook : (s.log (.handed m.watcher (.system (.down m.monitorRef pid reason))
        (.monitor m.monitorRef pid))).book = s.book.send m := by
      rw [book_log, ← htarget]
      rfl
    refine ⟨?_, h.fresh, ?_, h.nodup, ?_, ?_, ?_⟩
    · rw [hbook]
      exact h.sound.send m
    · rw [hbook]
      exact h.monitors
    · rw [hbook]
      exact h.monitoredBy
    · rw [hbook]
      exact h.live
    · rw [hbook, MonitorBook.send, List.append_assoc]
      exact h.sent
  exact hpaid.messagesOnly
    (messagesOnly_sendDown code pid reason s (m.monitorRef, m.watcher))

theorem sendDowns (code : BehaviorCode T) (pid : AgentPid) (reason : Reason)
    (ms : List Monitor) (htarget : ∀ m ∈ ms, m.target = pid) (h : Booked ms s) :
    Booked [] ((ms.map fun m => (m.monitorRef, m.watcher)).foldl
      (AgentScheduler.sendDown code pid reason) s) := by
  induction ms generalizing s with
  | nil => exact h
  | cons m rest ih =>
      apply ih
      · intro other hother
        exact htarget other (List.mem_cons_of_mem m hother)
      · exact h.sendDown code reason (htarget m List.mem_cons_self)

/-- Taking a process down, its Down messages included. -/
theorem takeDown (h : Booked [] s) (code : BehaviorCode T) (pid : AgentPid)
    (reason : Reason) : Booked [] (s.takeDown code pid reason).2 := by
  cases hproc : s.lookup pid with
  | none =>
      rw [takeDown_of_dead code hproc]
      have hcancel : Booked [] (s.cancel pid) :=
        h.congr (fun _ => rfl) rfl (Nat.le_refl _) (Nat.le_refl _)
      exact hcancel.log rfl
  | some proc =>
      unfold AgentScheduler.takeDown
      simp only [hproc, Option.elim_some, Option.isSome_some]
      generalize hmarked : (s.cancel pid).log _ = marked
      have hrelations : ∀ q, marked.relations q = s.relations q := by
        rw [← hmarked]
        exact fun _ => rfl
      have hlookup : marked.lookup pid = some proc := by
        rw [← hmarked]
        exact hproc
      have hpid : s.relations pid = some proc.relations := by
        rw [relations, hproc]
        rfl
      have hmarkedBook : marked.book = s.book := by
        rw [← hmarked, book_log]
        rfl
      have hbook : (marked.removeProcess pid).book = s.book.ended pid := by
        rw [removeProcess_of_live hlookup, book, MonitorBook.ofTrace_append,
          List.foldl_cons]
        change List.foldl _ (marked.book.ended pid) _ = _
        rw [hmarkedBook]
        apply MonitorBook.foldl_ofMessage (s.book.ended pid)
        intro event hevent
        obtain ⟨msg, _, rfl⟩ := List.mem_map.mp hevent
        rfl
      obtain ⟨_, hsettled, _⟩ := settleRelations_spec (marked.removeProcess pid) pid reason
        proc.links proc.monitors proc.monitoredBy
      unfold notifyRelations
      generalize (marked.removeProcess pid).settleRelations pid reason proc.links
        proc.monitors proc.monitoredBy = settled at hsettled
      obtain ⟨pidsToCascade, settled⟩ := settled
      have hremoved : ∀ q, (marked.removeProcess pid).relations q =
          if q = pid then none else s.relations q := by
        intro q
        rw [← hrelations, relations, lookup_removeProcess, relations]
        split
        · rfl
        · rfl
      have hpending := h.settled hpid hremoved hbook
        (by rw [removeProcess_of_live hlookup, ← hmarked]; rfl)
        (by rw [removeProcess_of_live hlookup, ← hmarked]; rfl) hsettled
      have hwatchers : proc.monitoredBy = s.book.watchersOf pid :=
        h.monitoredBy pid proc.relations hpid
      rw [hwatchers]
      apply hpending.sendDowns code pid reason
      intro m hm
      simpa using (List.mem_filter.mp hm).2

theorem stableRun (code : AgentCode T) : StableRun code (Booked [] (T := T)) where
  move := stable code.toBehaviorCode
  takeDown pid reason h := h.takeDown code.toBehaviorCode pid reason
  handlers _ _ h := h.congr (fun _ => rfl) rfl (Nat.le_refl _) (Nat.le_refl _)
  handlerAdded _ _ h := h.log rfl
  handlerInvoked _ _ _ h := h.log rfl

theorem of_reachable {code : AgentCode T} (h : Reachable code s) : Booked [] s := by
  obtain ⟨bridge, hook, routing, nextPid, nextMonitorRef, ops, hrun⟩ := h
  exact (stableRun code).run hrun (Booked.new bridge hook routing nextPid nextMonitorRef)

end Booked

/-- A monitor is recorded at its live watcher if and only if it is at its live
target. -/
def MonitorsSymmetric (s : AgentScheduler T) : Prop :=
  ∀ watcher target watcherProc targetProc monitorRef,
    s.lookup watcher = some watcherProc → s.lookup target = some targetProc →
    ((monitorRef, target) ∈ watcherProc.monitors ↔
      (monitorRef, watcher) ∈ targetProc.monitoredBy)

/-- Each monitor that stood on a process when it ended has been paid with one Down
message, and a cancelled reference with none. -/
structure DownsOnce (s : AgentScheduler T) : Prop where
  recorded : ∀ q proc, s.lookup q = some proc → proc.monitoredBy = s.book.watchersOf q
  paid : s.book.sent = s.book.owed
  once : (s.book.sent.map Monitor.monitorRef).Nodup
  cancelled : ∀ m ∈ s.book.sent, m.monitorRef ∉ s.book.cancelled

/-- In every reachable state the monitors are symmetric, and exactly the notices that
ended targets owed were handed to `send`, each once. -/
theorem monitors_of_reachable (code : AgentCode T) (s : AgentScheduler T)
    (h : Reachable code s) : s.MonitorsSymmetric ∧ s.DownsOnce := by
  have hbooked := Booked.of_reachable h
  have hrelations : ∀ q proc, s.lookup q = some proc →
      s.relations q = some proc.relations := by
    intro q proc hproc
    rw [relations, hproc]
    rfl
  have hpaid : s.book.sent = s.book.owed := by
    rw [hbooked.sent, List.append_nil]
  refine ⟨?_, ?_, hpaid, ?_, ?_⟩
  · intro watcher target watcherProc targetProc monitorRef hwatcher htarget
    have hwatches := hbooked.monitors watcher _ (hrelations watcher _ hwatcher) monitorRef
      target
    have hwatched := hbooked.monitoredBy target _ (hrelations target _ htarget)
    change _ ↔ (monitorRef, watcher) ∈ targetProc.relations.monitoredBy
    rw [hwatched, MonitorBook.mem_watchersOf]
    exact hwatches
  · intro q proc hproc
    exact hbooked.monitoredBy q _ (hrelations q proc hproc)
  · rw [hpaid]
    exact hbooked.sound.owed
  · intro m hm
    rw [hpaid] at hm
    exact hbooked.sound.cancelled m (List.mem_append_right _ hm)

/-- Two monitors on one process, one of them cancelled before it is terminated. -/
theorem monitors_of_reachable_after_termination :
    ∃ s, run plainCode (new none none false 1 1)
        [(0, .call (.spawn () .null)), (0, .call (.spawn () .null)),
          (0, .call (.monitor 1 2)), (0, .call (.monitor 1 2)),
          (0, .call (.demonitor 1 1)), (2, .call (.terminateProcess 2 .shutdown))] =
        some s ∧
      s.book.sent = [⟨2, 1, 2⟩] ∧ s.MonitorsSymmetric ∧ s.DownsOnce := by
  have hsent : (run plainCode (new none none false 1 1)
      [(0, .call (.spawn () .null)), (0, .call (.spawn () .null)),
        (0, .call (.monitor 1 2)), (0, .call (.monitor 1 2)),
        (0, .call (.demonitor 1 1)), (2, .call (.terminateProcess 2 .shutdown))]).map
      (fun s => s.book.sent) = some [⟨2, 1, 2⟩] := rfl
  obtain ⟨s, hrun, hbook⟩ := Option.map_eq_some_iff.mp hsent
  exact ⟨s, hrun, hbook, monitors_of_reachable plainCode s ⟨_, _, _, _, _, _, hrun⟩⟩

end AgentScheduler

end Zeptobeam
