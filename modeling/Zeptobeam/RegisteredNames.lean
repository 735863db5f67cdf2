/-
Names of processes: they go with the process that is removed, but a name may be
registered for a pid nobody is alive under.  Runs that never do so keep every name on
a live process.
-/
import Zeptobeam.PidHistory
import Zeptobeam.SchedulerGuards

namespace Zeptobeam

namespace AgentRegistry

variable {T : AgentTypes} {registry registry' : AgentRegistry T} {name other : String}
  {pid q : AgentPid}

def lookupName (registry : AgentRegistry T) (name : String) : Option AgentPid :=
  registry.names.lookup name

/-- The names of the removed process go, and no others. -/
theorem lookupName_remove :
    (registry.remove pid).lookupName name = some q ↔
      registry.lookupName name = some q ∧ ((registry.lookup pid).isSome → q ≠ pid) := by
  unfold remove lookupName
  cases hpid : registry.lookup pid with
  | none => simp
  | some proc =>
      have hkeys : (registry.names.entries.filter fun entry => entry.2 ≠ pid).NodupKeys :=
        registry.names.nodupKeys.sublist List.filter_sublist
      simp only [AList.lookup_to_alist, Option.isSome_some, forall_const]
      rw [← Option.mem_def, List.mem_dlookup_iff hkeys, List.mem_filter,
        ← AList.mem_lookup_iff]
      simp

theorem lookupName_registerName (h : registry.registerName name pid = .ok registry') :
    registry'.lookupName other = if other = name then some pid else registry.lookupName other := by
  have hinserted : registry' = { registry with names := registry.names.insert name pid } := by
    unfold registerName at h
    split at h
    · split at h
      · contradiction
      · exact (Except.ok.inj h).symm
    · exact (Except.ok.inj h).symm
  rw [hinserted, lookupName]
  by_cases hother : other = name
  · rw [if_pos hother, hother]
    exact AList.lookup_insert _
  · rw [if_neg hother]
    exact AList.lookup_insert_ne hother

theorem lookupName_unregisterName :
    (registry.unregisterName name).lookupName other =
      if other = name then none else registry.lookupName other := by
  unfold unregisterName lookupName
  by_cases hother : other = name
  · rw [if_pos hother, hother]
    exact AList.lookup_erase _ _
  · rw [if_neg hother]
    exact AList.lookup_erase_ne hother

end AgentRegistry

namespace AgentScheduler

variable {T : AgentTypes} {code : BehaviorCode T} {s s' : AgentScheduler T}

/-! ## What taking down does to the names -/

theorem names_foldl {α : Type} (f : AgentScheduler T → α → AgentScheduler T)
    (hf : ∀ s item, (f s item).registry.names = s.registry.names) (items : List α)
    (s : AgentScheduler T) : (items.foldl f s).registry.names = s.registry.names := by
  induction items generalizing s with
  | nil => rfl
  | cons item rest ih => exact (ih (f s item)).trans (hf s item)

theorem names_enqueue (s : AgentScheduler T) (pid : AgentPid) :
    (s.enqueue pid).registry.names = s.registry.names := by
  unfold enqueue
  split
  · rfl
  · split <;> rfl

theorem names_notifyLinks (pid : AgentPid) (reason : Reason) (links : List AgentPid)
    (notices : LinkNotices T) :
    (links.foldl (notifyLink pid reason) notices).scheduler.registry.names =
      notices.scheduler.registry.names := by
  induction links generalizing notices with
  | nil => rfl
  | cons linked rest ih =>
      rw [List.foldl_cons, ih]
      unfold notifyLink
      split
      · rfl
      · split
        · exact names_deliverDirect ..
        · split <;> rfl

theorem names_notifyRelations (s : AgentScheduler T) (pid : AgentPid) (reason : Reason)
    (links : List AgentPid) (monitors monitoredBy : List (MonitorRef × AgentPid)) :
    (s.notifyRelations code pid reason links monitors monitoredBy).2.registry.names =
      s.registry.names := by
  have hmonitors := names_foldl
    (fun (s : AgentScheduler T) (record : MonitorRef × AgentPid) =>
      s.dropMonitoredBy record.2 record.1 pid)
    (fun _ _ => names_modify ..) monitors s
  have hlinks := names_notifyLinks pid reason links ⟨monitors.foldl
    (fun s record => s.dropMonitoredBy record.2 record.1 pid) s, [], []⟩
  have hwatchers := names_foldl
    (fun (s : AgentScheduler T) (record : MonitorRef × AgentPid) =>
      s.dropMonitor record.2 record.1 pid)
    (fun _ _ => names_modify ..) monitoredBy
  have hwoken := names_foldl (T := T) enqueue names_enqueue
  have hdowns := names_foldl (sendDown code pid reason) (fun _ _ => names_send ..) monitoredBy
  unfold notifyRelations settleRelations
  dsimp only
  rw [hdowns, hwoken, hwatchers, hlinks]
  exact hmonitors

theorem names_takeDown (s : AgentScheduler T) (pid : AgentPid) (reason : Reason) :
    (s.takeDown code pid reason).2.registry.names = (s.registry.remove pid).names := by
  unfold takeDown
  dsimp only
  rw [names_notifyRelations]
  unfold removeProcess
  split
  · rename_i hdead
    have hdead' : s.registry.lookup pid = none := hdead
    rw [AgentRegistry.remove, hdead']
    rfl
  · rfl

/-! ## Names of the living -/

/-- Every name is one process's, and the process is alive. -/
structure NamesLive (s : AgentScheduler T) : Prop where
  live : ∀ name pid, s.registry.lookupName name = some pid → (s.lookup pid).isSome
  unique : ∀ name pid pid', ⟨name, pid⟩ ∈ s.registry.names.entries →
    ⟨name, pid'⟩ ∈ s.registry.names.entries → pid = pid'
  dead : ∀ name pid, s.lookup pid = none → s.registry.lookupName name ≠ some pid

theorem NamesLive.of_live
    (h : ∀ name pid, s.registry.lookupName name = some pid → (s.lookup pid).isSome) :
    NamesLive s where
  live := h
  unique name pid pid' hpid hpid' := by
    have hfirst : s.registry.names.lookup name = some pid := AList.mem_lookup_iff.mpr hpid
    have hsecond : s.registry.names.lookup name = some pid' := AList.mem_lookup_iff.mpr hpid'
    rw [hfirst] at hsecond
    exact Option.some.inj hsecond
  dead name pid hdead hname := by
    have hlive := h name pid hname
    rw [hdead] at hlive
    contradiction

theorem new_namesLive (bridge : Option Bridge) (messageHook : Option T.Hook)
    (routing : Bool) (nextPid nextMonitorRef : Nat) :
    NamesLive (new bridge messageHook routing nextPid nextMonitorRef) := by
  refine .of_live fun name pid hname => ?_
  cases hname

/-- A move keeps who was alive. -/
theorem Move.keeps_live (h : Move code s s') {q : AgentPid} (hq : (s.lookup q).isSome) :
    (s'.lookup q).isSome := by
  rcases h.live_or_spawn with ⟨hlive, -⟩ | ⟨behavior, args, rfl⟩
  · rwa [hlive]
  · rcases spawn_cases code s behavior args with ⟨_, hspawn⟩ | ⟨registry, _, hspawn, hlookup⟩
    · rw [hspawn]
      exact hq
    · rw [hspawn]
      change (registry.lookup q).isSome
      rw [hlookup]
      split
      · rfl
      · exact hq

theorem calm_namesLive (code : BehaviorCode T) : Calm code (NamesLive (T := T)) := by
  intro s s' hmove hnames hs
  refine .of_live fun name pid hname => ?_
  rw [AgentRegistry.lookupName, hnames] at hname
  exact hmove.keeps_live (hs.live name pid hname)

theorem NamesLive.takeDown (hs : NamesLive s) (pid : AgentPid) (reason : Reason) :
    NamesLive (s.takeDown code pid reason).2 := by
  refine .of_live fun name q hname => ?_
  rw [AgentRegistry.lookupName, names_takeDown] at hname
  obtain ⟨hold, hne⟩ := AgentRegistry.lookupName_remove.mp hname
  have hlive := hs.live name q hold
  have hq : q ≠ pid := by
    rintro rfl
    exact hne hlive rfl
  rw [← isSome_kin, kin_takeDown, if_neg hq, isSome_kin]
  exact hlive

/-- No name is registered for a process that is not alive. -/
def registersLive (s : AgentScheduler T) : Call T → Bool
  | .registerName name pid =>
      match s.registry.registerName name pid with
      | .error _ => true
      | .ok _ => (s.lookup pid).isSome
  | _ => true

theorem guardKeeps_namesLive (code : AgentCode T) :
    GuardKeeps registersLive code (NamesLive (T := T)) where
  move := calm_namesLive code.toBehaviorCode
  takeDown pid reason hs := hs.takeDown pid reason
  handlers _ _ hs := ⟨hs.live, hs.unique, hs.dead⟩
  handlerAdded _ _ hs := ⟨hs.live, hs.unique, hs.dead⟩
  handlerInvoked _ _ _ hs := ⟨hs.live, hs.unique, hs.dead⟩
  registered {s name pid registry} hguard hregister hs := by
    simp only [registersLive, hregister] at hguard
    have hlookup : ∀ q, registry.lookup q = s.lookup q := by
      intro q
      rw [names_registerName hregister]
      rfl
    refine .of_live fun other q hname => ?_
    change registry.lookupName other = some q at hname
    change (registry.lookup q).isSome
    rw [hlookup]
    rw [AgentRegistry.lookupName_registerName hregister] at hname
    split at hname
    · exact Option.some.inj hname ▸ hguard
    · exact hs.live other q hname
  unregistered {s} name hs := by
    refine .of_live fun other q hname => ?_
    change (s.registry.unregisterName name).lookupName other = some q at hname
    rw [AgentRegistry.lookupName_unregisterName] at hname
    split at hname
    · contradiction
    · exact hs.live other q hname

/-- In a run in which no name is registered for a process that is not alive, by nobody,
every name stays on a live process. -/
theorem names_live (code : AgentCode T) (bridge : Option Bridge)
    (messageHook : Option T.Hook) (routing : Bool) (nextPid nextMonitorRef : Nat)
    (ops : List (Nat × RunOp T)) (s : AgentScheduler T)
    (hrun : guardedRun registersLive code
      (new bridge messageHook routing nextPid nextMonitorRef) ops = some s) :
    ∀ pre, pre <+: ops → ∃ reached,
      run code (new bridge messageHook routing nextPid nextMonitorRef) pre = some reached ∧
      NamesLive reached := by
  intro pre hpre
  obtain ⟨reached, hreached⟩ := guardedRun_prefix hpre hrun
  exact ⟨reached, run_of_guarded hreached,
    (guardKeeps_namesLive code).run hreached (new_namesLive ..)⟩

/-- A process has a name, is terminated and loses it. -/
theorem names_live_terminated :
    ∃ reached, run plainCode (new none none false 7 1)
      [(1, .call (.spawn () .null)), (1, .call (.registerName "a" 7)),
        (2, .call (.terminateProcess 7 .shutdown))] = some reached ∧ NamesLive reached := by
  have hguarded : (guardedRun registersLive plainCode (new none none false 7 1)
      [(1, .call (.spawn () .null)), (1, .call (.registerName "a" 7)),
        (2, .call (.terminateProcess 7 .shutdown))]).isSome := rfl
  obtain ⟨s, hrun⟩ := Option.isSome_iff_exists.mp hguarded
  exact names_live plainCode none none false 7 1 _ s hrun _ List.prefix_rfl

/-- The name comes after the end of the process, and stays. -/
theorem name_of_dead :
    ¬ ∀ (ops : List (Nat × RunOp plainTypes)) (s : AgentScheduler plainTypes),
      run plainCode (new none none false 7 1) ops = some s → NamesLive s := by
  intro h
  have hlive := (h [(1, .call (.spawn () .null)),
    (2, .call (.terminateProcess 7 .shutdown)), (1, .call (.registerName "a" 7))] _ rfl).live
      "a" 7 rfl
  exact absurd hlive (by decide)

end AgentScheduler

end Zeptobeam
