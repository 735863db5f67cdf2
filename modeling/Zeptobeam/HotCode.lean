/-
Hot code: the versions of each behaviour, the version every tracked process is on, and the
versions it was on before.  Factories are values of any type.
-/
import Zeptobeam.Types
import Mathlib.Data.List.AList

namespace Zeptobeam

universe u

structure BehaviorVersion (F : Type u) where
  name : String
  version : String
  factory : F

structure HotCodeRegistry (F : Type u) where
  behaviors : AList fun _ : String => List (BehaviorVersion F)
  processVersions : AList fun _ : AgentPid => String × String
  versionHistory : AList fun _ : AgentPid => List String

namespace HotCodeRegistry

variable {F : Type u}

def new : HotCodeRegistry F := ⟨∅, ∅, ∅⟩

def register (registry : HotCodeRegistry F) (name version : String) (factory : F) :
    HotCodeRegistry F :=
  let versions := (registry.behaviors.lookup name).getD []
  { registry with
    behaviors := registry.behaviors.insert name (versions ++ [⟨name, version, factory⟩]) }

def getFactory (registry : HotCodeRegistry F) (name version : String) :
    Except AgentRtError F :=
  match registry.behaviors.lookup name with
  | none => .error (.hotCode s!"behavior '{name}' not found")
  | some versions =>
      match versions.find? fun entry => entry.version == version with
      | none => .error (.hotCode s!"version '{version}' of '{name}' not found")
      | some entry => .ok entry.factory

def setProcessVersion (registry : HotCodeRegistry F) (pid : AgentPid) (name version : String) :
    HotCodeRegistry F :=
  { registry with processVersions := registry.processVersions.insert pid (name, version) }

def currentVersion (registry : HotCodeRegistry F) (pid : AgentPid) : Option (String × String) :=
  registry.processVersions.lookup pid

def prepareUpgrade (registry : HotCodeRegistry F) (pid : AgentPid) (targetVersion : String) :
    Except AgentRtError (String × F) :=
  match registry.processVersions.lookup pid with
  | none => .error (.hotCode "process not tracked")
  | some (name, currentVsn) => do
      let factory ← registry.getFactory name targetVersion
      return (currentVsn, factory)

def pushVersionHistory (registry : HotCodeRegistry F) (pid : AgentPid) (version : String) :
    HotCodeRegistry F :=
  let history := (registry.versionHistory.lookup pid).getD []
  { registry with versionHistory := registry.versionHistory.insert pid (history ++ [version]) }

def prepareRollback (registry : HotCodeRegistry F) (pid : AgentPid) :
    Except AgentRtError (String × F) :=
  match registry.processVersions.lookup pid with
  | none => .error (.hotCode "process not tracked")
  | some (name, _) =>
      match registry.versionHistory.lookup pid with
      | none => .error (.hotCode "no version history")
      | some history =>
          match history.getLast? with
          | none => .error (.hotCode "no previous version")
          | some prevVsn => do
              let factory ← registry.getFactory name prevVsn
              return (prevVsn, factory)

/-! ## Upgrades and rollbacks -/

/-- The old version is put on the history, and the process is set to the new one. -/
def upgrade (registry : HotCodeRegistry F) (pid : AgentPid) (name target : String) :
    Except AgentRtError (HotCodeRegistry F) := do
  let (oldVsn, _) ← registry.prepareUpgrade pid target
  return (registry.pushVersionHistory pid oldVsn).setProcessVersion pid name target

def upgrades (pid : AgentPid) (name : String) :
    List String → HotCodeRegistry F → Except AgentRtError (HotCodeRegistry F)
  | [], registry => .ok registry
  | target :: targets, registry => do
      upgrades pid name targets (← registry.upgrade pid name target)

/-- The process is set to the version that `prepare_rollback` gives. -/
def rollback (registry : HotCodeRegistry F) (pid : AgentPid) (name : String) :
    Except AgentRtError (String × HotCodeRegistry F) := do
  let (prevVsn, _) ← registry.prepareRollback pid
  return (prevVsn, registry.setProcessVersion pid name prevVsn)

/-- A number of rollbacks, with the versions they visit. -/
def rollbacks (pid : AgentPid) (name : String) :
    Nat → HotCodeRegistry F → Except AgentRtError (List String × HotCodeRegistry F)
  | 0, registry => .ok ([], registry)
  | n + 1, registry => do
      let (prevVsn, registry) ← registry.rollback pid name
      let (visited, registry) ← rollbacks pid name n registry
      return (prevVsn :: visited, registry)

/-- The version that the process was on last, as the history has it. -/
def lastVersion (registry : HotCodeRegistry F) (pid : AgentPid) : Option String :=
  (registry.versionHistory.lookup pid).bind List.getLast?

/-- As many rollbacks as there were upgrades visit the earlier versions in reverse order, end
at the first one, and leave nothing to roll back. -/
def Undone (registry : HotCodeRegistry F) (pid : AgentPid) (name first : String)
    (targets : List String) : Prop :=
  ∃ upgraded visited last, upgrades pid name targets registry = .ok upgraded ∧
    rollbacks pid name targets.length upgraded = .ok (visited, last) ∧
    visited = (first :: targets).dropLast.reverse ∧
    last.currentVersion pid = some (name, first) ∧
    ∃ error, last.prepareRollback pid = .error error

/-! ## What the calls leave -/

variable {registry : HotCodeRegistry F} {pid : AgentPid} {name version first target : String}
  {targets : List String}

@[simp]
theorem currentVersion_setProcessVersion :
    (registry.setProcessVersion pid name version).currentVersion pid = some (name, version) :=
  AList.lookup_insert _

theorem upgrade_eq_ok (htracked : registry.currentVersion pid = some (name, first))
    (hregistered : ∃ factory, registry.getFactory name target = .ok factory) :
    registry.upgrade pid name target =
      .ok ((registry.pushVersionHistory pid first).setProcessVersion pid name target) := by
  obtain ⟨factory, hfactory⟩ := hregistered
  unfold currentVersion at htracked
  simp [upgrade, prepareUpgrade, htracked, hfactory, bind, Except.bind, pure, Except.pure]

/-- Upgrades to registered versions succeed, and keep the process tracked. -/
theorem upgrades_eq_ok (htracked : registry.currentVersion pid = some (name, first))
    (hregistered : ∀ target ∈ targets, ∃ factory, registry.getFactory name target = .ok factory) :
    ∃ upgraded, upgrades pid name targets registry = .ok upgraded ∧
      ∃ current, upgraded.currentVersion pid = some (name, current) := by
  induction targets generalizing registry first with
  | nil => exact ⟨registry, rfl, first, htracked⟩
  | cons target rest ih =>
      have hstep := upgrade_eq_ok htracked (hregistered target List.mem_cons_self)
      have hset : ((registry.pushVersionHistory pid first).setProcessVersion pid name
          target).currentVersion pid = some (name, target) := currentVersion_setProcessVersion
      obtain ⟨upgraded, hrest, hcurrent⟩ := ih hset
        fun other hother => hregistered other (List.mem_cons_of_mem target hother)
      refine ⟨upgraded, ?_, hcurrent⟩
      rw [upgrades, hstep]
      exact hrest

/-! ## Rollbacks stay where they are -/

/-- The version a process is on does not matter, only the behaviour does. -/
theorem prepareRollback_setProcessVersion
    (htracked : registry.currentVersion pid = some (name, first)) :
    (registry.setProcessVersion pid name version).prepareRollback pid =
      registry.prepareRollback pid := by
  have hset : (registry.setProcessVersion pid name version).currentVersion pid =
      some (name, version) := currentVersion_setProcessVersion
  unfold currentVersion at htracked hset
  unfold prepareRollback
  rw [htracked, hset]
  rfl

theorem rollback_eq_ok {prevVsn : String} {factory : F}
    (h : registry.prepareRollback pid = .ok (prevVsn, factory)) :
    registry.rollback pid name =
      .ok (prevVsn, registry.setProcessVersion pid name prevVsn) := by
  rw [rollback, h]
  rfl

theorem rollback_eq_error {error : AgentRtError}
    (h : registry.prepareRollback pid = .error error) :
    registry.rollback pid name = .error error := by
  rw [rollback, h]
  rfl

/-- The history is not popped: all rollbacks visit one version, and there is always another. -/
theorem rollbacks_visit {prevVsn : String} {factory : F} (n : Nat)
    (htracked : registry.currentVersion pid = some (name, first))
    (h : registry.prepareRollback pid = .ok (prevVsn, factory)) :
    ∃ last, rollbacks pid name n registry = .ok (List.replicate n prevVsn, last) ∧
      last.prepareRollback pid = .ok (prevVsn, factory) := by
  induction n generalizing registry first with
  | zero => exact ⟨registry, rfl, h⟩
  | succ n ih =>
      have hagain : (registry.setProcessVersion pid name prevVsn).prepareRollback pid =
          .ok (prevVsn, factory) := by
        rw [prepareRollback_setProcessVersion htracked, h]
      obtain ⟨last, hrest, hlast⟩ := ih currentVersion_setProcessVersion hagain
      refine ⟨last, ?_, hlast⟩
      rw [rollbacks, rollback_eq_ok h]
      simp only [bind, Except.bind]
      rw [hrest]
      rfl

theorem eq_nil_of_undone (htracked : registry.currentVersion pid = some (name, first))
    (hregistered : ∀ target ∈ targets, ∃ factory, registry.getFactory name target = .ok factory)
    (h : registry.Undone pid name first targets) : targets = [] := by
  obtain ⟨upgraded, visited, last, hup, hdown, -, -, error, herror⟩ := h
  obtain ⟨other, hother, current, hcurrent⟩ := upgrades_eq_ok htracked hregistered
  obtain rfl : other = upgraded := Except.ok.inj (hother.symm.trans hup)
  cases hprev : other.prepareRollback pid with
  | ok prev =>
      obtain ⟨final, hfinal, hmore⟩ := rollbacks_visit targets.length hcurrent hprev
      obtain ⟨-, rfl⟩ := Prod.mk.inj (Except.ok.inj (hfinal.symm.trans hdown))
      rw [hmore] at herror
      contradiction
  | error stop =>
      cases targets with
      | nil => rfl
      | cons target rest =>
          rw [List.length_cons, rollbacks, rollback_eq_error hprev] at hdown
          contradiction

theorem prepareRollback_fails_iff (htracked : registry.currentVersion pid = some (name, first)) :
    (∃ error, registry.prepareRollback pid = .error error) ↔
      ∀ prevVsn ∈ registry.lastVersion pid, ∀ factory,
        registry.getFactory name prevVsn ≠ .ok factory := by
  unfold currentVersion at htracked
  unfold prepareRollback lastVersion
  simp only [htracked]
  cases registry.versionHistory.lookup pid with
  | none => simp
  | some history =>
      cases hlast : history.getLast? with
      | none => simp [hlast]
      | some prevVsn =>
          cases hfactory : registry.getFactory name prevVsn with
          | error stop => simp [hlast, hfactory, bind, Except.bind]
          | ok factory => simp [hlast, hfactory, bind, Except.bind, pure, Except.pure]

/-- Rollbacks undo the upgrades of a process only if there were none, and if it was on no other
version before. -/
theorem undone_iff (htracked : registry.currentVersion pid = some (name, first))
    (hregistered : ∀ target ∈ targets, ∃ factory, registry.getFactory name target = .ok factory) :
    registry.Undone pid name first targets ↔
      targets = [] ∧ ∀ prevVsn ∈ registry.lastVersion pid, ∀ factory,
        registry.getFactory name prevVsn ≠ .ok factory := by
  rw [← prepareRollback_fails_iff htracked]
  constructor
  · intro h
    obtain rfl := eq_nil_of_undone htracked hregistered h
    obtain ⟨upgraded, visited, last, hup, hdown, -, -, hfails⟩ := h
    obtain rfl : registry = upgraded := Except.ok.inj hup
    obtain ⟨-, rfl⟩ := Prod.mk.inj (Except.ok.inj hdown)
    exact ⟨rfl, hfails⟩
  · rintro ⟨rfl, hfails⟩
    exact ⟨registry, [], registry, rfl, rfl, rfl, htracked, hfails⟩

/-- Three versions of one behaviour, and a process on the first one. -/
def threeVersions : HotCodeRegistry Nat :=
  ((((new.register "echo" "v1" 1).register "echo" "v2" 2).register "echo" "v3" 3)).setProcessVersion
    firstAgentPid "echo" "v1"

theorem undone_iff_two :
    threeVersions.Undone firstAgentPid "echo" "v1" ["v2", "v3"] ↔
      ["v2", "v3"] = [] ∧ ∀ prevVsn ∈ threeVersions.lastVersion firstAgentPid, ∀ factory,
        threeVersions.getFactory "echo" prevVsn ≠ .ok factory := by
  refine undone_iff rfl ?_
  intro target htarget
  rcases List.mem_pair.mp htarget with rfl | rfl
  · exact ⟨2, rfl⟩
  · exact ⟨3, rfl⟩

/-- After an upgrade and a rollback there is still the version that the rollback went to. -/
theorem not_undone_once :
    ¬ threeVersions.Undone firstAgentPid "echo" "v1" ["v2"] ∧
      (do let upgraded ← threeVersions.upgrade firstAgentPid "echo" "v2"
          let (prevVsn, last) ← upgraded.rollback firstAgentPid "echo"
          return (prevVsn, last.currentVersion firstAgentPid,
            ← last.prepareRollback firstAgentPid)) =
        .ok ("v1", some ("echo", "v1"), "v1", 1) := by
  constructor
  · intro h
    have hnone := eq_nil_of_undone rfl (fun target htarget => ⟨2, ?_⟩) h
    · contradiction
    · rw [List.mem_singleton.mp htarget]
      rfl
  · rfl

end HotCodeRegistry

end Zeptobeam
