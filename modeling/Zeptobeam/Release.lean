/-
Releases: a plan of steps applied through a handler the caller supplies, and the
manager's record of the current release and the ones before it.  The handler works
on a state of its own, which it may change even when it answers an error.
-/
import Zeptobeam.Types
import Zeptobeam.Lib.Compensation
import Mathlib.Data.List.AList

namespace Zeptobeam

open Compensation

universe u

structure BehaviorUpgrade where
  name : String
  version : String
  upgradeFrom : String
  extra : Json
deriving DecidableEq

structure ReleaseManifest where
  schemaVersion : Nat
  version : String
  previous : Option String
  behaviors : List BehaviorUpgrade
  configChanges : AList fun _ : String => Json
deriving DecidableEq

inductive ReleaseStep where
  | upgradeBehavior (name «from» «to» : String) (extra : Json)
  | applyConfig (key : String) (oldValue newValue : Json)
deriving DecidableEq

structure ReleasePlan where
  steps : List ReleaseStep
deriving DecidableEq

/-- What executes the steps; `H` is the state of the implementation. -/
structure StepHandler (H : Type u) where
  applyStep : Compensation.Action H ReleaseStep AgentRtError
  rollbackStep : Compensation.Action H ReleaseStep AgentRtError

structure ReleaseManager where
  current : Option ReleaseManifest
  history : List ReleaseManifest
  maxHistory : Nat
deriving DecidableEq

namespace ReleaseManager

variable {H : Type u}

def new (maxHistory : Nat) : ReleaseManager := ⟨none, [], maxHistory⟩

def recordApply (manager : ReleaseManager) (manifest : ReleaseManifest) : ReleaseManager :=
  match manager.current with
  | none => { manager with current := some manifest }
  | some prev =>
      let history := manager.history ++ [prev]
      let history := if history.length > manager.maxHistory then history.tail else history
      { manager with current := some manifest, history }

/-- What `apply` does when a step fails: the completed steps are rolled back, the
last one first. -/
def rollbackCompleted (handler : StepHandler H) (completed : List ReleaseStep)
    (e : AgentRtError) (s : H) : Except AgentRtError Unit × H :=
  match runAll handler.rollbackStep completed.reverse s with
  | (.ok (), s) => (.error e, s)
  | (.error rbErr, s) =>
      (.error (.release
        s!"apply failed: {e.display}; rollback also failed: {rbErr.display}"), s)

/-- The loop of `apply` over the steps that are left. -/
def applySteps (handler : StepHandler H) :
    List ReleaseStep → List ReleaseStep → H → Except AgentRtError Unit × H
  | _, [], s => (.ok (), s)
  | completed, step :: rest, s =>
      match handler.applyStep step s with
      | (.ok (), s) => applySteps handler (completed ++ [step]) rest s
      | (.error e, s) => rollbackCompleted handler completed e s

def apply (manager : ReleaseManager) (manifest : ReleaseManifest) (plan : ReleasePlan)
    (handler : StepHandler H) (s : H) : Except AgentRtError Unit × ReleaseManager × H :=
  match applySteps handler [] plan.steps s with
  | (.ok (), s) => (.ok (), manager.recordApply manifest, s)
  | (.error e, s) => (.error e, manager, s)

def rollback (manager : ReleaseManager) (plan : ReleasePlan) (handler : StepHandler H)
    (s : H) : Except AgentRtError Unit × ReleaseManager × H :=
  if manager.current.isNone then
    (.error (.release "no current release to rollback"), manager, s)
  else
    match runAll handler.rollbackStep plan.steps.reverse s with
    | (.ok (), s) =>
        (.ok (), { manager with
          current := manager.history.getLast?, history := manager.history.dropLast }, s)
    | (.error e, s) => (.error e, manager, s)

/-! ## What one call does -/

variable {handler : StepHandler H} {manager manager' : ReleaseManager}
  {manifest : ReleaseManifest} {plan : ReleasePlan} {completed rest : List ReleaseStep}
  {e : AgentRtError} {s s' : H}

theorem applySteps_eq_ok_iff :
    applySteps handler completed rest s = (.ok (), s') ↔
      Performs handler.applyStep rest s s' := by
  induction rest generalizing completed s with
  | nil => rw [← runAll_eq_ok_iff]; rfl
  | cons step rest ih =>
      rw [performs_cons_iff, applySteps]
      rcases hstep : handler.applyStep step s with ⟨e | ⟨⟩, mid⟩
      · rcases hback : runAll handler.rollbackStep completed.reverse mid with ⟨_ | _, _⟩ <;>
          simp [rollbackCompleted, hback]
      · simp [ih]

/-- A failing loop has stopped at a step and rolled back what came before it. -/
theorem applySteps_eq_error (h : applySteps handler completed rest s = (.error e, s')) :
    ∃ done failed mid failure after, StopsAt handler.applyStep rest s done failed mid failure after ∧
      rollbackCompleted handler (completed ++ done) failure after = (.error e, s') := by
  induction rest generalizing completed s with
  | nil => cases h
  | cons step rest ih =>
      rw [applySteps] at h
      rcases hstep : handler.applyStep step s with ⟨failure | ⟨⟩, after⟩
      · rw [hstep] at h
        exact ⟨[], step, s, failure, after, ⟨by simp, .nil s, hstep⟩, by simpa using h⟩
      · rw [hstep] at h
        obtain ⟨done, failed, mid, failure, last, ⟨hfront, hdone, hfailed⟩, hback⟩ := ih h
        refine ⟨step :: done, failed, mid, failure, last,
          ⟨List.cons_prefix_cons.mpr ⟨rfl, hfront⟩, .cons hstep hdone, hfailed⟩, ?_⟩
        simpa using hback

theorem apply_eq_ok_iff :
    manager.apply manifest plan handler s = (.ok (), manager', s') ↔
      Performs handler.applyStep plan.steps s s' ∧
        manager' = manager.recordApply manifest := by
  have hperforms : applySteps handler [] plan.steps s = (.ok (), s') ↔
      Performs handler.applyStep plan.steps s s' := applySteps_eq_ok_iff
  rw [← hperforms, apply]
  rcases hsteps : applySteps handler [] plan.steps s with ⟨_ | ⟨⟩, after⟩
  · simp
  · simp [and_comm, eq_comm]

theorem apply_eq_error_iff :
    manager.apply manifest plan handler s = (.error e, manager', s') ↔
      applySteps handler [] plan.steps s = (.error e, s') ∧ manager' = manager := by
  rw [apply]
  rcases hsteps : applySteps handler [] plan.steps s with ⟨_ | ⟨⟩, after⟩
  · simp only [Prod.mk.injEq, Except.error.injEq]
    tauto
  · simp

theorem rollback_eq_ok_iff :
    manager.rollback plan handler s = (.ok (), manager', s') ↔
      manager.current.isSome ∧ Performs handler.rollbackStep plan.steps.reverse s s' ∧
        manager' = { manager with
          current := manager.history.getLast?, history := manager.history.dropLast } := by
  rw [← runAll_eq_ok_iff, rollback]
  rcases hback : runAll handler.rollbackStep plan.steps.reverse s with ⟨_ | ⟨⟩, after⟩ <;>
    cases manager.current <;> simp [and_comm, eq_comm]

theorem rollback_eq_error (h : manager.rollback plan handler s = (.error e, manager', s')) :
    manager' = manager ∧ (manager.current.isNone ∧ s' = s ∨
      manager.current.isSome ∧
        runAll handler.rollbackStep plan.steps.reverse s = (.error e, s')) := by
  rw [rollback] at h
  cases hcurrent : manager.current with
  | none =>
      simp only [hcurrent, Option.isNone_none, ↓reduceIte, Prod.mk.injEq] at h
      exact ⟨h.2.1.symm, .inl ⟨rfl, h.2.2.symm⟩⟩
  | some release =>
      simp only [hcurrent, Option.isNone_some, Bool.false_eq_true, ↓reduceIte] at h
      rcases hback : runAll handler.rollbackStep plan.steps.reverse s with ⟨failure | ⟨⟩, after⟩
      · simp only [hback, Prod.mk.injEq, Except.error.injEq] at h
        obtain ⟨rfl, rfl, rfl⟩ := h
        exact ⟨rfl, .inr ⟨rfl, rfl⟩⟩
      · simp [hback] at h

/-! ## Apply is transactional -/

/-- A failing `apply_step` changes nothing. -/
def FailsClean (act : Compensation.Action H ReleaseStep AgentRtError) : Prop :=
  ∀ step s e s', act step s = (.error e, s') → s' = s

/-- What `act` has performed, `undo` takes back. -/
def Reverts (act undo : Compensation.Action H ReleaseStep AgentRtError) : Prop :=
  ∀ step s s', act step s = (.ok (), s') → undo step s' = (.ok (), s)

/-- A handler that can take back its steps is led back to where `apply` found it, and
the error is that of the step that failed. -/
theorem applySteps_error_state (hfails : FailsClean handler.applyStep)
    (hreverts : Reverts handler.applyStep handler.rollbackStep)
    (h : applySteps handler [] rest s = (.error e, s')) : s' = s := by
  obtain ⟨done, failed, mid, failure, after, hstops, hback⟩ := applySteps_eq_error h
  have hafter : after = mid := hfails failed mid failure after hstops.fails
  have hundone : runAll handler.rollbackStep done.reverse mid = (.ok (), s) :=
    runAll_eq_ok_iff.mpr (hstops.performed.undone hreverts)
  rw [hafter, List.nil_append, rollbackCompleted, hundone] at hback
  exact (congrArg Prod.snd hback).symm

/-- The calls a handler gets. -/
inductive StepCall where
  | applied (step : ReleaseStep)
  | rolledBack (step : ReleaseStep)
deriving DecidableEq

/-- The handler, with a list of its calls beside its state. -/
def recorded (handler : StepHandler H) : StepHandler (H × List StepCall) where
  applyStep step s :=
    let (answer, after) := handler.applyStep step s.1
    (answer, after, s.2 ++ [.applied step])
  rollbackStep step s :=
    let (answer, after) := handler.rollbackStep step s.1
    (answer, after, s.2 ++ [.rolledBack step])

theorem performs_recorded {steps : List ReleaseStep}
    (h : Performs handler.applyStep steps s s') (calls : List StepCall) :
    Performs (recorded handler).applyStep steps (s, calls)
      (s', calls ++ steps.map .applied) := by
  induction h generalizing calls with
  | nil s => simpa using Performs.nil (s, calls)
  | @cons step steps s mid s' hstep _ ih =>
      have hfirst : (recorded handler).applyStep step (s, calls) =
          (.ok (), mid, calls ++ [.applied step]) := by
        simp [recorded, hstep]
      have hrest := ih (calls ++ [.applied step])
      rw [List.append_assoc] at hrest
      exact .cons hfirst hrest

theorem getLast?_history_recordApply {prev : ReleaseManifest}
    (hcurrent : manager.current = some prev) (hmax : 0 < manager.maxHistory) :
    (manager.recordApply manifest).history.getLast? = some prev := by
  simp only [recordApply, hcurrent]
  split
  · cases hhistory : manager.history with
    | nil =>
        rename_i hlong
        simp [hhistory] at hlong
        omega
    | cons first rest => simp
  · simp

@[simp]
theorem current_recordApply : (manager.recordApply manifest).current = some manifest := by
  unfold recordApply
  split <;> rfl

theorem apply_transactional (handler : StepHandler H) (hfails : FailsClean handler.applyStep)
    (hreverts : Reverts handler.applyStep handler.rollbackStep) (manager : ReleaseManager)
    (manifest : ReleaseManifest) (plan : ReleasePlan) (s : H) :
    (∀ e manager' s', manager.apply manifest plan handler s = (.error e, manager', s') →
      s' = s ∧ manager'.current = manager.current ∧ manager'.history = manager.history) ∧
    (∀ manager' s', manager.apply manifest plan handler s = (.ok (), manager', s') →
      Performs handler.applyStep plan.steps s s' ∧
      (∀ calls, manager.apply manifest plan (recorded handler) (s, calls) =
        (.ok (), manager', s', calls ++ plan.steps.map .applied)) ∧
      manager'.current = some manifest ∧
      (0 < manager.maxHistory → ∀ prev, manager.current = some prev →
        manager'.history.getLast? = some prev)) := by
  constructor
  · intro e manager' s' h
    obtain ⟨hsteps, rfl⟩ := apply_eq_error_iff.mp h
    exact ⟨applySteps_error_state hfails hreverts hsteps, rfl, rfl⟩
  · intro manager' s' h
    obtain ⟨hperforms, rfl⟩ := apply_eq_ok_iff.mp h
    refine ⟨hperforms, ?_, current_recordApply, ?_⟩
    · intro calls
      exact apply_eq_ok_iff.mpr ⟨performs_recorded hperforms calls, rfl⟩
    · intro hmax prev hcurrent
      exact getLast?_history_recordApply hcurrent hmax

/-- The steps in force are the state, and one kind of call is refused. -/
def stepsInForce (refused : StepCall) : StepHandler (List ReleaseStep) where
  applyStep step s :=
    if .applied step = refused then (.error (.release "behavior is busy"), s)
    else (.ok (), s ++ [step])
  rollbackStep step s :=
    if .rolledBack step = refused ∨ s.getLast? ≠ some step then
      (.error (.release "behavior is busy"), s)
    else (.ok (), s.dropLast)

theorem stepsInForce_failsClean (refused : StepCall) :
    FailsClean (stepsInForce refused).applyStep := by
  intro step s e s' h
  simp only [stepsInForce] at h
  split at h
  · exact (congrArg Prod.snd h).symm
  · simp at h

theorem stepsInForce_reverts (step : ReleaseStep) :
    Reverts (stepsInForce (.applied step)).applyStep
      (stepsInForce (.applied step)).rollbackStep := by
  intro done s s' h
  simp only [stepsInForce] at h
  split at h
  · simp at h
  · obtain rfl : s ++ [done] = s' := congrArg Prod.snd h
    simp [stepsInForce]

def upgradeWorker : ReleaseStep := .upgradeBehavior "worker" "1" "2" .null

def raiseLimit : ReleaseStep := .applyConfig "limit" (.ofNat 1) (.ofNat 2)

def manifestOf (version : String) : ReleaseManifest := ⟨1, version, none, [], ∅⟩

/-- The second of two steps fails, and the first one is rolled back. -/
theorem apply_transactional_busy :
    (apply (new 3) (manifestOf "2") ⟨[raiseLimit, upgradeWorker]⟩
        (stepsInForce (.applied upgradeWorker)) []).1 =
      .error (.release "behavior is busy") ∧
    (∀ e manager' s',
      apply (new 3) (manifestOf "2") ⟨[raiseLimit, upgradeWorker]⟩
        (stepsInForce (.applied upgradeWorker)) [] = (.error e, manager', s') →
      s' = [] ∧ manager'.current = (new 3).current ∧ manager'.history = (new 3).history) ∧
    (∀ manager' s',
      apply (new 3) (manifestOf "2") ⟨[raiseLimit, upgradeWorker]⟩
        (stepsInForce (.applied upgradeWorker)) [] = (.ok (), manager', s') →
      Performs (stepsInForce (.applied upgradeWorker)).applyStep
        [raiseLimit, upgradeWorker] [] s' ∧
      (∀ calls, apply (new 3) (manifestOf "2") ⟨[raiseLimit, upgradeWorker]⟩
        (recorded (stepsInForce (.applied upgradeWorker))) ([], calls) =
          (.ok (), manager', s', calls ++ [raiseLimit, upgradeWorker].map .applied)) ∧
      manager'.current = some (manifestOf "2") ∧
      (0 < (new 3).maxHistory → ∀ prev, (new 3).current = some prev →
        manager'.history.getLast? = some prev)) :=
  ⟨by decide, apply_transactional (stepsInForce (.applied upgradeWorker))
    (stepsInForce_failsClean (.applied upgradeWorker)) (stepsInForce_reverts upgradeWorker)
    (new 3) (manifestOf "2") ⟨[raiseLimit, upgradeWorker]⟩ []⟩

/-! ## Rollback stops midway -/

/-- A call of `rollback` that answers an error has changed nothing. -/
def RollbackAtomic (manager : ReleaseManager) (plan : ReleasePlan) (handler : StepHandler H)
    (s : H) : Prop :=
  ∀ e manager' s', manager.rollback plan handler s = (.error e, manager', s') →
    s' = s ∧ manager'.current = manager.current ∧ manager'.history = manager.history

/-- Going back through the plan, a step fails after the steps behind it were rolled
back, and these have changed the state. -/
def StuckMidway (plan : ReleasePlan) (handler : StepHandler H) (s : H) : Prop :=
  ∃ done failed mid e after,
    StopsAt handler.rollbackStep plan.steps.reverse s done failed mid e after ∧ mid ≠ s

theorem rollback_of_stopsAt {done : List ReleaseStep} {failed : ReleaseStep} {mid after : H}
    (hcurrent : manager.current ≠ none)
    (h : StopsAt handler.rollbackStep plan.steps.reverse s done failed mid e after) :
    manager.rollback plan handler s = (.error e, manager, after) := by
  have hback : runAll handler.rollbackStep plan.steps.reverse s = (.error e, after) :=
    runAll_eq_error_iff.mpr ⟨done, failed, mid, h⟩
  simp [rollback, hback, hcurrent]

/-- Unlike `apply`, `rollback` does not take back what it did before a step failed. -/
theorem rollbackAtomic_iff (handler : StepHandler H) (hfails : FailsClean handler.rollbackStep)
    (manager : ReleaseManager) (plan : ReleasePlan) (s : H) :
    manager.RollbackAtomic plan handler s ↔
      manager.current = none ∨ ¬ StuckMidway plan handler s := by
  constructor
  · intro hatomic
    by_cases hcurrent : manager.current = none
    · exact .inl hcurrent
    · refine .inr ?_
      rintro ⟨done, failed, mid, e, after, hstops, hmid⟩
      have hafter : after = mid := hfails failed mid e after hstops.fails
      have hstate := (hatomic e manager after (rollback_of_stopsAt hcurrent hstops)).1
      exact hmid (hafter.symm.trans hstate)
  · intro hcondition e manager' s' h
    obtain ⟨rfl, ⟨-, rfl⟩ | ⟨hsome, hback⟩⟩ := rollback_eq_error h
    · exact ⟨rfl, rfl, rfl⟩
    · obtain ⟨done, failed, mid, hstops⟩ := runAll_eq_error_iff.mp hback
      have hafter : s' = mid := hfails failed mid e s' hstops.fails
      rcases hcondition with hnone | hsafe
      · rw [hnone] at hsome
        cases hsome
      · refine ⟨?_, rfl, rfl⟩
        by_contra hne
        exact hsafe ⟨done, failed, mid, e, s', hstops, hafter ▸ hne⟩

theorem stepsInForce_rollback_failsClean (refused : StepCall) :
    FailsClean (stepsInForce refused).rollbackStep := by
  intro step s e s' h
  simp only [stepsInForce] at h
  split at h
  · exact (congrArg Prod.snd h).symm
  · simp at h

theorem stepsInForce_reapplies (step : ReleaseStep) :
    Reverts (stepsInForce (.rolledBack step)).rollbackStep
      (stepsInForce (.rolledBack step)).applyStep := by
  intro undone s s' h
  simp only [stepsInForce] at h
  split at h
  · simp at h
  · rename_i hallowed
    have hlast : s.getLast? = some undone := by
      by_contra hne
      exact hallowed (.inr hne)
    obtain rfl : s.dropLast = s' := congrArg Prod.snd h
    simp [stepsInForce, List.dropLast_append_getLast? _ hlast]

/-- A manager whose current release has an older one behind it. -/
def secondRelease : ReleaseManager := ⟨some (manifestOf "2"), [manifestOf "1"], 3⟩

theorem rollbackAtomic_iff_worker :
    FailsClean (stepsInForce (.rolledBack upgradeWorker)).rollbackStep ∧
    (secondRelease.RollbackAtomic ⟨[upgradeWorker, raiseLimit]⟩
        (stepsInForce (.rolledBack upgradeWorker)) [upgradeWorker, raiseLimit] ↔
      secondRelease.current = none ∨
        ¬ StuckMidway ⟨[upgradeWorker, raiseLimit]⟩
          (stepsInForce (.rolledBack upgradeWorker)) [upgradeWorker, raiseLimit]) :=
  ⟨stepsInForce_rollback_failsClean (.rolledBack upgradeWorker),
    rollbackAtomic_iff (stepsInForce (.rolledBack upgradeWorker))
      (stepsInForce_rollback_failsClean (.rolledBack upgradeWorker)) secondRelease
      ⟨[upgradeWorker, raiseLimit]⟩ [upgradeWorker, raiseLimit]⟩

/-- The second step is rolled back, the first one refuses, and the second one stays
rolled back under a current release that has it. -/
theorem rollback_not_atomic :
    ¬ ∀ (manager : ReleaseManager) (plan : ReleasePlan)
        (handler : StepHandler (List ReleaseStep)) (s : List ReleaseStep),
      FailsClean handler.rollbackStep → Reverts handler.rollbackStep handler.applyStep →
      manager.RollbackAtomic plan handler s := by
  intro h
  have hatomic := h secondRelease ⟨[upgradeWorker, raiseLimit]⟩
    (stepsInForce (.rolledBack upgradeWorker)) [upgradeWorker, raiseLimit]
    (stepsInForce_rollback_failsClean (.rolledBack upgradeWorker))
    (stepsInForce_reapplies upgradeWorker)
  have hstate := (hatomic (.release "behavior is busy") secondRelease [upgradeWorker] rfl).1
  exact absurd hstate (by decide)

/-! ## The history is bounded -/

/-- A call of one of the three methods that change the manager. -/
inductive ReleaseOp where
  | apply (manifest : ReleaseManifest) (plan : ReleasePlan)
  | rollback (plan : ReleasePlan)
  | recordApply (manifest : ReleaseManifest)

/-- The manager and the handler's state after the call, whatever it answers. -/
def step (handler : StepHandler H) (state : ReleaseManager × H) :
    ReleaseOp → ReleaseManager × H
  | .apply manifest plan => (state.1.apply manifest plan handler state.2).2
  | .rollback plan => (state.1.rollback plan handler state.2).2
  | .recordApply manifest => (state.1.recordApply manifest, state.2)

/-- The manager after a step is the old one, the one `record_apply` gives, or the one
whose current release was rolled back. -/
theorem step_cases (handler : StepHandler H) (manager : ReleaseManager) (s : H)
    (op : ReleaseOp) :
    (step handler (manager, s) op).1 = manager ∨
    (∃ manifest, (step handler (manager, s) op).1 = manager.recordApply manifest) ∨
    (step handler (manager, s) op).1 = { manager with
      current := manager.history.getLast?, history := manager.history.dropLast } := by
  cases op with
  | apply manifest plan =>
      rcases happly : manager.apply manifest plan handler s with ⟨_ | ⟨⟩, manager', s'⟩
      · obtain ⟨-, rfl⟩ := apply_eq_error_iff.mp happly
        exact .inl (by simp [step, happly])
      · obtain ⟨-, rfl⟩ := apply_eq_ok_iff.mp happly
        exact .inr (.inl ⟨manifest, by simp [step, happly]⟩)
  | rollback plan =>
      rcases hrollback : manager.rollback plan handler s with ⟨_ | ⟨⟩, manager', s'⟩
      · obtain ⟨rfl, -⟩ := rollback_eq_error hrollback
        exact .inl (by simp [step, hrollback])
      · obtain ⟨-, -, rfl⟩ := rollback_eq_ok_iff.mp hrollback
        exact .inr (.inr (by simp [step, hrollback]))
  | recordApply manifest => exact .inr (.inl ⟨manifest, rfl⟩)

@[simp]
theorem maxHistory_recordApply :
    (manager.recordApply manifest).maxHistory = manager.maxHistory := by
  unfold recordApply
  split <;> rfl

theorem length_history_recordApply (h : manager.history.length ≤ manager.maxHistory) :
    (manager.recordApply manifest).history.length ≤ manager.maxHistory := by
  unfold recordApply
  split
  · exact h
  · simp only [List.length_append, List.length_singleton]
    split
    · simp only [List.length_tail, List.length_append, List.length_singleton]
      omega
    · simp only [List.length_append, List.length_singleton]
      omega

/-- The history is within its bound, and empty before the first release. -/
structure Tracked (maxHistory : Nat) (manager : ReleaseManager) : Prop where
  maxHistory_eq : manager.maxHistory = maxHistory
  bounded : manager.history.length ≤ maxHistory
  unreleased : manager.current = none → manager.history = []

theorem Tracked.step {maxHistory : Nat} (h : manager.Tracked maxHistory) (op : ReleaseOp) :
    (step handler (manager, s) op).1.Tracked maxHistory := by
  obtain ⟨rfl, hbounded, hunreleased⟩ := h
  rcases step_cases handler manager s op with
    hsame | ⟨manifest, hrecorded⟩ | hback
  · rw [hsame]
    exact ⟨rfl, hbounded, hunreleased⟩
  · rw [hrecorded]
    exact ⟨maxHistory_recordApply, length_history_recordApply hbounded, by simp⟩
  · rw [hback]
    refine ⟨rfl, ?_, ?_⟩
    · simp only [List.length_dropLast]
      omega
    · intro hnone
      simp [List.getLast?_eq_none_iff.mp hnone]

theorem Tracked.run {maxHistory : Nat} (h : manager.Tracked maxHistory)
    (ops : List ReleaseOp) :
    (ops.foldl (ReleaseManager.step handler) (manager, s)).1.Tracked maxHistory := by
  induction ops generalizing manager s with
  | nil => exact h
  | cons op ops ih => exact ih (h.step op)

theorem new_tracked (maxHistory : Nat) : (new maxHistory).Tracked maxHistory :=
  ⟨rfl, Nat.zero_le _, fun _ => rfl⟩

/-- What `record_apply` keeps of the history and the release it replaces. -/
theorem history_recordApply {prev : ReleaseManifest} (hcurrent : manager.current = some prev) :
    (manager.recordApply manifest).history =
      if manager.history.length < manager.maxHistory then manager.history ++ [prev]
      else (manager.history ++ [prev]).tail := by
  by_cases hroom : manager.history.length < manager.maxHistory
  · have hfits : ¬ manager.history.length + 1 > manager.maxHistory := by omega
    simp [recordApply, hcurrent, hroom, hfits]
  · have hlong : manager.history.length + 1 > manager.maxHistory := by omega
    simp [recordApply, hcurrent, hroom, hlong]

/-- A rollback right behind an apply gives back what the bound has left in the history,
and no run takes the history over its bound. -/
theorem rollback_apply (handler : StepHandler H) :
    (∀ (manager applied manager' : ReleaseManager) (manifest : ReleaseManifest)
        (plan plan' : ReleasePlan) (s s' t t' : H),
      manager.apply manifest plan handler s = (.ok (), applied, s') →
      applied.rollback plan' handler t = (.ok (), manager', t') →
      (∀ prev, manager.current = some prev → manager.history.length < manager.maxHistory →
        manager'.current = some prev ∧ manager'.history = manager.history) ∧
      (∀ prev, manager.current = some prev → manager.maxHistory ≤ manager.history.length →
        manager.history ≠ [] →
        manager'.current = some prev ∧ manager'.history = manager.history.tail) ∧
      (∀ prev, manager.current = some prev → manager.maxHistory = 0 → manager.history = [] →
        manager'.current = none ∧ manager'.history = []) ∧
      (manager.current = none →
        manager'.current = manager.history.getLast? ∧
        manager'.history = manager.history.dropLast)) ∧
    ∀ (maxHistory : Nat) (s : H) (ops : List ReleaseOp),
      (ops.foldl (step handler) (new maxHistory, s)).1.Tracked maxHistory := by
  constructor
  · intro manager applied manager' manifest plan plan' s s' t t' happly hrollback
    obtain ⟨-, rfl⟩ := apply_eq_ok_iff.mp happly
    obtain ⟨-, -, rfl⟩ := rollback_eq_ok_iff.mp hrollback
    refine ⟨?_, ?_, ?_, ?_⟩
    · intro prev hcurrent hroom
      simp [history_recordApply hcurrent, hroom]
    · intro prev hcurrent hfull hhistory
      obtain ⟨oldest, rest, hcons⟩ := List.exists_cons_of_ne_nil hhistory
      rw [history_recordApply hcurrent, if_neg (Nat.not_lt.mpr hfull), hcons]
      simp
    · intro prev hcurrent hmax hhistory
      simp [history_recordApply hcurrent, hmax, hhistory]
    · intro hcurrent
      simp [recordApply, hcurrent]
  · intro maxHistory s ops
    exact (new_tracked maxHistory).run ops

/-- Whatever the step, it can be rolled back once. -/
def oneRollback : StepHandler Bool where
  applyStep _ s := if s then (.error (.release "already in force"), true) else (.ok (), true)
  rollbackStep _ s := if s then (.ok (), false) else (.error (.release "not in force"), false)

/-- The third release and its rollback, with room for one release in the history. -/
theorem rollback_apply_full :
    (apply ⟨some (manifestOf "2"), [manifestOf "1"], 1⟩ (manifestOf "3") ⟨[raiseLimit]⟩
        oneRollback false = (.ok (), ⟨some (manifestOf "3"), [manifestOf "2"], 1⟩, true) ∧
      rollback ⟨some (manifestOf "3"), [manifestOf "2"], 1⟩ ⟨[raiseLimit]⟩ oneRollback true =
        (.ok (), ⟨some (manifestOf "2"), [], 1⟩, false)) ∧
    (⟨some (manifestOf "2"), [], 1⟩ : ReleaseManager).current = some (manifestOf "2") ∧
      (⟨some (manifestOf "2"), [], 1⟩ : ReleaseManager).history = [manifestOf "1"].tail :=
  ⟨⟨rfl, rfl⟩, ((rollback_apply oneRollback).1 ⟨some (manifestOf "2"), [manifestOf "1"], 1⟩
    ⟨some (manifestOf "3"), [manifestOf "2"], 1⟩ ⟨some (manifestOf "2"), [], 1⟩
    (manifestOf "3") ⟨[raiseLimit]⟩ ⟨[raiseLimit]⟩ false true true false rfl rfl).2.1
    (manifestOf "2") rfl (by decide) (by decide)⟩

/-- At the bound the oldest release is gone, and at a bound of zero the previous one. -/
theorem rollback_apply_forgets :
    (∃ (manager applied manager' : ReleaseManager) (t : Bool),
      manager.apply (manifestOf "3") ⟨[raiseLimit]⟩ oneRollback false = (.ok (), applied, t) ∧
      applied.rollback ⟨[raiseLimit]⟩ oneRollback t = (.ok (), manager', false) ∧
      manager.history.length ≤ manager.maxHistory ∧ manager'.history ≠ manager.history) ∧
    (∃ (manager applied manager' : ReleaseManager) (t : Bool),
      manager.apply (manifestOf "3") ⟨[raiseLimit]⟩ oneRollback false = (.ok (), applied, t) ∧
      applied.rollback ⟨[raiseLimit]⟩ oneRollback t = (.ok (), manager', false) ∧
      manager.history.length ≤ manager.maxHistory ∧ manager'.current ≠ manager.current) := by
  refine ⟨⟨⟨some (manifestOf "2"), [manifestOf "1"], 1⟩,
      ⟨some (manifestOf "3"), [manifestOf "2"], 1⟩, ⟨some (manifestOf "2"), [], 1⟩, true,
      rfl, rfl, by decide, by decide⟩,
    ⟨⟨some (manifestOf "2"), [], 0⟩, ⟨some (manifestOf "3"), [], 0⟩, ⟨none, [], 0⟩, true,
      rfl, rfl, by decide, by decide⟩⟩

end ReleaseManager

end Zeptobeam
