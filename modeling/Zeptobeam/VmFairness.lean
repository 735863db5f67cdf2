/-
Low processes beside Normal ones.  The advantage that Normal processes have is counted where
all queues are found empty and not where one of them is picked, so that a Low process waits for
as long as Normal ones do, until there were eight such rounds, and from then on goes first.
-/
import Zeptobeam.Lib.StateExcept
import Zeptobeam.VmScheduler
import Mathlib.Data.List.Chain

namespace Zeptobeam

namespace Emulator

namespace Scheduler

/-- A pick takes its process from the queue. -/
def TakesFrom (s : Scheduler) (prio : Prio) : Prop :=
  (s.pickFromTheQueues.queueOf prio).length < (s.queueOf prio).length

instance (s : Scheduler) (prio : Prio) : Decidable (s.TakesFrom prio) :=
  inferInstanceAs (Decidable (_ < _))

structure BothWait (s : Scheduler) : Prop where
  normal : s.queueNormal ≠ []
  low : s.queueLow ≠ []

instance (s : Scheduler) : Decidable s.BothWait :=
  decidable_of_iff (s.queueNormal ≠ [] ∧ s.queueLow ≠ [])
    ⟨fun h => ⟨h.1, h.2⟩, fun h => ⟨h.1, h.2⟩⟩

section Pick

variable {s : Scheduler}

theorem high_of_takesFrom_normal (h : s.TakesFrom .normal) : s.queueHigh = [] := by
  cases hhigh : s.queueHigh with
  | nil => rfl
  | cons pid rest =>
      rw [TakesFrom, pickFromTheQueues, hhigh] at h
      exact absurd h (Nat.lt_irrefl _)

/-- Below the advantage a Normal process goes before a Low one. -/
theorem takesFrom_normal (hwait : s.BothWait) (hhigh : s.queueHigh = [])
    (hcount : s.advantageCount < normalAdvantage) : s.TakesFrom .normal := by
  obtain ⟨pid, rest, hnormal⟩ := List.exists_cons_of_ne_nil hwait.normal
  rw [TakesFrom, pickFromTheQueues, hhigh]
  simp only [if_pos hcount, hnormal, queueOf, List.length_cons]
  omega

theorem not_takesFrom_low (hwait : s.BothWait) (hcount : s.advantageCount < normalAdvantage) :
    ¬ s.TakesFrom .low := by
  obtain ⟨pid, rest, hnormal⟩ := List.exists_cons_of_ne_nil hwait.normal
  rw [TakesFrom, pickFromTheQueues]
  cases hhigh : s.queueHigh with
  | nil =>
      simp only [if_pos hcount, hnormal, queueOf]
      exact Nat.lt_irrefl _
  | cons pid rest => exact Nat.lt_irrefl _

/-- From the advantage on a Low process goes before a Normal one. -/
theorem not_takesFrom_normal (hwait : s.BothWait) (hcount : normalAdvantage ≤ s.advantageCount) :
    ¬ s.TakesFrom .normal := by
  obtain ⟨pid, rest, hlow⟩ := List.exists_cons_of_ne_nil hwait.low
  intro htakes
  have hhigh := high_of_takesFrom_normal htakes
  rw [TakesFrom, pickFromTheQueues, hhigh] at htakes
  simp only [if_neg (Nat.not_lt.mpr hcount), hlow, queueOf] at htakes
  exact absurd htakes (Nat.lt_irrefl _)

/-- A pick that finds a process does not count. -/
theorem advantageCount_pickFromTheQueues (hwait : s.BothWait) :
    s.pickFromTheQueues.advantageCount = s.advantageCount := by
  obtain ⟨pid, rest, hnormal⟩ := List.exists_cons_of_ne_nil hwait.normal
  obtain ⟨low, lows, hlow⟩ := List.exists_cons_of_ne_nil hwait.low
  rw [pickFromTheQueues, hnormal, hlow]
  split
  · rfl
  · split <;> rfl

end Pick

end Scheduler

namespace VM

open Scheduler StateExcept

variable {M : Type}

/-- The scheduler that looks through its queues in a step. -/
def pickedFrom (vm : VM M) : VmOp M → Option Scheduler
  | .nextProcess =>
      if vm.inSlice then none
      else
        match vm.scheduler.current with
        | none => some vm.scheduler
        | some prevPid =>
            match vm.nextProcessFinalizePrevious prevPid with
            | .ok (.takeAnotherProcess, after) => some after.scheduler
            | _ => none
  | _ => none

/-- What the picks of a run find, as far as it gets. -/
def picks : VM M → List (VmOp M) → List Scheduler
  | _, [] => []
  | vm, op :: ops =>
      (vm.pickedFrom op).toList ++
        match vm.step op with
        | .ok after => picks after ops
        | .error _ => []

/-- With Normal and Low processes waiting, a Low one is picked after eight Normal ones at
most. -/
def LowServed (vm : VM M) (ops : List (VmOp M)) : Prop :=
  ∀ window, window <:+: vm.picks ops → (∀ s ∈ window, s.BothWait) →
    normalAdvantage < window.countP (fun s => s.TakesFrom .normal) →
    ∃ s ∈ window, s.TakesFrom .low

/-- Where more than eight picks find no High process, with Normal and Low ones waiting, the
queues were found empty eight times before. -/
def AdvantageUsedUp (vm : VM M) (ops : List (VmOp M)) : Prop :=
  ∀ window, window <:+: vm.picks ops → (∀ s ∈ window, s.BothWait) →
    normalAdvantage < window.countP (fun s => s.queueHigh = []) →
    ∀ s ∈ window, normalAdvantage ≤ s.advantageCount

section Count

variable {vm vm' : VM M} {pid : Nat}

theorem enqueueOpt_count {skip : Bool} (hok : vm.enqueueOpt pid skip = .ok vm') :
    vm'.scheduler.advantageCount = vm.scheduler.advantageCount := by
  unfold enqueueOpt at hok
  split at hok
  · cases hok
  next p _ =>
    split at hok
    · cases hok
    · cases hok
      cases hprio : p.prio <;> rfl

theorem terminateProcess_count (hok : vm.terminateProcess pid = .ok vm') :
    vm'.scheduler.advantageCount = vm.scheduler.advantageCount := by
  unfold terminateProcess at hok
  split at hok
  · cases hok
  split at hok
  · cases hok
  split at hok
  · cases hok
  · cases hok
    rfl

theorem changeCurrent_count {change : Process M → Option (Process M)}
    (hok : vm.changeCurrent change = .ok vm') :
    vm'.scheduler.advantageCount = vm.scheduler.advantageCount := by
  unfold changeCurrent at hok
  split at hok
  · cases hok
  split at hok
  · cases hok
  split at hok
  · cases hok
  · cases hok
    rfl

theorem notifyNewIncomingMessage_count {p : Process M}
    (hok : vm.notifyNewIncomingMessage pid p = .ok vm') :
    vm'.scheduler.advantageCount = vm.scheduler.advantageCount := by
  unfold notifyNewIncomingMessage at hok
  split at hok
  · have hcount := enqueueOpt_count hok
    exact hcount
  · have hcount := enqueueOpt_count hok
    exact hcount
  · cases hok
    rfl

theorem handleProcessException_count {hint : ScheduleHint} {p : Process M}
    (hok : vm.handleProcessException pid p = .ok (hint, vm')) :
    vm'.scheduler.advantageCount = vm.scheduler.advantageCount := by
  unfold handleProcessException at hok
  split at hok
  · cases hok
  split at hok
  · obtain ⟨ended, hended, hok⟩ := except_bind_eq_ok_iff.mp hok
    obtain ⟨-, rfl⟩ := Prod.mk.inj (Except.ok.inj hok)
    have hcount := terminateProcess_count hended
    exact hcount
  split at hok
  · obtain ⟨-, rfl⟩ := Prod.mk.inj (Except.ok.inj hok)
    rfl
  split at hok
  · cases hok
  · obtain ⟨ended, hended, hok⟩ := except_bind_eq_ok_iff.mp hok
    obtain ⟨-, rfl⟩ := Prod.mk.inj (Except.ok.inj hok)
    have hcount := terminateProcess_count hended
    exact hcount

theorem finalizePrevious_count {hint : ScheduleHint}
    (hok : vm.nextProcessFinalizePrevious pid = .ok (hint, vm')) :
    vm'.scheduler.advantageCount = vm.scheduler.advantageCount := by
  unfold nextProcessFinalizePrevious at hok
  split at hok
  · cases hok
  next p _ =>
    split at hok
    · cases hok
    cases hresult : p.timesliceResult with
    | none | yield =>
        rw [hresult] at hok
        obtain ⟨queued, hqueued, hok⟩ := except_bind_eq_ok_iff.mp hok
        obtain ⟨-, rfl⟩ := Prod.mk.inj (Except.ok.inj hok)
        have hcount := enqueueOpt_count hqueued
        exact hcount
    | finished =>
        rw [hresult] at hok
        obtain ⟨ended, hended, hok⟩ := except_bind_eq_ok_iff.mp hok
        obtain ⟨-, rfl⟩ := Prod.mk.inj (Except.ok.inj hok)
        exact terminateProcess_count hended
    | exception =>
        rw [hresult] at hok
        exact handleProcessException_count hok
    | infiniteWait =>
        simp only [hresult] at hok
        split at hok <;> obtain ⟨-, rfl⟩ := Prod.mk.inj (Except.ok.inj hok)
        · rfl
        · rfl

/-- A step that looks through the queues does nothing to them after that, and nothing to the
advantage before. -/
theorem step_of_pickedFrom {op : VmOp M} {s : Scheduler} (hpick : vm.pickedFrom op = some s) :
    s.advantageCount = vm.scheduler.advantageCount ∧
      ∃ vm', vm.step op = .ok vm' ∧ vm'.scheduler = s.pickFromTheQueues := by
  cases op with
  | nextProcess =>
      simp only [pickedFrom, step, nextProcess] at hpick ⊢
      split at hpick
      · cases hpick
      next hslice =>
        rw [if_neg hslice]
        cases hcurrent : vm.scheduler.current with
        | none =>
            rw [hcurrent] at hpick
            cases hpick
            exact ⟨rfl, _, rfl, rfl⟩
        | some prevPid =>
            rw [hcurrent] at hpick
            dsimp only at hpick
            split at hpick
            next after hfinal =>
              cases hpick
              exact ⟨finalizePrevious_count hfinal, after.pick,
                except_bind_eq_ok_iff.mpr ⟨_, hfinal, rfl⟩, rfl⟩
            next => cases hpick
  | _ => cases hpick

theorem step_of_not_pickedFrom {op : VmOp M} (hpick : vm.pickedFrom op = none)
    (hok : vm.step op = .ok vm') :
    vm'.scheduler.advantageCount = vm.scheduler.advantageCount := by
  cases op with
  | spawn prio trapExit =>
      have hcount := enqueueOpt_count hok
      exact hcount
  | spawnFailed =>
      cases hok
      rfl
  | send pid message =>
      simp only [step] at hok
      split at hok
      · cases hok
      split at hok
      · cases hok
        rfl
      · have hcount := notifyNewIncomingMessage_count hok
        exact hcount
  | mailbox | catches =>
      simp only [step] at hok
      split at hok
      · cases hok
      · exact changeCurrent_count hok
  | processFlag pid trapExit =>
      simp only [step] at hok
      split at hok <;> cases hok
      · rfl
      · rfl
  | endSlice result =>
      simp only [step] at hok
      split at hok
      · cases hok
      · obtain ⟨ended, hended, hok⟩ := except_bind_eq_ok_iff.mp hok
        cases hok
        have hcount := changeCurrent_count hended
        exact hcount
  | nextProcess =>
      simp only [pickedFrom, step, nextProcess] at hpick hok
      split at hok
      · cases hok
      next hslice =>
        rw [if_neg hslice] at hpick
        cases hcurrent : vm.scheduler.current with
        | none =>
            simp only [hcurrent] at hpick
            cases hpick
        | some prevPid =>
            simp only [hcurrent] at hpick hok
            obtain ⟨⟨hint, after⟩, hfinal, hok⟩ := except_bind_eq_ok_iff.mp hok
            rw [hfinal] at hpick
            cases hint with
            | continueSameProcess =>
                cases hok
                have hcount := finalizePrevious_count hfinal
                exact hcount
            | takeAnotherProcess => cases hpick

/-- As long as both kinds wait at the picks, these hand the advantage on as it is. -/
theorem picks_handed (vm : VM M) (ops : List (VmOp M)) :
    (vm.picks ops).IsChain (fun s next => s.BothWait → next.advantageCount = s.advantageCount) ∧
      ∀ s ∈ (vm.picks ops).head?, s.advantageCount = vm.scheduler.advantageCount := by
  induction ops generalizing vm with
  | nil => exact ⟨.nil, nofun⟩
  | cons op rest ih =>
      rw [picks]
      cases hpick : vm.pickedFrom op with
      | none =>
          cases hok : vm.step op with
          | error stop => exact ⟨.nil, nofun⟩
          | ok after =>
              obtain ⟨hchain, hhead⟩ := ih after
              refine ⟨hchain, fun s hs => ?_⟩
              rw [hhead s hs, step_of_not_pickedFrom hpick hok]
      | some s =>
          obtain ⟨hbefore, after, hok, hafter⟩ := step_of_pickedFrom hpick
          obtain ⟨hchain, hhead⟩ := ih after
          rw [hok]
          refine ⟨List.isChain_cons.mpr ⟨fun next hnext hwait => ?_, hchain⟩, fun t ht => ?_⟩
          · rw [hhead next hnext, hafter, advantageCount_pickFromTheQueues hwait]
          · cases ht
            exact hbefore

/-- Picks between which the advantage does not change. -/
theorem count_eq_head {s : Scheduler} {window : List Scheduler}
    (hchain : (s :: window).IsChain
      fun s next => s.BothWait → next.advantageCount = s.advantageCount)
    (hwait : ∀ t ∈ s :: window, t.BothWait) :
    ∀ t ∈ s :: window, t.advantageCount = s.advantageCount := by
  induction window generalizing s with
  | nil =>
      intro t ht
      rw [List.mem_singleton.mp ht]
  | cons next rest ih =>
      obtain ⟨hnext, hrest⟩ := List.isChain_cons_cons.mp hchain
      intro t ht
      rcases List.mem_cons.mp ht with rfl | ht
      · rfl
      · rw [ih hrest (fun t ht => hwait t (List.mem_cons_of_mem s ht)) t ht,
          hnext (hwait s List.mem_cons_self)]

end Count

/-- A Low process is served beside Normal ones exactly where the advantage of these is used up
in each stretch of picks that it matters in. -/
theorem lowServed_iff (vm : VM M) (ops : List (VmOp M)) :
    vm.LowServed ops ↔ vm.AdvantageUsedUp ops := by
  constructor
  · intro hserved window hwindow hwait hmany s hs
    by_contra hbelow
    -- below it all the picks that find no High process take a Normal one
    have hcount : ∀ t ∈ window, t.advantageCount < normalAdvantage := by
      cases window with
      | nil => contradiction
      | cons first rest =>
          have hchain := List.IsChain.infix (vm.picks_handed ops).1 hwindow
          have hall := count_eq_head hchain hwait
          intro t ht
          rw [hall t ht, ← hall s hs]
          exact Nat.lt_of_not_le hbelow
    have hnormal : window.countP (fun t => t.queueHigh = []) ≤
        window.countP (fun t => t.TakesFrom .normal) := by
      refine List.countP_mono_left fun t ht hhigh => ?_
      exact decide_eq_true
        (takesFrom_normal (hwait t ht) (of_decide_eq_true hhigh) (hcount t ht))
    obtain ⟨t, ht, htakes⟩ := hserved window hwindow hwait (by omega)
    exact not_takesFrom_low (hwait t ht) (hcount t ht) htakes
  · intro hused window hwindow hwait hmany
    have hhigh : window.countP (fun t => t.TakesFrom .normal) ≤
        window.countP (fun t => t.queueHigh = []) := by
      refine List.countP_mono_left fun t _ htakes => ?_
      exact decide_eq_true (high_of_takesFrom_normal (of_decide_eq_true htakes))
    have hcount := hused window hwindow hwait (by omega)
    obtain ⟨t, ht, htakes⟩ := List.countP_pos_iff.mp (Nat.zero_lt_of_lt hmany)
    exact absurd (of_decide_eq_true htakes) (not_takesFrom_normal (hwait t ht) (hcount t ht))

/-- A Low process and two Normal ones, which yield in turn, nine times. -/
def yieldingNormals : List (VmOp Unit) :=
  [.spawn .low false, .spawn .normal false, .spawn .normal false] ++
    (List.replicate 9 [.nextProcess, .endSlice .yield]).flatten

theorem not_lowServed : ¬∀ ops, (new : VM Unit).LowServed ops := by
  intro hserved
  have hwait : ∀ s ∈ (new : VM Unit).picks yieldingNormals, s.BothWait := by decide
  have hlow : ∀ s ∈ (new : VM Unit).picks yieldingNormals, ¬ s.TakesFrom .low := by decide
  obtain ⟨s, hs, htakes⟩ := hserved yieldingNormals _ List.infix_rfl hwait (by decide)
  exact hlow s hs htakes

end VM

end Emulator

end Zeptobeam
