/-
The retries a tracker grants over a sequence of failures, in a build that stops at an overflow
of the counter and in one that goes on.
-/
import Mathlib.Data.List.Induction
import Mathlib.Order.MinMax
import Zeptobeam.FileReader
import Zeptobeam.RetryPolicy

namespace Zeptobeam

namespace RetryStrategy

/-- How many retries a task is granted. -/
def budget : RetryStrategy → Nat
  | .none => 0
  | .immediate maxAttempts => maxAttempts
  | .backoff maxAttempts _ _ => maxAttempts
  | .skip => 0

/-- The largest delay that is configured. -/
def longest : RetryStrategy → Nat
  | .backoff _ _ maxMs => maxMs
  | _ => 0

/-- The strategy counts the failures of a task. -/
def counts : RetryStrategy → Bool
  | .none => false
  | .immediate _ => true
  | .backoff _ _ _ => true
  | .skip => false

end RetryStrategy

namespace RetryTracker

def strategyOf (tracker : RetryTracker) (taskId : String) : RetryStrategy :=
  (tracker.perTask.lookup taskId).getD tracker.defaultStrategy

/-- A tracker as it is set up: a default, and strategies of some tasks. -/
def configured (defaultStrategy : RetryStrategy) (settings : List (String × RetryStrategy)) :
    RetryTracker :=
  settings.foldl (fun tracker setting => tracker.setTaskStrategy setting.1 setting.2)
    (new defaultStrategy)

/-- `should_retry` where `*count += 1` is checked, as it is in a debug build. -/
def report (debug : Bool) (tracker : RetryTracker) (taskId : String) :
    Except Panic (Option Nat × RetryTracker) :=
  if debug ∧ (tracker.strategyOf taskId).counts ∧ tracker.attemptCount taskId = 2 ^ 32 - 1 then
    .error .arithmeticOverflow
  else .ok (tracker.shouldRetry taskId)

/-- The answers to failures of tasks, one after the other. -/
def reportAll (debug : Bool) : RetryTracker → List String → Except Panic (List (Option Nat))
  | _, [] => .ok []
  | tracker, taskId :: rest => do
      let (answer, tracker) ← tracker.report debug taskId
      let answers ← reportAll debug tracker rest
      pure (answer :: answers)

/-- Each task is granted its budget of retries and no more, at delays up to the configured
maximum that do not decrease. -/
structure RetryBudget (strategyOf : String → RetryStrategy) (failures : List String)
    (answers : List (Option Nat)) : Prop where
  length : answers.length = failures.length
  granted : ∀ (i : Nat) id, failures[i]? = some id →
    ((∃ delay, answers[i]? = some (some delay)) ↔
      (failures.take i).count id < (strategyOf id).budget)
  bounded : ∀ (i : Nat) id delay, failures[i]? = some id → answers[i]? = some (some delay) →
    delay ≤ (strategyOf id).longest
  ascending : ∀ (i j : Nat) id first later, i ≤ j → failures[i]? = some id → failures[j]? = some id →
    answers[i]? = some (some first) → answers[j]? = some (some later) → first ≤ later

/-- The failures of the tasks that are counted fit the counter. -/
def FitsCounter (strategyOf : String → RetryStrategy) (failures : List String) : Prop :=
  ∀ id, (strategyOf id).counts → failures.count id < 2 ^ 32

/-! ## The tracker that is set up -/

theorem attempts_configured (defaultStrategy : RetryStrategy)
    (settings : List (String × RetryStrategy)) :
    (configured defaultStrategy settings).attempts = ∅ := by
  unfold configured
  induction settings using List.reverseRecOn with
  | nil => rfl
  | append_singleton settings setting ih =>
      rw [List.foldl_append]
      exact ih

theorem attemptCount_configured (defaultStrategy : RetryStrategy)
    (settings : List (String × RetryStrategy)) (taskId : String) :
    (configured defaultStrategy settings).attemptCount taskId = 0 := by
  rw [attemptCount, attempts_configured, AList.lookup_empty, Option.getD_none]

/-- A strategy is the default or one that was set. -/
theorem strategyOf_configured (defaultStrategy : RetryStrategy)
    (settings : List (String × RetryStrategy)) (taskId : String) :
    (configured defaultStrategy settings).strategyOf taskId ∈
      defaultStrategy :: settings.map Prod.snd := by
  unfold configured
  induction settings using List.reverseRecOn with
  | nil => exact List.mem_cons_self
  | append_singleton settings setting ih =>
      rw [List.foldl_append, List.map_append, ← List.cons_append, List.foldl_cons, List.foldl_nil]
      by_cases hid : taskId = setting.1
      · subst hid
        simp [strategyOf, setTaskStrategy, AList.lookup_insert]
      · refine List.mem_append_left _ ?_
        have hother : ∀ tracker : RetryTracker,
            (tracker.setTaskStrategy setting.1 setting.2).strategyOf taskId =
              tracker.strategyOf taskId := by
          intro tracker
          simp only [strategyOf, setTaskStrategy, AList.lookup_insert_ne hid]
        rw [hother]
        exact ih

/-! ## One failure -/

variable {tracker after : RetryTracker} {debug : Bool} {taskId : String} {answer : Option Nat}

/-- The answer to a failure that brings the counter to some value. -/
def answerAt : RetryStrategy → Nat → Option Nat
  | .none, _ => .none
  | .skip, _ => .none
  | .immediate maxAttempts, count => if count ≤ maxAttempts then some 0 else .none
  | .backoff maxAttempts baseMs maxMs, count =>
      if count ≤ maxAttempts then
        some (min (saturate (baseMs * saturate (2 ^ ((count + (2 ^ 32 - 1)) % 2 ^ 32)))) maxMs)
      else .none

@[simp]
theorem attemptCount_countAttempt (tracker : RetryTracker) (taskId other : String) :
    (tracker.countAttempt taskId).attemptCount other =
      if other = taskId then (tracker.attemptCount taskId + 1) % 2 ^ 32
      else tracker.attemptCount other := by
  by_cases hid : other = taskId
  · rw [if_pos hid, hid]
    simp only [attemptCount, countAttempt, AList.lookup_insert, Option.getD_some]
  · rw [if_neg hid]
    simp only [attemptCount, countAttempt, AList.lookup_insert_ne hid]

theorem shouldRetry_eq (tracker : RetryTracker) (taskId : String) :
    tracker.shouldRetry taskId =
      (answerAt (tracker.strategyOf taskId) ((tracker.attemptCount taskId + 1) % 2 ^ 32),
        if (tracker.strategyOf taskId).counts then tracker.countAttempt taskId else tracker) := by
  unfold shouldRetry
  rw [← strategyOf]
  cases tracker.strategyOf taskId with
  | none => rfl
  | skip => rfl
  | immediate maxAttempts =>
      simp only [attemptCount_countAttempt, if_true]
      rfl
  | backoff maxAttempts baseMs maxMs =>
      simp only [attemptCount_countAttempt, if_true]
      rfl

/-- What a failure that is answered does. -/
theorem report_ok (h : tracker.report debug taskId = .ok (answer, after)) :
    answer = answerAt (tracker.strategyOf taskId) ((tracker.attemptCount taskId + 1) % 2 ^ 32) ∧
      after = if (tracker.strategyOf taskId).counts then tracker.countAttempt taskId
        else tracker := by
  unfold report at h
  split at h
  · contradiction
  · rw [shouldRetry_eq] at h
    obtain ⟨hanswer, hafter⟩ := Prod.mk.inj (Except.ok.inj h)
    exact ⟨hanswer.symm, hafter.symm⟩

/-! ## A sequence of failures -/

/-- Where the counters stand after some failures. -/
structure Counted (strategyOf : String → RetryStrategy) (past : List String)
    (tracker : RetryTracker) : Prop where
  strategies : tracker.strategyOf = strategyOf
  counters : ∀ id, (strategyOf id).counts → tracker.attemptCount id = past.count id % 2 ^ 32

variable {strategies : String → RetryStrategy} {past : List String}

theorem Counted.report (h : Counted strategies past tracker)
    (hreport : tracker.report debug taskId = .ok (answer, after)) :
    Counted strategies (past ++ [taskId]) after := by
  obtain ⟨-, hafter⟩ := report_ok hreport
  rw [h.strategies] at hafter
  rw [hafter]
  split
  · rename_i hcounts
    refine ⟨h.strategies, fun id hid => ?_⟩
    rw [attemptCount_countAttempt, List.count_append]
    split
    · rename_i heq
      rw [heq, h.counters taskId hcounts, List.count_singleton_self]
      omega
    · rename_i hne
      rw [h.counters id hid, List.count_singleton, if_neg (by simpa using Ne.symm hne),
        Nat.add_zero]
  · rename_i hnot
    refine ⟨h.strategies, fun id hid => ?_⟩
    have hne : taskId ≠ id := by
      rintro rfl
      exact hnot hid
    rw [h.counters id hid, List.count_append, List.count_singleton, if_neg (by simpa using hne),
      Nat.add_zero]

/-- Every answer of a sequence was given by a tracker that had counted what came before. -/
theorem Counted.answered (failures : List String) (h : Counted strategies past tracker)
    {answers : List (Option Nat)} (hrun : reportAll debug tracker failures = .ok answers) :
    answers.length = failures.length ∧ ∀ i id, failures[i]? = some id →
      ∃ before answer after, Counted strategies (past ++ failures.take i) before ∧
        before.report debug id = .ok (answer, after) ∧ answers[i]? = some answer := by
  induction failures generalizing past tracker answers with
  | nil =>
      cases hrun
      refine ⟨rfl, fun i id hid => ?_⟩
      rw [List.getElem?_nil] at hid
      contradiction
  | cons failure rest ih =>
      unfold reportAll at hrun
      cases hreport : tracker.report debug failure with
      | error panic =>
          rw [hreport] at hrun
          contradiction
      | ok result =>
          obtain ⟨answer, after⟩ := result
          rw [hreport] at hrun
          cases hrest : reportAll debug after rest with
          | error panic =>
              simp only [bind, Except.bind, hrest] at hrun
              contradiction
          | ok later =>
              simp only [bind, Except.bind, hrest] at hrun
              cases hrun
              obtain ⟨hlength, hlater⟩ := ih (h.report hreport) hrest
              refine ⟨by rw [List.length_cons, List.length_cons, hlength], fun i id hid => ?_⟩
              cases i with
              | zero =>
                  cases hid
                  exact ⟨tracker, answer, after, by rwa [List.take_zero, List.append_nil],
                    hreport, rfl⟩
              | succ i =>
                  obtain ⟨before, given, next, hbefore, hgiven, hanswer⟩ := hlater i id hid
                  refine ⟨before, given, next, ?_, hgiven, hanswer⟩
                  rwa [List.take_succ_cons, List.append_cons]

/-- Failures that fit the counters are all answered. -/
theorem Counted.total (debug : Bool) (failures : List String)
    (h : Counted strategies past tracker)
    (hfits : FitsCounter strategies (past ++ failures)) :
    ∃ answers, reportAll debug tracker failures = .ok answers := by
  induction failures generalizing past tracker with
  | nil => exact ⟨[], rfl⟩
  | cons failure rest ih =>
      obtain ⟨answer, after, hreport⟩ :
          ∃ answer after, tracker.report debug failure = .ok (answer, after) := by
        refine ⟨_, _, if_neg ?_⟩
        rintro ⟨-, hcounts, hlast⟩
        rw [h.strategies] at hcounts
        have hfit := hfits failure hcounts
        rw [List.count_append, List.count_cons_self] at hfit
        have hcount := h.counters failure hcounts
        omega
      obtain ⟨answers, hrest⟩ := ih (h.report hreport) (by rwa [List.append_cons] at hfits)
      refine ⟨answer :: answers, ?_⟩
      unfold reportAll
      simp only [hreport, hrest, bind, Except.bind]
      rfl

/-! ## The budget -/

theorem answerAt_immediate {maxAttempts count : Nat}
    (h : count ≤ (RetryStrategy.immediate maxAttempts).budget) :
    answerAt (.immediate maxAttempts) count = some 0 :=
  if_pos h

theorem answerAt_backoff {maxAttempts baseMs maxMs count : Nat}
    (h : count ≤ (RetryStrategy.backoff maxAttempts baseMs maxMs).budget) :
    answerAt (.backoff maxAttempts baseMs maxMs) count =
      some (min (saturate (baseMs * saturate (2 ^ ((count + (2 ^ 32 - 1)) % 2 ^ 32)))) maxMs) :=
  if_pos h

theorem exists_answerAt_iff (strategy : RetryStrategy) (count : Nat) :
    (∃ delay, answerAt strategy count = some delay) ↔
      strategy.counts ∧ count ≤ strategy.budget := by
  cases strategy with
  | none => simp [answerAt, RetryStrategy.counts]
  | skip => simp [answerAt, RetryStrategy.counts]
  | immediate maxAttempts | backoff maxAttempts =>
      by_cases hcount : count ≤ maxAttempts <;>
        simp [answerAt, RetryStrategy.counts, RetryStrategy.budget, hcount]

theorem answerAt_le {strategy : RetryStrategy} {count delay : Nat}
    (h : answerAt strategy count = some delay) : delay ≤ strategy.longest := by
  have hcount := ((exists_answerAt_iff strategy count).mp ⟨delay, h⟩).2
  cases strategy with
  | none => contradiction
  | skip => contradiction
  | immediate maxAttempts =>
      rw [answerAt_immediate hcount] at h
      exact (Option.some.inj h).ge
  | backoff maxAttempts baseMs maxMs =>
      rw [answerAt_backoff hcount] at h
      rw [← Option.some.inj h]
      exact Nat.min_le_right _ _

theorem saturate_mono {m n : Nat} (h : m ≤ n) : saturate m ≤ saturate n :=
  min_le_min_right _ h

/-- A larger count gives no smaller delay, as long as the counter does not wrap. -/
theorem answerAt_mono {strategy : RetryStrategy} {m n first later : Nat} (hle : m ≤ n)
    (hn : n + 1 < 2 ^ 32) (hfirst : answerAt strategy (m + 1) = some first)
    (hlater : answerAt strategy (n + 1) = some later) : first ≤ later := by
  have hfirstCount := ((exists_answerAt_iff strategy (m + 1)).mp ⟨first, hfirst⟩).2
  have hlaterCount := ((exists_answerAt_iff strategy (n + 1)).mp ⟨later, hlater⟩).2
  cases strategy with
  | none => contradiction
  | skip => contradiction
  | immediate maxAttempts =>
      rw [answerAt_immediate hfirstCount] at hfirst
      rw [← Option.some.inj hfirst]
      exact Nat.zero_le later
  | backoff maxAttempts baseMs maxMs =>
      have hexponent : ∀ k, k + 1 < 2 ^ 32 → (k + 1 + (2 ^ 32 - 1)) % 2 ^ 32 = k := by
        intro k hk
        omega
      rw [answerAt_backoff hfirstCount, hexponent m (by omega)] at hfirst
      rw [answerAt_backoff hlaterCount, hexponent n hn] at hlater
      rw [← Option.some.inj hfirst, ← Option.some.inj hlater]
      have hpower := saturate_mono (Nat.pow_le_pow_right (by decide : 0 < 2) hle)
      exact min_le_min_right _ (saturate_mono (Nat.mul_le_mul_left baseMs hpower))

/-- An element is met for the `n`-th time somewhere, if it is met more often. -/
theorem exists_getElem?_of_lt_count {xs : List String} {x : String} {n : Nat}
    (h : n < xs.count x) : ∃ i, xs[i]? = some x ∧ (xs.take i).count x = n := by
  induction xs generalizing n with
  | nil => exact absurd h (Nat.not_lt_zero n)
  | cons y ys ih =>
      by_cases heq : y = x
      · subst heq
        rw [List.count_cons_self] at h
        cases n with
        | zero => exact ⟨0, rfl, rfl⟩
        | succ n =>
            obtain ⟨i, hi, hcount⟩ := ih (Nat.lt_of_succ_lt_succ h)
            exact ⟨i + 1, hi, by rw [List.take_succ_cons, List.count_cons_self, hcount]⟩
      · rw [List.count_cons_of_ne heq] at h
        obtain ⟨i, hi, hcount⟩ := ih h
        exact ⟨i + 1, hi, by rw [List.take_succ_cons, List.count_cons_of_ne heq, hcount]⟩

/-- Before an element that is there, it was met less often than in all. -/
theorem count_take_lt {xs : List String} {x : String} {i : Nat} (h : xs[i]? = some x) :
    (xs.take i).count x < xs.count x := by
  obtain ⟨hi, hx⟩ := List.getElem?_eq_some_iff.mp h
  calc (xs.take i).count x < (xs.take (i + 1)).count x := by
        rw [List.take_succ_eq_append_getElem hi, List.count_append, hx,
          List.count_singleton_self]
        exact Nat.lt_succ_self _
    _ ≤ xs.count x := (List.take_sublist _ _).count_le x

variable {failures : List String} {answers : List (Option Nat)}

theorem counts_of_lt_budget {strategy : RetryStrategy} {n : Nat} (h : n < strategy.budget) :
    strategy.counts := by
  cases strategy with
  | none => exact absurd h (Nat.not_lt_zero n)
  | skip => exact absurd h (Nat.not_lt_zero n)
  | immediate maxAttempts => rfl
  | backoff maxAttempts baseMs maxMs => rfl

theorem answerAt_eq_none {strategy : RetryStrategy} (h : ¬ strategy.counts) (count : Nat) :
    answerAt strategy count = none := by
  cases hanswer : answerAt strategy count with
  | none => rfl
  | some delay => exact absurd ((exists_answerAt_iff strategy count).mp ⟨delay, hanswer⟩).1 h

/-- What a tracker that had counted what came before answers. -/
theorem Counted.answer_eq (h : Counted strategies past tracker)
    (hreport : tracker.report debug taskId = .ok (answer, after)) :
    answer = answerAt (strategies taskId) ((past.count taskId + 1) % 2 ^ 32) := by
  rw [(report_ok hreport).1, h.strategies]
  by_cases hcounts : (strategies taskId).counts
  · rw [h.counters taskId hcounts, Nat.mod_add_mod]
  · rw [answerAt_eq_none hcounts, answerAt_eq_none hcounts]

theorem Counted.getElem?_answers (h : Counted strategies [] tracker)
    (hrun : reportAll debug tracker failures = .ok answers) {i : Nat} {id : String}
    (hid : failures[i]? = some id) :
    answers[i]? = some (answerAt (strategies id) (((failures.take i).count id + 1) % 2 ^ 32)) := by
  obtain ⟨before, answer, after, hbefore, hreport, hanswer⟩ := (h.answered failures hrun).2 i id hid
  rw [List.nil_append] at hbefore
  rw [hanswer, hbefore.answer_eq hreport]

/-- As long as the counters do not wrap, the budget is kept. -/
theorem Counted.budget_of_fits (h : Counted strategies [] tracker)
    (hfits : FitsCounter strategies failures)
    (hrun : reportAll debug tracker failures = .ok answers) :
    RetryBudget strategies failures answers := by
  have hanswers : ∀ {i : Nat} {id : String} {delay : Nat}, failures[i]? = some id →
      answers[i]? = some (some delay) → (failures.take i).count id + 1 < 2 ^ 32 ∧
        answerAt (strategies id) ((failures.take i).count id + 1) = some delay := by
    intro i id delay hid hdelay
    rw [h.getElem?_answers hrun hid] at hdelay
    have hanswer := Option.some.inj hdelay
    have hcounts := ((exists_answerAt_iff _ _).mp ⟨delay, hanswer⟩).1
    have hfit := Nat.lt_of_le_of_lt (count_take_lt hid) (hfits id hcounts)
    rw [Nat.mod_eq_of_lt hfit] at hanswer
    exact ⟨hfit, hanswer⟩
  refine ⟨(h.answered failures hrun).1, fun i id hid => ⟨?_, fun hlt => ?_⟩, ?_, ?_⟩
  · rintro ⟨delay, hdelay⟩
    exact ((exists_answerAt_iff _ _).mp ⟨delay, (hanswers hid hdelay).2⟩).2
  · have hcounts := counts_of_lt_budget hlt
    have hfit := Nat.lt_of_le_of_lt (count_take_lt hid) (hfits id hcounts)
    obtain ⟨delay, hdelay⟩ := (exists_answerAt_iff (strategies id) _).mpr ⟨hcounts, hlt⟩
    refine ⟨delay, ?_⟩
    rw [h.getElem?_answers hrun hid, Nat.mod_eq_of_lt hfit, hdelay]
  · intro i id delay hid hdelay
    exact answerAt_le (hanswers hid hdelay).2
  · intro i j id first later hij hfirst hlater hfirstAnswer hlaterAnswer
    obtain ⟨-, hfirst⟩ := hanswers hfirst hfirstAnswer
    obtain ⟨hfit, hlater⟩ := hanswers hlater hlaterAnswer
    have htake := (List.take_sublist_take_left (l := failures) hij).count_le id
    exact answerAt_mono htake hfit hfirst hlater

/-- At the last value of the counter, a failure is not answered, or granted another retry. -/
theorem Counted.fits_of_budget (h : Counted strategies [] tracker)
    (htyped : ∀ id, (strategies id).budget < 2 ^ 32)
    (hrun : reportAll debug tracker failures = .ok answers)
    (hbudget : RetryBudget strategies failures answers) : FitsCounter strategies failures := by
  intro id hcounts
  by_contra hmany
  have hlast : 2 ^ 32 - 1 < failures.count id := by omega
  obtain ⟨i, hid, hcount⟩ := exists_getElem?_of_lt_count hlast
  have hanswer := h.getElem?_answers hrun hid
  have hwrapped : ((failures.take i).count id + 1) % 2 ^ 32 = 0 := by omega
  rw [hwrapped] at hanswer
  obtain ⟨delay, hdelay⟩ := (exists_answerAt_iff (strategies id) 0).mpr ⟨hcounts, Nat.zero_le _⟩
  rw [hdelay] at hanswer
  have hgranted := (hbudget.granted i id hid).mp ⟨delay, hanswer⟩
  have hbound := htyped id
  omega

theorem counted_configured (defaultStrategy : RetryStrategy)
    (settings : List (String × RetryStrategy)) :
    Counted (configured defaultStrategy settings).strategyOf []
      (configured defaultStrategy settings) := by
  refine ⟨rfl, fun id _ => ?_⟩
  rw [attemptCount_configured]
  rfl

/-- Trackers keep the retry budget over a sequence of failures exactly if no task that is
counted fails more often than the counter can tell. -/
theorem retryBudget_iff (debug : Bool) (defaultStrategy : RetryStrategy)
    (settings : List (String × RetryStrategy))
    (htyped : ∀ strategy ∈ defaultStrategy :: settings.map Prod.snd, strategy.budget < 2 ^ 32)
    (failures : List String) :
    (∃ answers, reportAll debug (configured defaultStrategy settings) failures = .ok answers ∧
        RetryBudget (configured defaultStrategy settings).strategyOf failures answers) ↔
      FitsCounter (configured defaultStrategy settings).strategyOf failures := by
  have hstart := counted_configured defaultStrategy settings
  constructor
  · rintro ⟨answers, hrun, hbudget⟩
    exact hstart.fits_of_budget
      (fun id => htyped _ (strategyOf_configured defaultStrategy settings id)) hrun hbudget
  · intro hfits
    obtain ⟨answers, hrun⟩ := hstart.total debug failures hfits
    exact ⟨answers, hrun, hstart.budget_of_fits hfits hrun⟩

/-- Three failures of one task and one of another, which has a strategy of its own. -/
theorem retryBudget_two_tasks :
    ∃ answers, reportAll true (configured (.backoff 2 100 1000) [("b", .skip)])
        ["a", "b", "a", "a"] = .ok answers ∧
      RetryBudget (configured (.backoff 2 100 1000) [("b", .skip)]).strategyOf
        ["a", "b", "a", "a"] answers := by
  have htyped : ∀ strategy ∈ RetryStrategy.backoff 2 100 1000 ::
      [("b", RetryStrategy.skip)].map Prod.snd, strategy.budget < 2 ^ 32 := by
    decide
  refine (retryBudget_iff true _ _ htyped _).mpr fun id _ => ?_
  exact Nat.lt_of_le_of_lt List.count_le_length (by decide)

/-- A release build answers every failure. -/
theorem reportAll_release (failures : List String) (tracker : RetryTracker) :
    ∃ answers, reportAll false tracker failures = .ok answers := by
  induction failures generalizing tracker with
  | nil => exact ⟨[], rfl⟩
  | cons failure rest ih =>
      have hreport : tracker.report false failure = .ok (tracker.shouldRetry failure) :=
        if_neg (fun h => absurd h.1 Bool.false_ne_true)
      obtain ⟨answers, hrest⟩ := ih (tracker.shouldRetry failure).2
      refine ⟨(tracker.shouldRetry failure).1 :: answers, ?_⟩
      unfold reportAll
      simp only [hreport, bind, Except.bind, hrest]
      rfl

/-- A task that fails `2 ^ 32` times with two retries to grant: a debug build panics, and a
release build grants it a third one. -/
theorem not_retryBudget_wrapped :
    (¬ ∃ answers, reportAll true (configured (.immediate 2) [])
        (List.replicate (2 ^ 32) "a") = .ok answers) ∧
      ∃ answers, reportAll false (configured (.immediate 2) [])
          (List.replicate (2 ^ 32) "a") = .ok answers ∧
        answers[2 ^ 32 - 1]? = some (some 0) ∧
        ¬ RetryBudget (configured (.immediate 2) []).strategyOf (List.replicate (2 ^ 32) "a")
          answers := by
  have hid : (List.replicate (2 ^ 32) "a")[2 ^ 32 - 1]? = some "a" :=
    List.getElem?_replicate_of_lt (by decide)
  have hcount : ((List.replicate (2 ^ 32) "a").take (2 ^ 32 - 1)).count "a" = 2 ^ 32 - 1 := by
    rw [List.take_replicate, List.count_replicate_self]
    decide
  have hstart := counted_configured (.immediate 2) []
  -- the list is too long to be looked at again
  generalize List.replicate (2 ^ 32) "a" = failures at hid hcount ⊢
  constructor
  · rintro ⟨answers, hrun⟩
    obtain ⟨before, answer, after, hbefore, hreport, -⟩ := (hstart.answered _ hrun).2 _ _ hid
    rw [List.nil_append] at hbefore
    have hlast : before.attemptCount "a" = 2 ^ 32 - 1 := by
      rw [hbefore.counters "a" rfl, hcount]
      decide
    have hcounts : (before.strategyOf "a").counts := by
      rw [hbefore.strategies]
      rfl
    rw [RetryTracker.report, if_pos ⟨rfl, hcounts, hlast⟩] at hreport
    contradiction
  · obtain ⟨answers, hrun⟩ := reportAll_release failures (configured (.immediate 2) [])
    have hanswer := hstart.getElem?_answers hrun hid
    have hwrapped : (2 ^ 32 - 1 + 1) % 2 ^ 32 = 0 := by decide
    have hgrants : answerAt ((configured (.immediate 2) []).strategyOf "a") 0 = some 0 := rfl
    rw [hcount, hwrapped, hgrants] at hanswer
    refine ⟨answers, hrun, hanswer, fun hbudget => ?_⟩
    have hgranted := (hbudget.granted _ _ hid).mp ⟨0, hanswer⟩
    rw [hcount] at hgranted
    exact absurd hgranted (by decide)

end RetryTracker

end Zeptobeam
