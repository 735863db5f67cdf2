/-
The rate limiter: for every provider the times of the requests that were granted within its
window.  Times are numbers of nanoseconds, read under the lock and so in order.  What is
recorded of a rejection, and the waiting itself, is left out.
-/
import Zeptobeam.Lib.SlidingWindow
import Mathlib.Data.List.AList
import Mathlib.Data.List.Induction

namespace Zeptobeam

structure ProviderLimit where
  maxRequests : UInt32
  window : Nat
  timestamps : List Nat
deriving DecidableEq

structure RateLimiter where
  providers : AList fun _ : String => ProviderLimit
  defaultLimit : Option (UInt32 × Nat)
  /-- A thread panicked with the lock held: whoever takes it next panics too. -/
  poisoned : Bool

/-- What an attempt comes to. -/
inductive Acquired where
  | granted
  | wait (duration : Nat)
  | panicked
deriving DecidableEq

namespace RateLimiter

def new : RateLimiter := ⟨∅, none, false⟩

/-- The limits that are set before any attempt. -/
inductive LimitCall where
  | setLimit (provider : String) (maxRequests : UInt32) (window : Nat)
  | setDefaultLimit (maxRequests : UInt32) (window : Nat)

def configure (limiter : RateLimiter) : LimitCall → RateLimiter
  | .setLimit provider maxRequests window =>
      { limiter with
        providers := limiter.providers.insert provider ⟨maxRequests, window, []⟩ }
  | .setDefaultLimit maxRequests window =>
      { limiter with defaultLimit := some (maxRequests, window) }

def configured (calls : List LimitCall) : RateLimiter :=
  calls.foldl configure new

/-- The limit of a provider, or a new one after the default. -/
def limitFor (limiter : RateLimiter) (provider : String) : Option ProviderLimit :=
  match limiter.providers.lookup provider with
  | some limit => some limit
  | none => limiter.defaultLimit.map fun limit => ⟨limit.1, limit.2, []⟩

/-- Timestamps outside the window are popped from the front. -/
def evict (now window : Nat) : List Nat → List Nat
  | [] => []
  | front :: rest => if now - front ≥ window then evict now window rest else front :: rest

def setTimestamps (limiter : RateLimiter) (provider : String) (limit : ProviderLimit)
    (timestamps : List Nat) : RateLimiter :=
  { limiter with
    providers := limiter.providers.insert provider { limit with timestamps := timestamps } }

def tryAcquire (limiter : RateLimiter) (provider : String) (now : Nat) :
    Acquired × RateLimiter :=
  if limiter.poisoned then (.panicked, limiter)
  else
    match limiter.limitFor provider with
    | none => (.granted, limiter)
    | some limit =>
        let timestamps := evict now limit.window limit.timestamps
        let evicted := limiter.setTimestamps provider limit timestamps
        if timestamps.length < limit.maxRequests.toNat then
          (.granted, limiter.setTimestamps provider limit (timestamps ++ [now]))
        else
          match timestamps with
          -- `front().unwrap()` on an empty queue
          | [] => (.panicked, { evicted with poisoned := true })
          | oldest :: _ =>
              -- a negative `Duration`
              if limit.window < now - oldest then (.panicked, { evicted with poisoned := true })
              else (.wait (limit.window - (now - oldest)), evicted)

/-! ## Attempts -/

def run (limiter : RateLimiter) (attempts : List (String × Nat)) : RateLimiter :=
  attempts.foldl (fun limiter attempt => (limiter.tryAcquire attempt.1 attempt.2).2) limiter

/-- The times of the attempts for a provider that are granted. -/
def grants (provider : String) : RateLimiter → List (String × Nat) → List Nat
  | _, [] => []
  | limiter, (other, now) :: rest =>
      (if other = provider ∧ (limiter.tryAcquire other now).1 = .granted then [now] else []) ++
        grants provider (limiter.tryAcquire other now).2 rest

/-- The number of times from `start` on, up to and without `start + window`. -/
def countWithin (window start : Nat) (times : List Nat) : Nat :=
  (times.filter fun t => start ≤ t ∧ t < start + window).length

/-- No window of a provider's length holds more grants than its limit. -/
def WindowsHold (limiter : RateLimiter) (attempts : List (String × Nat)) : Prop :=
  ∀ provider limit, limiter.limitFor provider = some limit →
    ∀ start, countWithin limit.window start (grants provider limiter attempts) ≤
      limit.maxRequests.toNat

/-- An attempt does not panic, and if it is told to wait, then not longer than the window, and
it is granted after this time. -/
def Answered (limiter : RateLimiter) (attempt : String × Nat) : Prop :=
  (limiter.tryAcquire attempt.1 attempt.2).1 ≠ .panicked ∧
    ∀ wait, (limiter.tryAcquire attempt.1 attempt.2).1 = .wait wait →
      0 < wait ∧
      (∃ limit, limiter.limitFor attempt.1 = some limit ∧ wait ≤ limit.window) ∧
      ((limiter.tryAcquire attempt.1 attempt.2).2.tryAcquire attempt.1
        (attempt.2 + wait)).1 = .granted

def Limits (limiter : RateLimiter) (attempts : List (String × Nat)) : Prop :=
  WindowsHold limiter attempts ∧
    ∀ pre attempt, pre ++ [attempt] <+: attempts → Answered (limiter.run pre) attempt

/-- The provider's limit in force allows no request at all. -/
def Blocked (limiter : RateLimiter) (provider : String) : Prop :=
  ∃ limit, limiter.limitFor provider = some limit ∧ limit.maxRequests = 0

/-! ## The window of one provider -/

theorem evict_eq_within {now window : Nat} (hwindow : 0 < window) {times : List Nat}
    (hsorted : times.Pairwise (· ≤ ·)) :
    evict now window times = SlidingWindow.within (window - 1) now times := by
  induction times with
  | nil => rfl
  | cons front rest ih =>
      obtain ⟨hfront, hrest⟩ := List.pairwise_cons.mp hsorted
      by_cases hout : now - front ≥ window
      · rw [evict, if_pos hout, ih hrest, SlidingWindow.within, SlidingWindow.within,
          List.filter_cons_of_neg]
        rw [decide_eq_true_eq]
        omega
      · rw [evict, if_neg hout, SlidingWindow.within]
        symm
        apply List.filter_eq_self.mpr
        intro t ht
        rw [decide_eq_true_eq]
        rcases List.mem_cons.mp ht with rfl | hmem
        · omega
        · have hle := hfront t hmem
          omega

theorem evict_suffix (now window : Nat) (times : List Nat) :
    evict now window times <:+ times := by
  induction times with
  | nil => exact List.suffix_rfl
  | cons front rest ih =>
      by_cases hout : now - front ≥ window
      · rw [evict, if_pos hout]
        exact ih.trans (List.suffix_cons front rest)
      · refine ⟨[], ?_⟩
        rw [List.nil_append, evict, if_neg hout]

/-- What is left at the front lies in the window. -/
theorem lt_of_evict_eq_cons {now window oldest : Nat} {times rest : List Nat}
    (hevict : evict now window times = oldest :: rest) : now - oldest < window := by
  induction times with
  | nil => cases hevict
  | cons front tail ih =>
      by_cases hout : now - front ≥ window
      · rw [evict, if_pos hout] at hevict
        exact ih hevict
      · rw [evict, if_neg hout] at hevict
        obtain ⟨rfl, -⟩ := List.cons.inj hevict
        exact Nat.lt_of_not_le hout

/-! ## One attempt -/

variable {limiter : RateLimiter} {provider other : String} {limit : ProviderLimit}
  {now : Nat} {timestamps : List Nat}

theorem limitFor_setTimestamps :
    (limiter.setTimestamps provider limit timestamps).limitFor other =
      if other = provider then some { limit with timestamps := timestamps }
      else limiter.limitFor other := by
  rw [limitFor, setTimestamps]
  by_cases hsame : other = provider
  · rw [if_pos hsame, hsame, AList.lookup_insert]
  · rw [if_neg hsame, AList.lookup_insert_ne hsame, limitFor]

theorem limitFor_setTimestamps_self :
    (limiter.setTimestamps provider limit timestamps).limitFor provider =
      some { limit with timestamps := timestamps } := by
  rw [limitFor_setTimestamps, if_pos rfl]

/-- What an attempt for a limited provider comes to. -/
inductive Attempted (limiter : RateLimiter) (provider : String) (limit : ProviderLimit)
    (now : Nat) : Acquired × RateLimiter → Prop where
  | poisoned (hpoisoned : limiter.poisoned = true) :
      Attempted limiter provider limit now (.panicked, limiter)
  | granted (hroom : (evict now limit.window limit.timestamps).length <
        limit.maxRequests.toNat) :
      Attempted limiter provider limit now (.granted, limiter.setTimestamps provider limit
        (evict now limit.window limit.timestamps ++ [now]))
  | blocked (hblocked : limit.maxRequests = 0)
      (hempty : evict now limit.window limit.timestamps = []) :
      Attempted limiter provider limit now
        (.panicked, { limiter.setTimestamps provider limit [] with poisoned := true })
  | waits (oldest : Nat) (rest : List Nat)
      (hevict : evict now limit.window limit.timestamps = oldest :: rest)
      (hfull : limit.maxRequests.toNat ≤ (oldest :: rest).length) :
      Attempted limiter provider limit now
        (.wait (limit.window - (now - oldest)),
          limiter.setTimestamps provider limit (oldest :: rest))

theorem tryAcquire_attempted (hlimit : limiter.limitFor provider = some limit) (now : Nat) :
    Attempted limiter provider limit now (limiter.tryAcquire provider now) := by
  by_cases hpoisoned : limiter.poisoned = true
  · rw [tryAcquire, if_pos hpoisoned]
    exact .poisoned hpoisoned
  · simp only [tryAcquire, if_neg hpoisoned, hlimit]
    by_cases hroom : (evict now limit.window limit.timestamps).length < limit.maxRequests.toNat
    · rw [if_pos hroom]
      exact .granted hroom
    · rw [if_neg hroom]
      cases hevict : evict now limit.window limit.timestamps with
      | nil =>
          rw [hevict] at hroom
          have hzero : limit.maxRequests = 0 := by
            apply UInt32.toNat_inj.mp
            exact Nat.eq_zero_of_not_pos hroom
          exact .blocked hzero hevict
      | cons oldest rest =>
          have hwithin := lt_of_evict_eq_cons hevict
          rw [hevict] at hroom
          simp only [if_neg (Nat.not_lt_of_lt hwithin)]
          exact .waits oldest rest hevict (Nat.le_of_not_lt hroom)

theorem tryAcquire_unlimited (hpoisoned : limiter.poisoned = false)
    (hnone : limiter.limitFor provider = none) :
    limiter.tryAcquire provider now = (.granted, limiter) := by
  simp only [tryAcquire, hpoisoned, Bool.false_eq_true, if_false, hnone]

/-- An attempt for one provider does not touch the limits of the others. -/
theorem limitFor_tryAcquire_other (hother : other ≠ provider) :
    (limiter.tryAcquire provider now).2.limitFor other = limiter.limitFor other := by
  cases hlimit : limiter.limitFor provider with
  | none =>
      by_cases hpoisoned : limiter.poisoned = true
      · rw [tryAcquire, if_pos hpoisoned]
      · rw [tryAcquire_unlimited ((Bool.not_eq_true _).mp hpoisoned) hlimit]
  | some limit =>
      have hset : ∀ timestamps,
          (limiter.setTimestamps provider limit timestamps).limitFor other =
            limiter.limitFor other := by
        intro timestamps
        rw [limitFor_setTimestamps, if_neg hother]
      have hattempted := tryAcquire_attempted hlimit now
      generalize limiter.tryAcquire provider now = result at hattempted ⊢
      cases hattempted with
      | poisoned hpoisoned => rfl
      | granted hroom => exact hset _
      | blocked hblocked hempty => exact hset []
      | waits oldest rest hevict hfull => exact hset _

/-- What is known of a provider with a limit, after the grants and up to the time given. -/
structure Tracked (provider : String) (maxRequests : UInt32) (window : Nat) (history : List Nat)
    (last : Nat) (limiter : RateLimiter) (timestamps : List Nat) : Prop where
  found : limiter.limitFor provider = some ⟨maxRequests, window, timestamps⟩
  within : timestamps.length ≤ maxRequests.toNat
  sorted : timestamps.Pairwise (· ≤ ·)
  past : ∀ t ∈ timestamps, t ≤ last
  stands : 0 < window → SlidingWindow.Stands (window - 1) history timestamps last
  bounded : 0 < window → SlidingWindow.Bounded (window - 1) maxRequests.toNat history

section Tracked

variable {maxRequests : UInt32} {window last : Nat} {history : List Nat}

/-- The limit of another provider, and a poisoned lock, change nothing. -/
theorem Tracked.of_limitFor {limiter' : RateLimiter}
    (h : Tracked provider maxRequests window history last limiter timestamps)
    (hsame : limiter'.limitFor provider = limiter.limitFor provider) (hlast : last ≤ now) :
    Tracked provider maxRequests window history now limiter' timestamps :=
  ⟨hsame.trans h.found, h.within, h.sorted, fun t ht => Nat.le_trans (h.past t ht) hlast,
    fun hwindow => (h.stands hwindow).later hlast, h.bounded⟩

theorem Tracked.evict (h : Tracked provider maxRequests window history last limiter timestamps)
    (hlast : last ≤ now) : (evict now window timestamps).length ≤ maxRequests.toNat ∧
      (evict now window timestamps).Pairwise (· ≤ ·) ∧
      (∀ t ∈ evict now window timestamps, t ≤ now) ∧
      (0 < window →
        SlidingWindow.Stands (window - 1) history (evict now window timestamps) now) := by
  have hsuffix := evict_suffix now window timestamps
  refine ⟨Nat.le_trans hsuffix.length_le h.within, h.sorted.sublist hsuffix.sublist, ?_, ?_⟩
  · intro t ht
    exact Nat.le_trans (h.past t (hsuffix.subset ht)) hlast
  · intro hwindow
    rw [evict_eq_within hwindow h.sorted]
    exact ((h.stands hwindow).later hlast).prune

/-- A grant is within the bound, and is recorded. -/
theorem Tracked.grant (h : Tracked provider maxRequests window history last limiter timestamps)
    (hlast : last ≤ now)
    (hroom : (RateLimiter.evict now window timestamps).length < maxRequests.toNat) :
    Tracked provider maxRequests window (history ++ [now]) now
      (limiter.setTimestamps provider ⟨maxRequests, window, timestamps⟩
        (RateLimiter.evict now window timestamps ++ [now]))
      (RateLimiter.evict now window timestamps ++ [now]) := by
  obtain ⟨-, hsorted, hpast, hstands⟩ := h.evict hlast
  have hkept : 0 < window → RateLimiter.evict now window timestamps ++ [now] =
      SlidingWindow.within (window - 1) now (timestamps ++ [now]) := by
    intro hwindow
    rw [evict_eq_within hwindow h.sorted, SlidingWindow.within_append]
    simp [SlidingWindow.within]
  refine ⟨limitFor_setTimestamps_self, ?_, ?_, ?_, ?_, ?_⟩
  · rw [List.length_append]
    exact hroom
  · apply List.pairwise_append.mpr
    refine ⟨hsorted, List.pairwise_singleton _ _, fun t ht u hu => ?_⟩
    rw [List.mem_singleton.mp hu]
    exact hpast t ht
  · intro t ht
    rcases List.mem_append.mp ht with hmem | hmem
    · exact hpast t hmem
    · exact Nat.le_of_eq (List.mem_singleton.mp hmem)
  · intro hwindow
    rw [hkept hwindow]
    exact ((h.stands hwindow).later hlast).record
  · intro hwindow
    apply (h.bounded hwindow).record
    rw [← ((h.stands hwindow).later hlast).counts, ← hkept hwindow, List.length_append]
    exact hroom

theorem Tracked.tryAcquire
    (h : Tracked provider maxRequests window history last limiter timestamps)
    (hlast : last ≤ now) : ∃ timestamps', Tracked provider maxRequests window
      (history ++ if (limiter.tryAcquire provider now).1 = .granted then [now] else []) now
      (limiter.tryAcquire provider now).2 timestamps' := by
  obtain ⟨hwithin, hsorted, hpast, hstands⟩ := h.evict hlast
  have hattempted := tryAcquire_attempted h.found now
  generalize limiter.tryAcquire provider now = result at hattempted ⊢
  cases hattempted with
  | poisoned hpoisoned =>
      refine ⟨timestamps, ?_⟩
      rw [if_neg (by simp), List.append_nil]
      exact h.of_limitFor rfl hlast
  | granted hroom =>
      rw [if_pos rfl]
      exact ⟨_, h.grant hlast hroom⟩
  | blocked hblocked hempty =>
      refine ⟨[], ?_⟩
      rw [if_neg (by simp), List.append_nil]
      rw [hempty] at hwithin hsorted hpast hstands
      exact ⟨limitFor_setTimestamps_self, hwithin, hsorted, hpast, hstands, h.bounded⟩
  | waits oldest rest hevict hfull =>
      refine ⟨oldest :: rest, ?_⟩
      rw [if_neg (by simp), List.append_nil]
      rw [hevict] at hwithin hsorted hpast hstands
      exact ⟨limitFor_setTimestamps_self, hwithin, hsorted, hpast, hstands, h.bounded⟩

/-- The run lemma: whatever other providers are asked for in between. -/
theorem Tracked.run {attempts : List (String × Nat)} {finish : Nat}
    (h : Tracked provider maxRequests window history last limiter timestamps)
    (hsorted : attempts.Pairwise fun first second => first.2 ≤ second.2)
    (hlast : ∀ attempt ∈ attempts, last ≤ attempt.2)
    (hfinish : ∀ attempt ∈ attempts, attempt.2 ≤ finish) (hle : last ≤ finish) :
    ∃ timestamps', Tracked provider maxRequests window
      (history ++ grants provider limiter attempts) finish (limiter.run attempts)
      timestamps' := by
  induction attempts generalizing limiter history last timestamps with
  | nil =>
      rw [grants, List.append_nil]
      exact ⟨timestamps, h.of_limitFor rfl hle⟩
  | cons attempt rest ih =>
      obtain ⟨other, now⟩ := attempt
      obtain ⟨hfirst, hrest⟩ := List.pairwise_cons.mp hsorted
      have hnow : last ≤ now := hlast (other, now) List.mem_cons_self
      have hend : now ≤ finish := hfinish (other, now) List.mem_cons_self
      have hnext : ∃ timestamps', Tracked provider maxRequests window
          (history ++ if other = provider ∧ (limiter.tryAcquire other now).1 = .granted then [now]
            else []) now (limiter.tryAcquire other now).2 timestamps' := by
        by_cases hother : other = provider
        · subst hother
          simpa only [true_and] using h.tryAcquire hnow
        · refine ⟨timestamps, ?_⟩
          rw [if_neg fun hboth => hother hboth.1, List.append_nil]
          exact h.of_limitFor (limitFor_tryAcquire_other (Ne.symm hother)) hnow
      obtain ⟨timestamps', htracked⟩ := hnext
      rw [grants, ← List.append_assoc]
      exact ih htracked hrest hfirst
        (fun attempt hmem => hfinish attempt (List.mem_cons_of_mem _ hmem)) hend

theorem Tracked.countWithin_le
    (h : Tracked provider maxRequests window history last limiter timestamps) (start : Nat) :
    countWithin window start history ≤ maxRequests.toNat := by
  rcases Nat.eq_zero_or_pos window with rfl | hwindow
  · have hnone : history.filter (fun t => start ≤ t ∧ t < start + 0) = [] := by
      apply List.filter_eq_nil_iff.mpr
      intro t _
      rw [decide_eq_true_eq]
      omega
    rw [countWithin, hnone]
    exact Nat.zero_le _
  · have hsame : history.filter (fun t => start ≤ t ∧ t < start + window) =
        SlidingWindow.inWindow (window - 1) start history := by
      apply List.filter_congr
      intro t _
      rw [decide_eq_decide]
      omega
    rw [countWithin, hsame]
    exact h.bounded hwindow start

end Tracked

theorem limitFor_tryAcquire_none (hnone : limiter.limitFor provider = none) :
    (limiter.tryAcquire other now).2.limitFor provider = none := by
  by_cases hother : provider = other
  · subst hother
    by_cases hpoisoned : limiter.poisoned = true
    · rw [tryAcquire, if_pos hpoisoned]
      exact hnone
    · rw [tryAcquire_unlimited ((Bool.not_eq_true _).mp hpoisoned) hnone]
      exact hnone
  · rw [limitFor_tryAcquire_other hother]
    exact hnone

theorem limitFor_run_none {attempts : List (String × Nat)}
    (hnone : limiter.limitFor provider = none) :
    (limiter.run attempts).limitFor provider = none := by
  induction attempts generalizing limiter with
  | nil => exact hnone
  | cons attempt rest ih => exact ih (limitFor_tryAcquire_none hnone)

/-! ## Configurations -/

/-- No request was granted yet, and nothing panicked. -/
structure Fresh (limiter : RateLimiter) : Prop where
  unpoisoned : limiter.poisoned = false
  empty : ∀ provider limit, limiter.limitFor provider = some limit → limit.timestamps = []

theorem Fresh.step (h : limiter.Fresh) (call : LimitCall) :
    (limiter.configure call).Fresh := by
  cases call with
  | setLimit provider maxRequests window =>
      refine ⟨h.unpoisoned, fun other limit hlimit => ?_⟩
      have hfound : (limiter.setTimestamps provider ⟨maxRequests, window, []⟩ []).limitFor other =
          some limit := hlimit
      rw [limitFor_setTimestamps] at hfound
      by_cases hother : other = provider
      · rw [if_pos hother] at hfound
        cases hfound
        rfl
      · rw [if_neg hother] at hfound
        exact h.empty other limit hfound
  | setDefaultLimit maxRequests window =>
      refine ⟨h.unpoisoned, fun other limit hlimit => ?_⟩
      simp only [limitFor, configure] at hlimit
      cases hlookup : limiter.providers.lookup other with
      | none =>
          rw [hlookup] at hlimit
          cases hlimit
          rfl
      | some found =>
          rw [hlookup] at hlimit
          apply h.empty other limit
          rw [limitFor, hlookup]
          exact hlimit

theorem fresh_configured (calls : List LimitCall) : (configured calls).Fresh := by
  induction calls using List.reverseRecOn with
  | nil => exact ⟨rfl, fun provider limit hlimit => by cases hlimit⟩
  | append_singleton calls call ih =>
      rw [configured, List.foldl_concat]
      exact ih.step call

theorem Fresh.tracked (h : limiter.Fresh) (hlimit : limiter.limitFor provider = some limit) :
    Tracked provider limit.maxRequests limit.window [] 0 limiter [] := by
  have hempty := h.empty provider limit hlimit
  refine ⟨?_, Nat.zero_le _, .nil, ?_, fun _ => .refl _ [] 0, fun _ => .nil _ _⟩
  · rw [hlimit, ← hempty]
  · intro t ht
    exact absurd ht List.not_mem_nil

/-! ## Runs -/

/-- A provider with a limit, at any point of a run. -/
theorem Fresh.tracked_run {attempts : List (String × Nat)} (h : limiter.Fresh)
    (hlimit : limiter.limitFor provider = some limit)
    (hsorted : attempts.Pairwise fun first second => first.2 ≤ second.2)
    (hnow : ∀ attempt ∈ attempts, attempt.2 ≤ now) :
    ∃ timestamps, Tracked provider limit.maxRequests limit.window
      (grants provider limiter attempts) now (limiter.run attempts) timestamps :=
  (h.tracked hlimit).run hsorted (fun _ _ => Nat.zero_le _) hnow (Nat.zero_le now)

/-- Every run of attempts is over at some time. -/
theorem exists_finish (attempts : List (String × Nat)) :
    ∃ finish, ∀ attempt ∈ attempts, attempt.2 ≤ finish := by
  induction attempts with
  | nil => exact ⟨0, fun attempt hmem => absurd hmem List.not_mem_nil⟩
  | cons attempt rest ih =>
      obtain ⟨finish, hfinish⟩ := ih
      refine ⟨max attempt.2 finish, fun other hmem => ?_⟩
      rcases List.mem_cons.mp hmem with rfl | hrest
      · exact Nat.le_max_left _ _
      · exact Nat.le_trans (hfinish other hrest) (Nat.le_max_right _ _)

theorem Fresh.windowsHold {attempts : List (String × Nat)} (h : limiter.Fresh)
    (hsorted : attempts.Pairwise fun first second => first.2 ≤ second.2) :
    WindowsHold limiter attempts := by
  intro provider limit hlimit start
  obtain ⟨finish, hfinish⟩ := exists_finish attempts
  obtain ⟨timestamps, htracked⟩ := h.tracked_run hlimit hsorted hfinish
  exact htracked.countWithin_le start

/-- After the wait the oldest request has left the window, and there is room. -/
theorem granted_after_wait {maxRequests : UInt32} {window oldest : Nat} {rest : List Nat}
    (hunpoisoned : limiter.poisoned = false)
    (hevict : RateLimiter.evict now window timestamps = oldest :: rest) (hpast : oldest ≤ now)
    (hwithin : (oldest :: rest).length ≤ maxRequests.toNat) :
    ((limiter.setTimestamps provider ⟨maxRequests, window, timestamps⟩
        (oldest :: rest)).tryAcquire provider (now + (window - (now - oldest)))).1 =
      .granted := by
  have hinside : now - oldest < window := lt_of_evict_eq_cons hevict
  have hleft : RateLimiter.evict (now + (window - (now - oldest))) window (oldest :: rest) =
      RateLimiter.evict (now + (window - (now - oldest))) window rest := by
    rw [evict, if_pos (by omega)]
  have hroom := (evict_suffix (now + (window - (now - oldest))) window rest).length_le
  rw [List.length_cons] at hwithin
  have hfound : (limiter.setTimestamps provider ⟨maxRequests, window, timestamps⟩
      (oldest :: rest)).limitFor provider = some ⟨maxRequests, window, oldest :: rest⟩ :=
    limitFor_setTimestamps_self
  have hattempted := tryAcquire_attempted hfound (now + (window - (now - oldest)))
  generalize (limiter.setTimestamps provider ⟨maxRequests, window, timestamps⟩
    (oldest :: rest)).tryAcquire provider (now + (window - (now - oldest))) = result
    at hattempted ⊢
  cases hattempted with
  | poisoned hpoisoned => exact absurd hpoisoned (Bool.eq_false_iff.mp hunpoisoned)
  | granted hroom => rfl
  | blocked hblocked hempty =>
      have hzero : maxRequests.toNat = 0 := congrArg UInt32.toNat hblocked
      omega
  | waits next more hnext hfull =>
      have hsame : RateLimiter.evict (now + (window - (now - oldest))) window rest =
          next :: more := hleft.symm.trans hnext
      rw [hsame] at hroom
      have hmany : maxRequests.toNat ≤ (next :: more).length := hfull
      omega

/-- Whoever is told to wait is granted then. -/
theorem Tracked.answered {maxRequests : UInt32} {window last : Nat} {history : List Nat}
    (h : Tracked provider maxRequests window history last limiter timestamps)
    (hlast : last ≤ now) (hunpoisoned : limiter.poisoned = false) (hallowed : maxRequests ≠ 0) :
    Answered limiter (provider, now) := by
  have hattempted := tryAcquire_attempted h.found now
  obtain ⟨hwithin, -, hpast, -⟩ := h.evict hlast
  rw [Answered]
  generalize limiter.tryAcquire provider now = result at hattempted ⊢
  cases hattempted with
  | poisoned hpoisoned => exact absurd hpoisoned (Bool.eq_false_iff.mp hunpoisoned)
  | granted hroom => exact ⟨by simp, fun wait hwait => by cases hwait⟩
  | blocked hblocked hempty => exact absurd hblocked hallowed
  | waits oldest rest hevict hfull =>
      have hinside : now - oldest < window := lt_of_evict_eq_cons hevict
      refine ⟨by simp, fun wait hwait => ?_⟩
      obtain rfl := Acquired.wait.inj hwait
      refine ⟨Nat.sub_pos_of_lt hinside, ⟨_, h.found, Nat.sub_le _ _⟩, ?_⟩
      exact granted_after_wait hunpoisoned hevict (hpast oldest (hevict ▸ List.mem_cons_self))
        (hevict ▸ hwithin)

theorem tryAcquire_poisoned (hunpoisoned : limiter.poisoned = false)
    (hanswered : Answered limiter (provider, now)) :
    (limiter.tryAcquire provider now).2.poisoned = false := by
  have hnot := hanswered.1
  cases hlimit : limiter.limitFor provider with
  | none =>
      rw [tryAcquire_unlimited hunpoisoned hlimit]
      exact hunpoisoned
  | some limit =>
      have hattempted := tryAcquire_attempted hlimit now
      generalize limiter.tryAcquire provider now = result at hattempted hnot ⊢
      cases hattempted with
      | poisoned hpoisoned => exact absurd rfl hnot
      | granted hroom => exact hunpoisoned
      | blocked hblocked hempty => exact absurd rfl hnot
      | waits oldest rest hevict hfull => exact hunpoisoned

/-- A provider without a limit is always granted. -/
theorem answered_unlimited (hunpoisoned : limiter.poisoned = false)
    (hnone : limiter.limitFor provider = none) : Answered limiter (provider, now) := by
  rw [Answered, tryAcquire_unlimited hunpoisoned hnone]
  exact ⟨by simp, fun wait hwait => by cases hwait⟩

/-- An attempt for a provider that allows no request panics. -/
theorem Tracked.not_answered {window last : Nat} {history : List Nat}
    (h : Tracked provider 0 window history last limiter timestamps) :
    ¬ Answered limiter (provider, now) := by
  intro hanswered
  have hnot := hanswered.1
  have hattempted := tryAcquire_attempted h.found now
  have hempty : timestamps = [] := List.length_eq_zero_iff.mp (Nat.le_zero.mp h.within)
  generalize limiter.tryAcquire provider now = result at hattempted hnot
  cases hattempted with
  | poisoned hpoisoned => exact hnot rfl
  | granted hroom => exact absurd hroom (Nat.not_lt_zero _)
  | blocked hblocked hevict => exact hnot rfl
  | waits oldest rest hevict hfull =>
      subst hempty
      cases hevict

theorem Fresh.answered_run {attempts : List (String × Nat)} (h : limiter.Fresh)
    (hsorted : attempts.Pairwise fun first second => first.2 ≤ second.2)
    (hallowed : ∀ attempt ∈ attempts, ¬ Blocked limiter attempt.1) {pre : List (String × Nat)}
    {attempt : String × Nat} (hpre : pre ++ [attempt] <+: attempts)
    (hunpoisoned : (limiter.run pre).poisoned = false) :
    Answered (limiter.run pre) attempt := by
  have hshort := hsorted.sublist hpre.sublist
  obtain ⟨hbefore, -, hnow⟩ := List.pairwise_append.mp hshort
  cases hlimit : limiter.limitFor attempt.1 with
  | none => exact answered_unlimited hunpoisoned (limitFor_run_none hlimit)
  | some limit =>
      obtain ⟨timestamps, htracked⟩ := h.tracked_run hlimit hbefore
        fun other hother => hnow other hother attempt (List.mem_singleton_self attempt)
      apply htracked.answered (Nat.le_refl _) hunpoisoned
      intro hzero
      exact hallowed attempt (hpre.subset (by simp)) ⟨limit, hlimit, hzero⟩

theorem Fresh.unpoisoned_run {attempts : List (String × Nat)} (h : limiter.Fresh)
    (hsorted : attempts.Pairwise fun first second => first.2 ≤ second.2)
    (hallowed : ∀ attempt ∈ attempts, ¬ Blocked limiter attempt.1) {pre : List (String × Nat)}
    (hpre : pre <+: attempts) : (limiter.run pre).poisoned = false := by
  induction pre using List.reverseRecOn with
  | nil => exact h.unpoisoned
  | append_singleton pre attempt ih =>
      have hunpoisoned := ih ((List.prefix_append pre [attempt]).trans hpre)
      rw [run, List.foldl_concat]
      exact tryAcquire_poisoned hunpoisoned
        (h.answered_run hsorted hallowed hpre hunpoisoned)

/-- Under every configuration and for attempts at times that never go back: no window holds too
many grants, every wait is right, and no attempt panics, exactly if no attempt is made for a
provider that allows no request at all. -/
theorem limits_iff (calls : List LimitCall) {attempts : List (String × Nat)}
    (hsorted : attempts.Pairwise fun first second => first.2 ≤ second.2) :
    Limits (configured calls) attempts ↔
      ∀ attempt ∈ attempts, ¬ Blocked (configured calls) attempt.1 := by
  have hfresh := fresh_configured calls
  constructor
  · rintro ⟨-, hanswered⟩ attempt hmem ⟨limit, hlimit, hzero⟩
    obtain ⟨pre, post, rfl⟩ := List.append_of_mem hmem
    have hpre : pre ++ [attempt] <+: pre ++ attempt :: post := by simp
    obtain ⟨hbefore, -, hnow⟩ := List.pairwise_append.mp hsorted
    obtain ⟨timestamps, htracked⟩ := hfresh.tracked_run hlimit hbefore
      fun other hother => hnow other hother attempt List.mem_cons_self
    rw [hzero] at htracked
    exact htracked.not_answered (hanswered pre attempt hpre)
  · intro hallowed
    refine ⟨hfresh.windowsHold hsorted, fun pre attempt hpre => ?_⟩
    apply hfresh.answered_run hsorted hallowed hpre
    exact hfresh.unpoisoned_run hsorted hallowed ((List.prefix_append pre [attempt]).trans hpre)

/-- Two requests in ten nanoseconds, and a third one that has to wait. -/
theorem limits_three_attempts :
    Limits (configured [.setLimit "p" 2 10]) [("p", 0), ("p", 1), ("p", 2)] := by
  apply (limits_iff _ (by decide)).mpr
  rintro attempt hmem ⟨limit, hlimit, hzero⟩
  have hprovider : attempt.1 = "p" := by
    simp only [List.mem_cons, List.not_mem_nil, or_false] at hmem
    rcases hmem with rfl | rfl | rfl
    · rfl
    · rfl
    · rfl
  have hfound : (configured [.setLimit "p" 2 10]).limitFor "p" = some ⟨2, 10, []⟩ := rfl
  rw [hprovider, hfound] at hlimit
  obtain rfl := Option.some.inj hlimit
  exact absurd hzero (by decide)

/-- A limit of no requests is admitted, and the first attempt panics. -/
theorem blocked_panics :
    ((configured [.setLimit "p" 0 10]).tryAcquire "p" 0).1 = .panicked ∧
      ¬ Limits (configured [.setLimit "p" 0 10]) [("p", 0)] := by
  refine ⟨rfl, fun hlimits => ?_⟩
  exact (hlimits.2 [] ("p", 0) List.prefix_rfl).1 rfl

end RateLimiter

end Zeptobeam
