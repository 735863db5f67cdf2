/-
Retries: a strategy, and the attempts counted for each task.  The counter is a `u32` that
wraps, as it does in a release build.
-/
import Zeptobeam.Types
import Mathlib.Data.List.AList

namespace Zeptobeam

inductive RetryStrategy where
  | none
  | immediate (maxAttempts : Nat)
  | backoff (maxAttempts baseMs maxMs : Nat)
  | skip
deriving DecidableEq, Repr

structure RetryTracker where
  attempts : AList fun _ : String => Nat
  defaultStrategy : RetryStrategy
  perTask : AList fun _ : String => RetryStrategy

namespace RetryTracker

def new (defaultStrategy : RetryStrategy) : RetryTracker := ⟨∅, defaultStrategy, ∅⟩

def setTaskStrategy (tracker : RetryTracker) (taskId : String) (strategy : RetryStrategy) :
    RetryTracker :=
  { tracker with perTask := tracker.perTask.insert taskId strategy }

def attemptCount (tracker : RetryTracker) (taskId : String) : Nat :=
  (tracker.attempts.lookup taskId).getD 0

/-- `*count += 1`. -/
def countAttempt (tracker : RetryTracker) (taskId : String) : RetryTracker :=
  { tracker with
    attempts := tracker.attempts.insert taskId ((tracker.attemptCount taskId + 1) % 2 ^ 32) }

def saturate (n : Nat) : Nat := min n (2 ^ 64 - 1)

/-- The delay of a retry, in milliseconds, or `none` when there is no further one. -/
def shouldRetry (tracker : RetryTracker) (taskId : String) : Option Nat × RetryTracker :=
  match (tracker.perTask.lookup taskId).getD tracker.defaultStrategy with
  | .none => (.none, tracker)
  | .skip => (.none, tracker)
  | .immediate maxAttempts =>
      let tracker := tracker.countAttempt taskId
      (if tracker.attemptCount taskId ≤ maxAttempts then some 0 else .none, tracker)
  | .backoff maxAttempts baseMs maxMs =>
      let tracker := tracker.countAttempt taskId
      let exponent := (tracker.attemptCount taskId + (2 ^ 32 - 1)) % 2 ^ 32
      let delay := saturate (baseMs * saturate (2 ^ exponent))
      (if tracker.attemptCount taskId ≤ maxAttempts then some (min delay maxMs) else .none,
        tracker)

end RetryTracker

end Zeptobeam
