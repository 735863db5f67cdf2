/-
A log of times that is pruned as time passes.  What is left of it counts, at every later
time, exactly what the whole history would; and a bound on what counts when an entry is
made bounds every window of that length.
-/
import Mathlib.Data.List.Basic

namespace SlidingWindow

/-- The entries that still count. -/
def within (window now : Nat) (times : List Nat) : List Nat :=
  times.filter fun t => now - t ≤ window

/-- The entries of the window that begins at a time. -/
def inWindow (window «from» : Nat) (times : List Nat) : List Nat :=
  times.filter fun t => «from» ≤ t ∧ t ≤ «from» + window

/-- From now on the pruned log counts as the history does. -/
def Stands (window : Nat) (history kept : List Nat) (now : Nat) : Prop :=
  ∀ later, now ≤ later → within window later kept = within window later history

theorem Stands.refl (window : Nat) (history : List Nat) (now : Nat) :
    Stands window history history now :=
  fun _ _ => rfl

theorem Stands.later {window now later : Nat} {history kept : List Nat}
    (h : Stands window history kept now) (hle : now ≤ later) :
    Stands window history kept later :=
  fun last hlast => h last (Nat.le_trans hle hlast)

/-- What counts later counts now. -/
theorem within_within {window now later : Nat} (hle : now ≤ later) (times : List Nat) :
    within window later (within window now times) = within window later times := by
  rw [within, within, List.filter_filter, within]
  apply List.filter_congr
  intro t _
  rw [← Bool.decide_and, decide_eq_decide]
  exact and_iff_left_of_imp fun hlater => Nat.le_trans (Nat.sub_le_sub_right hle t) hlater

theorem within_append (window now : Nat) (times more : List Nat) :
    within window now (times ++ more) = within window now times ++ within window now more :=
  List.filter_append _ _

/-- An entry is made, and the log is pruned. -/
theorem Stands.record {window now : Nat} {history kept : List Nat}
    (h : Stands window history kept now) :
    Stands window (history ++ [now]) (within window now (kept ++ [now])) now := by
  intro later hlater
  rw [within_within hlater, within_append, h later hlater, within_append]

/-- The log is pruned, and no entry is made. -/
theorem Stands.prune {window now : Nat} {history kept : List Nat}
    (h : Stands window history kept now) :
    Stands window history (within window now kept) now := by
  intro later hlater
  rw [within_within hlater, h later hlater]

/-- The log counts what the history does when an entry is made. -/
theorem Stands.counts {window now : Nat} {history kept : List Nat}
    (h : Stands window history kept now) :
    within window now (kept ++ [now]) = within window now (history ++ [now]) := by
  rw [within_append, h now (Nat.le_refl now), within_append]

/-- No window holds more entries than the bound. -/
def Bounded (window max : Nat) (history : List Nat) : Prop :=
  ∀ start, (inWindow window start history).length ≤ max

theorem Bounded.nil (window max : Nat) : Bounded window max [] :=
  fun _ => Nat.zero_le _

/-- Entries that are made only within the bound keep it. -/
theorem Bounded.record {window max now : Nat} {history : List Nat}
    (h : Bounded window max history)
    (hcount : (within window now (history ++ [now])).length ≤ max) :
    Bounded window max (history ++ [now]) := by
  intro start
  by_cases hin : start ≤ now ∧ now ≤ start + window
  · -- whatever lies in a window that holds the new entry still counts
    have hsub : (inWindow window start (history ++ [now])).Sublist
        (within window now (history ++ [now])) := by
      apply List.monotone_filter_right
      intro t ht
      rw [decide_eq_true_eq] at ht ⊢
      omega
    exact Nat.le_trans hsub.length_le hcount
  · have hsame : inWindow window start (history ++ [now]) = inWindow window start history := by
      rw [inWindow, List.filter_append, List.filter_cons_of_neg (by simpa using hin)]
      exact List.append_nil _
    rw [hsame]
    exact h start

end SlidingWindow
