/-
Positions of a run seen from a later one: something happened, and something else has not
happened since.  A part of a state that one kind of event sets and another one clears holds
exactly when it was set and not cleared since.
-/
import Mathlib.Logic.Basic
import Mathlib.Order.Basic
import Mathlib.Data.Nat.Init

namespace PastTime

variable {P Q : Nat → Prop} {i : Nat}

/-- `P` held at a position before `i`, and `Q` at none after it. -/
def Since (P Q : Nat → Prop) (i : Nat) : Prop :=
  ∃ l, l < i ∧ P l ∧ ∀ j, l < j → j < i → ¬ Q j

theorem not_since_zero : ¬ Since P Q 0 := by
  rintro ⟨l, hl, -⟩
  exact Nat.not_lt_zero l hl

theorem since_succ : Since P Q (i + 1) ↔ P i ∨ (Since P Q i ∧ ¬ Q i) := by
  constructor
  · rintro ⟨l, hl, hP, hQ⟩
    rcases Nat.lt_succ_iff_lt_or_eq.mp hl with hlt | rfl
    · right
      refine ⟨⟨l, hlt, hP, fun j hlj hji => hQ j hlj (Nat.lt_succ_of_lt hji)⟩, ?_⟩
      exact hQ i hlt (Nat.lt_succ_self i)
    · exact .inl hP
  · rintro (hP | ⟨⟨l, hl, hP, hQ⟩, hnot⟩)
    · exact ⟨i, Nat.lt_succ_self i, hP, fun j hij hji => absurd hij (Nat.not_lt.mpr
        (Nat.le_of_lt_succ hji))⟩
    · refine ⟨l, Nat.lt_succ_of_lt hl, hP, fun j hlj hji => ?_⟩
      rcases Nat.lt_succ_iff_lt_or_eq.mp hji with hlt | rfl
      · exact hQ j hlj hlt
      · exact hnot

/-- What `P` sets and `Q` clears. -/
theorem iff_since (holds : Nat → Prop) (hzero : ¬ holds 0)
    (hsucc : ∀ i, holds (i + 1) ↔ P i ∨ (holds i ∧ ¬ Q i)) (i : Nat) :
    holds i ↔ Since P Q i := by
  induction i with
  | zero => exact iff_of_false hzero not_since_zero
  | succ i ih => rw [hsucc, since_succ, ih]

end PastTime
