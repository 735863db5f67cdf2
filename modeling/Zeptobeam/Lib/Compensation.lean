/-
Fallible actions on a mutable state, run over a list of items: forward up to the
first failure, and back through the compensations of what was done.
-/
import Mathlib.Data.List.Basic

namespace Compensation

universe u v w

variable {S : Type u} {Item : Type v} {E : Type w}

/-- An action answers, and leaves the state it has worked on. -/
abbrev Action (S : Type u) (Item : Type v) (E : Type w) := Item → S → Except E Unit × S

/-- The action succeeds on each item in turn and leads from one state to the other. -/
inductive Performs (act : Action S Item E) : List Item → S → S → Prop
  | nil (s : S) : Performs act [] s s
  | cons {item : Item} {items : List Item} {s mid s' : S} :
      act item s = (.ok (), mid) → Performs act items mid s' →
      Performs act (item :: items) s s'

/-- Act on one item after the other, and stop at the first error. -/
def runAll (act : Action S Item E) : List Item → S → Except E Unit × S
  | [], s => (.ok (), s)
  | item :: items, s =>
      match act item s with
      | (.ok (), s) => runAll act items s
      | (.error e, s) => (.error e, s)

/-- Every item but those after `failed` was acted on, and `failed` answered `e`. -/
structure StopsAt (act : Action S Item E) (items : List Item) (s : S) (done : List Item)
    (failed : Item) (mid : S) (e : E) (s' : S) : Prop where
  front : done ++ [failed] <+: items
  performed : Performs act done s mid
  fails : act failed mid = (.error e, s')

variable {act undo : Action S Item E} {items done : List Item} {item : Item} {s mid s' : S}
  {e : E}

theorem performs_cons_iff :
    Performs act (item :: items) s s' ↔
      ∃ mid, act item s = (.ok (), mid) ∧ Performs act items mid s' := by
  constructor
  · intro h
    cases h with
    | cons hitem hitems => exact ⟨_, hitem, hitems⟩
  · rintro ⟨mid, hitem, hitems⟩
    exact .cons hitem hitems

theorem Performs.concat (h : Performs act items s mid) (hitem : act item mid = (.ok (), s')) :
    Performs act (items ++ [item]) s s' := by
  induction h with
  | nil s => exact .cons hitem (.nil s')
  | cons hfirst _ ih => exact .cons hfirst (ih hitem)

/-- Compensating in reverse order leads back to where the actions began. -/
theorem Performs.undone
    (hundo : ∀ item s s', act item s = (.ok (), s') → undo item s' = (.ok (), s))
    (h : Performs act items s s') : Performs undo items.reverse s' s := by
  induction h with
  | nil s => exact .nil s
  | cons hitem _ ih =>
      rw [List.reverse_cons]
      exact ih.concat (hundo _ _ _ hitem)

theorem runAll_eq_ok_iff : runAll act items s = (.ok (), s') ↔ Performs act items s s' := by
  induction items generalizing s with
  | nil =>
      constructor
      · intro h
        cases h
        exact .nil _
      · intro h
        cases h
        rfl
  | cons item items ih =>
      rw [performs_cons_iff, runAll]
      rcases hitem : act item s with ⟨_ | ⟨⟩, mid⟩
      · simp
      · simp [ih]

/-- A run that fails has acted on a first part of the items, and stopped behind it. -/
theorem runAll_eq_error_iff :
    runAll act items s = (.error e, s') ↔
      ∃ done failed mid, StopsAt act items s done failed mid e s' := by
  induction items generalizing s with
  | nil =>
      constructor
      · intro h
        cases h
      · rintro ⟨done, failed, mid, hfront, -, -⟩
        simp at hfront
  | cons item items ih =>
      rw [runAll]
      rcases hitem : act item s with ⟨e' | ⟨⟩, first⟩
      · constructor
        · intro h
          cases h
          exact ⟨[], item, s, by simp, .nil s, hitem⟩
        · rintro ⟨done, failed, mid, hfront, hdone, hfailed⟩
          cases hdone with
          | nil =>
              obtain rfl : failed = item := by simpa using hfront
              rw [hitem] at hfailed
              exact hfailed
          | cons hfirst _ =>
              obtain ⟨rfl, -⟩ := List.cons_prefix_cons.mp hfront
              rw [hitem] at hfirst
              cases hfirst
      · simp only [ih]
        constructor
        · rintro ⟨done, failed, mid, hfront, hdone, hfailed⟩
          exact ⟨item :: done, failed, mid, List.cons_prefix_cons.mpr ⟨rfl, hfront⟩,
            .cons hitem hdone, hfailed⟩
        · rintro ⟨done, failed, mid, hfront, hdone, hfailed⟩
          cases hdone with
          | nil =>
              obtain rfl : failed = item := by simpa using hfront
              rw [hitem] at hfailed
              cases hfailed
          | cons hfirst hrest =>
              obtain ⟨rfl, htail⟩ := List.cons_prefix_cons.mp hfront
              rw [hitem] at hfirst
              cases hfirst
              exact ⟨_, failed, mid, htail, hrest, hfailed⟩

end Compensation
