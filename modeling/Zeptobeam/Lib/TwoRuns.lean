/-
Two computations with states, run side by side.  They are alike when related states make
them end in the same way, with related values, and in related states.  So with two machines
that take the same operations: when related states answer alike and stay related, the
machines answer alike over whole runs.
-/
import Zeptobeam.Lib.StateExcept
import Mathlib.Data.List.Forall2

namespace TwoRuns

open ExceptState

universe u

variable {S T E α β γ δ : Type u}

/-- Both return, with related values, or both stop for the same reason. -/
def SameEnd (V : α → β → Prop) : Except E α → Except E β → Prop
  | .ok a, .ok b => V a b
  | .error e, .error e' => e = e'
  | _, _ => False

theorem sameEnd_eq {a b : Except E α} (h : SameEnd Eq a b) : a = b := by
  cases a with
  | error e =>
      cases b with
      | error e' => exact congrArg _ h
      | ok b => exact h.elim
  | ok a =>
      cases b with
      | error e' => exact h.elim
      | ok b => exact congrArg _ h

def RunsAlike (R : S → T → Prop) (V : α → β → Prop) (x : ExceptT E (StateM S) α)
    (y : ExceptT E (StateM T) β) : Prop :=
  ∀ s t, R s t → SameEnd V (run x s).1 (run y t).1 ∧ R (run x s).2 (run y t).2

namespace RunsAlike

variable {R : S → T → Prop} {V : α → β → Prop} {W : γ → δ → Prop}
  {x x' : ExceptT E (StateM S) α} {y y' : ExceptT E (StateM T) β}
  {f : α → ExceptT E (StateM S) γ} {g : β → ExceptT E (StateM T) δ}

theorem pure {a : α} {b : β} (h : V a b) :
    RunsAlike R V (Pure.pure a : ExceptT E (StateM S) α) (Pure.pure b : ExceptT E (StateM T) β) :=
  fun _ _ hst => ⟨h, hst⟩

theorem throw (e : E) :
    RunsAlike R V (MonadExcept.throw e : ExceptT E (StateM S) α)
      (MonadExcept.throw e : ExceptT E (StateM T) β) :=
  fun _ _ hst => ⟨rfl, hst⟩

theorem get : RunsAlike R R (MonadState.get : ExceptT E (StateM S) S)
    (MonadState.get : ExceptT E (StateM T) T) :=
  fun _ _ hst => ⟨hst, hst⟩

theorem set {s : S} {t : T} (h : R s t) :
    RunsAlike R Eq (MonadStateOf.set s : ExceptT E (StateM S) PUnit)
      (MonadStateOf.set t : ExceptT E (StateM T) PUnit) :=
  fun _ _ _ => ⟨rfl, h⟩

theorem update {change : S → S} {change' : T → T}
    (h : ∀ s t, R s t → R (change s) (change' t)) :
    RunsAlike R Eq (modify change : ExceptT E (StateM S) PUnit)
      (modify change' : ExceptT E (StateM T) PUnit) :=
  fun s t hst => ⟨rfl, h s t hst⟩

/-- The second parts are alike for values that the first parts may return. -/
theorem bind (hx : RunsAlike R V x y) (hf : ∀ a b, V a b → RunsAlike R W (f a) (g b)) :
    RunsAlike R W (x >>= f) (y >>= g) := by
  intro s t hst
  obtain ⟨hend, hafter⟩ := hx s t hst
  cases hrun : run x s with
  | mk result s' =>
      cases hrun' : run y t with
      | mk result' t' =>
          rw [hrun, hrun'] at hend hafter
          cases result with
          | error e =>
              cases result' with
              | error e' =>
                  rw [run_bind_error hrun, run_bind_error hrun']
                  exact ⟨hend, hafter⟩
              | ok b => exact hend.elim
          | ok a =>
              cases result' with
              | error e' => exact hend.elim
              | ok b =>
                  rw [run_bind_ok hrun, run_bind_ok hrun']
                  exact hf a b hend s' t' hafter

/-- Both parts return the same value. -/
theorem bind_eq {f : α → ExceptT E (StateM S) γ} {g : α → ExceptT E (StateM T) δ}
    {y : ExceptT E (StateM T) α} (hx : RunsAlike R Eq x y)
    (hf : ∀ a, RunsAlike R W (f a) (g a)) :
    RunsAlike R W (x >>= f) (y >>= g) := by
  apply hx.bind
  rintro a _ rfl
  exact hf a

theorem ite {c : Prop} [Decidable c] (hx : RunsAlike R V x y) (hx' : RunsAlike R V x' y') :
    RunsAlike R V (if c then x else x') (if c then y else y') := by
  by_cases h : c
  · rw [if_pos h, if_pos h]
    exact hx
  · rw [if_neg h, if_neg h]
    exact hx'

end RunsAlike

/-! ## Registers -/

variable {R : α → α → Prop} {l l' : List α}

theorem forall₂_set (h : List.Forall₂ R l l') {v v' : α} (hv : R v v') (n : Nat) :
    List.Forall₂ R (l.set n v) (l'.set n v') := by
  induction h generalizing n with
  | nil => exact .nil
  | cons hxy hrest ih =>
      cases n with
      | zero => exact .cons hv hrest
      | succ n => exact .cons hxy (ih n)

theorem forall₂_getElem? (h : List.Forall₂ R l l') (n : Nat) :
    Option.Rel R l[n]? l'[n]? := by
  induction h generalizing n with
  | nil => exact .none
  | cons hxy _ ih =>
      cases n with
      | zero => exact .some hxy
      | succ n => exact ih n

end TwoRuns

namespace Lockstep

universe u v w

variable {S T : Type u} {Op : Type v} {A B : Type w}

/-- The answers to a list of operations, in their order. -/
def answers (step : S → Op → A × S) : S → List Op → List A
  | _, [] => []
  | s, op :: ops => (step s op).1 :: answers step (step s op).2 ops

/-- The state behind a list of operations. -/
def final (step : S → Op → A × S) (s : S) (ops : List Op) : S :=
  ops.foldl (fun s op => (step s op).2) s

/-- One operation on related states gives answers alike and related states. -/
def Steps (step : S → Op → A × S) (step' : T → Op → B × T) (Alike : A → B → Prop)
    (Rel : S → T → Prop) : Prop :=
  ∀ s t op, Rel s t → Alike (step s op).1 (step' t op).1 ∧ Rel (step s op).2 (step' t op).2

variable {step : S → Op → A × S} {step' : T → Op → B × T} {Alike : A → B → Prop}
  {Rel : S → T → Prop} {s : S} {t : T}

theorem Steps.final (h : Steps step step' Alike Rel) (hst : Rel s t) (ops : List Op) :
    Rel (Lockstep.final step s ops) (Lockstep.final step' t ops) := by
  induction ops generalizing s t with
  | nil => exact hst
  | cons op ops ih => exact ih (h s t op hst).2

theorem Steps.answers (h : Steps step step' Alike Rel) (hst : Rel s t) (ops : List Op) :
    List.Forall₂ Alike (Lockstep.answers step s ops) (Lockstep.answers step' t ops) := by
  induction ops generalizing s t with
  | nil => exact .nil
  | cons op ops ih => exact .cons (h s t op hst).1 (ih (h s t op hst).2)

end Lockstep
