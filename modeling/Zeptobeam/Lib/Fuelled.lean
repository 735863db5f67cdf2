/-
Functions that are given fuel, which bounds the rounds of a loop.  A function settles on a
value if it returns that value with any fuel from some amount on: the loop ends, and what
it returns does not depend on the bound.
-/
import Mathlib.Logic.Basic
import Mathlib.Order.Basic

namespace Fuelled

universe u v w

variable {E : Type u} {A : Type v} {K : Type w}

/-- With enough fuel the function returns the value. -/
def Settles (f : Nat → Except E A) (a : A) : Prop :=
  ∃ least, ∀ fuel, least ≤ fuel → f fuel = .ok a

theorem Settles.unique {f : Nat → Except E A} {a b : A} (ha : Settles f a)
    (hb : Settles f b) : a = b := by
  obtain ⟨least, ha⟩ := ha
  obtain ⟨least', hb⟩ := hb
  have h := (ha (max least least') (by omega)).symm.trans (hb (max least least') (by omega))
  exact Except.ok.inj h

/-- Finitely many functions settle together. -/
theorem exists_least {f : K → Nat → Except E A} {value : K → A} {items : List K}
    (h : ∀ x ∈ items, Settles (f x) (value x)) :
    ∃ least, ∀ fuel, least ≤ fuel → ∀ x ∈ items, f x fuel = .ok (value x) := by
  induction items with
  | nil => exact ⟨0, fun _ _ x hx => absurd hx List.not_mem_nil⟩
  | cons x items ih =>
      obtain ⟨least, hleast⟩ := h x List.mem_cons_self
      obtain ⟨least', hleast'⟩ := ih fun y hy => h y (List.mem_cons_of_mem x hy)
      refine ⟨max least least', fun fuel hfuel y hy => ?_⟩
      rcases List.mem_cons.mp hy with rfl | hy
      · exact hleast fuel (by omega)
      · exact hleast' fuel (by omega) y hy

/-- A function that fails with any fuel from some amount on does not settle. -/
theorem not_settles {f : Nat → Except E A} {least : Nat}
    (h : ∀ fuel, least ≤ fuel → ∃ e, f fuel = .error e) (a : A) : ¬ Settles f a := by
  rintro ⟨least', hsettles⟩
  obtain ⟨e, he⟩ := h (max least least') (by omega)
  rw [hsettles (max least least') (by omega)] at he
  cases he

open Classical in
/-- What the function settles on. -/
noncomputable def settled (f : Nat → Except E A) : Option A :=
  if h : ∃ a, Settles f a then some h.choose else none

theorem settled_eq_some_iff {f : Nat → Except E A} {a : A} :
    settled f = some a ↔ Settles f a := by
  unfold settled
  split
  next h =>
    constructor
    · intro heq
      rw [← Option.some.inj heq]
      exact h.choose_spec
    · intro ha
      rw [h.choose_spec.unique ha]
  next h =>
    constructor
    · intro heq
      cases heq
    · intro ha
      exact absurd ⟨a, ha⟩ h

theorem settled_eq_none_iff {f : Nat → Except E A} :
    settled f = none ↔ ∀ a, ¬ Settles f a := by
  rw [Option.eq_none_iff_forall_not_mem]
  simp only [Option.mem_def, settled_eq_some_iff]

/-! ## Functions that keep what they return -/

/-- What the function returns it returns with more fuel as well. -/
def Keeps (f : Nat → Except E A) : Prop :=
  ∀ fuel a, f fuel = .ok a → f (fuel + 1) = .ok a

theorem Keeps.settles {f : Nat → Except E A} (hf : Keeps f) {fuel : Nat} {a : A}
    (h : f fuel = .ok a) : Settles f a := by
  refine ⟨fuel, fun more hmore => ?_⟩
  induction hmore with
  | refl => exact h
  | step _ ih => exact hf _ a ih

/-- A function that settles on nothing never returns. -/
theorem Keeps.error_of_settled_eq_none {f : Nat → Except E A} (hf : Keeps f)
    (h : settled f = none) (fuel : Nat) : ∃ e, f fuel = .error e := by
  cases hfuel : f fuel with
  | error e => exact ⟨e, rfl⟩
  | ok a => exact absurd (hf.settles hfuel) (settled_eq_none_iff.mp h a)

/-- What two functions settle on in turn. -/
theorem Keeps.settles_bind_iff {B : Type v} {f : Nat → Except E A} {g : A → Nat → Except E B}
    {b : B} (hf : Keeps f) :
    Settles (fun fuel => f fuel >>= fun a => g a fuel) b ↔
      ∃ a, Settles f a ∧ Settles (g a) b := by
  constructor
  · rintro ⟨least, hleast⟩
    cases hfirst : f least with
    | error e =>
        have h := hleast least (Nat.le_refl least)
        simp [hfirst, bind, Except.bind] at h
    | ok a =>
        obtain ⟨enough, ha⟩ := hf.settles hfirst
        refine ⟨a, ⟨enough, ha⟩, max least enough, fun fuel hfuel => ?_⟩
        have h := hleast fuel (by omega)
        simpa only [ha fuel (by omega), bind, Except.bind] using h
  · rintro ⟨a, ⟨least, ha⟩, least', hb⟩
    refine ⟨max least least', fun fuel hfuel => ?_⟩
    simp only [ha fuel (by omega), bind, Except.bind]
    exact hb fuel (by omega)

/-- A computation that needs no fuel. -/
theorem settles_const_iff {x : Except E A} {a : A} : Settles (fun _ => x) a ↔ x = .ok a :=
  ⟨fun ⟨least, h⟩ => h least (Nat.le_refl least), fun h => ⟨0, fun _ _ => h⟩⟩

theorem settles_const_bind_iff {B : Type v} {x : Except E A} {g : A → Nat → Except E B} {b : B} :
    Settles (fun fuel => x >>= fun a => g a fuel) b ↔ ∃ a, x = .ok a ∧ Settles (g a) b := by
  have hx : Keeps fun _ => x := fun _ _ h => h
  simp only [hx.settles_bind_iff, settles_const_iff]

/-! ## Functions that run out of any fuel -/

/-- With enough fuel the function returns the value, or, if there is none, it always fails
in the given way. -/
def ComesTo (f : Nat → Except E A) (outOfFuel : E) (value : Option A) : Prop :=
  ∃ least, ∀ fuel, least ≤ fuel → f fuel = value.elim (.error outOfFuel) .ok

variable {f : Nat → Except E A} {outOfFuel : E} {value : Option A}

theorem ComesTo.settled_eq (h : ComesTo f outOfFuel value) : settled f = value := by
  obtain ⟨least, hleast⟩ := h
  cases value with
  | none =>
      rw [settled_eq_none_iff]
      exact not_settles fun fuel hfuel => ⟨outOfFuel, hleast fuel hfuel⟩
  | some a =>
      rw [settled_eq_some_iff]
      exact ⟨least, hleast⟩

/-- What is made of the value without fuel. -/
theorem ComesTo.bind {B : Type v} (h : ComesTo f outOfFuel value) {g : A → Except E B}
    {k : A → B} (hg : ∀ a, value = some a → g a = .ok (k a)) :
    ComesTo (fun fuel => f fuel >>= g) outOfFuel (value.map k) := by
  obtain ⟨least, hleast⟩ := h
  refine ⟨least, fun fuel hfuel => ?_⟩
  simp only [hleast fuel hfuel]
  cases value with
  | none => rfl
  | some a => exact hg a rfl

end Fuelled
