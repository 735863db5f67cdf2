/-
Computations with a state that may stop, and are given fuel.  With enough fuel a
computation comes to one result, or goes on failing in ways that are not admitted.  What
it takes to end well is drawn back from the last part of a computation to its first one.
-/
import Zeptobeam.Lib.StateExcept

namespace FuelledState

universe u

variable {S E α β : Type u}

/-- With enough fuel the computation comes to the result. -/
def Comes (x : Nat → StateT S (Except E) α) (s : S) (result : Except E (α × S)) : Prop :=
  ∃ least, ∀ fuel, least ≤ fuel → x fuel s = result

/-- With enough fuel every failure is one that is not admitted. -/
def Fails (admitted : E → Prop) (x : Nat → StateT S (Except E) α) (s : S) : Prop :=
  ∃ least, ∀ fuel, least ≤ fuel → ∃ e, ¬ admitted e ∧ x fuel s = .error e

/-- More fuel does not change forever what the computation does. -/
inductive Decided (admitted : E → Prop) (x : Nat → StateT S (Except E) α) (s : S) : Prop where
  | comes (result : Except E (α × S)) (h : Comes x s result)
  | fails (h : Fails admitted x s)

/-- The result is an admitted failure, or one that the postcondition holds of. -/
def Admits (admitted : E → Prop) (post : α → S → Prop) : Except E (α × S) → Prop
  | .error e => admitted e
  | .ok (a, s) => post a s

/-- The computation comes to a result of this kind. -/
def Answers (admitted : E → Prop) (x : Nat → StateT S (Except E) α) (s : S)
    (post : α → S → Prop) : Prop :=
  ∃ result, Comes x s result ∧ Admits admitted post result

variable {admitted : E → Prop} {x : Nat → StateT S (Except E) α}
  {f : Nat → α → StateT S (Except E) β} {s : S} {post post' : α → S → Prop}

theorem Comes.unique {result result' : Except E (α × S)} (h : Comes x s result)
    (h' : Comes x s result') : result = result' := by
  obtain ⟨least, h⟩ := h
  obtain ⟨least', h'⟩ := h'
  exact (h (max least least') (by omega)).symm.trans (h' (max least least') (by omega))

theorem comes_const (x : StateT S (Except E) α) (s : S) : Comes (fun _ => x) s (x s) :=
  ⟨0, fun _ _ => rfl⟩

theorem comes_succ_iff {result : Except E (α × S)} :
    Comes (fun fuel => x (fuel + 1)) s result ↔ Comes x s result := by
  constructor
  · rintro ⟨least, h⟩
    refine ⟨least + 1, fun fuel hfuel => ?_⟩
    obtain ⟨fuel, rfl⟩ := Nat.exists_eq_add_of_le' (Nat.one_le_of_lt hfuel)
    exact h fuel (by omega)
  · rintro ⟨least, h⟩
    exact ⟨least, fun fuel hfuel => h (fuel + 1) (by omega)⟩

theorem Comes.bind {a : α} {s' : S} {result : Except E (β × S)}
    (h : Comes x s (.ok (a, s'))) (hf : Comes (fun fuel => f fuel a) s' result) :
    Comes (fun fuel => x fuel >>= f fuel) s result := by
  obtain ⟨least, h⟩ := h
  obtain ⟨least', hf⟩ := hf
  refine ⟨max least least', fun fuel hfuel => ?_⟩
  exact (StateExcept.bind_eq_of_ok (h fuel (by omega))).trans (hf fuel (by omega))

theorem Comes.bind_error {e : E} (h : Comes x s (.error e)) :
    Comes (fun fuel => x fuel >>= f fuel) s (.error e) := by
  obtain ⟨least, h⟩ := h
  exact ⟨least, fun fuel hfuel => StateExcept.bind_eq_of_error (h fuel hfuel)⟩

theorem Comes.of_bind {a : α} {s' : S} {result : Except E (β × S)}
    (h : Comes (fun fuel => x fuel >>= f fuel) s result) (hx : Comes x s (.ok (a, s'))) :
    Comes (fun fuel => f fuel a) s' result := by
  obtain ⟨least, h⟩ := h
  obtain ⟨least', hx⟩ := hx
  refine ⟨max least least', fun fuel hfuel => ?_⟩
  exact (StateExcept.bind_eq_of_ok (hx fuel (by omega))).symm.trans (h fuel (by omega))

/-! ## Computations that are decided -/

theorem decided_const (x : StateT S (Except E) α) (s : S) :
    Decided admitted (fun _ => x) s :=
  .comes _ (comes_const x s)

theorem Fails.bind (h : Fails admitted x s) :
    Fails admitted (fun fuel => x fuel >>= f fuel) s := by
  obtain ⟨least, h⟩ := h
  refine ⟨least, fun fuel hfuel => ?_⟩
  obtain ⟨e, he, hx⟩ := h fuel hfuel
  exact ⟨e, he, StateExcept.bind_eq_of_error hx⟩

theorem Fails.bind_of_comes {a : α} {s' : S} (hx : Comes x s (.ok (a, s')))
    (hf : Fails admitted (fun fuel => f fuel a) s') :
    Fails admitted (fun fuel => x fuel >>= f fuel) s := by
  obtain ⟨least, hx⟩ := hx
  obtain ⟨least', hf⟩ := hf
  refine ⟨max least least', fun fuel hfuel => ?_⟩
  obtain ⟨e, he, hfa⟩ := hf fuel (by omega)
  exact ⟨e, he, (StateExcept.bind_eq_of_ok (hx fuel (by omega))).trans hfa⟩

theorem Decided.bind (h : Decided admitted x s)
    (hf : ∀ a s', Comes x s (.ok (a, s')) → Decided admitted (fun fuel => f fuel a) s') :
    Decided admitted (fun fuel => x fuel >>= f fuel) s := by
  cases h with
  | fails h => exact .fails h.bind
  | comes result h =>
      cases result with
      | error e => exact .comes _ h.bind_error
      | ok p =>
          cases hf p.1 p.2 h with
          | comes result hfa => exact .comes _ (h.bind hfa)
          | fails hfa => exact .fails (hfa.bind_of_comes h)

/-- A computation that more fuel leaves as it is, unless it ran out of fuel. -/
theorem decided_of_agrees {outOfFuel : E} (hout : ¬ admitted outOfFuel)
    (h : ∀ fuel, x fuel s = .error outOfFuel ∨ x fuel s = x (fuel + 1) s) :
    Decided admitted x s := by
  by_cases hfuel : ∃ fuel, x fuel s ≠ .error outOfFuel
  · obtain ⟨least, hne⟩ := hfuel
    refine .comes (x least s) ⟨least, fun fuel hle => ?_⟩
    induction hle with
    | refl => rfl
    | @step fuel _ ih =>
        rw [← ih]
        refine ((h fuel).resolve_left fun heq => ?_).symm
        exact hne (ih.symm.trans heq)
  · refine .fails ⟨0, fun fuel _ => ⟨outOfFuel, hout, ?_⟩⟩
    exact Classical.byContradiction fun hne => hfuel ⟨fuel, hne⟩

/-! ## What it takes to answer -/

theorem answers_of_comes {result : Except E (α × S)} (h : Comes x s result) :
    Answers admitted x s post ↔ Admits admitted post result := by
  constructor
  · rintro ⟨result', h', hadmits⟩
    rwa [h.unique h']
  · exact fun hadmits => ⟨result, h, hadmits⟩

theorem answers_const {x : StateT S (Except E) α} :
    Answers admitted (fun _ => x) s post ↔ Admits admitted post (x s) :=
  answers_of_comes (comes_const x s)

theorem answers_pure {a : α} : Answers admitted (fun _ => pure a) s post ↔ post a s :=
  answers_const

theorem answers_succ_iff :
    Answers admitted (fun fuel => x (fuel + 1)) s post ↔ Answers admitted x s post := by
  simp only [Answers, comes_succ_iff]

theorem Fails.not_answers (h : Fails admitted x s) : ¬ Answers admitted x s post := by
  rintro ⟨result, ⟨least', hcomes⟩, hadmits⟩
  obtain ⟨least, h⟩ := h
  obtain ⟨e, he, hx⟩ := h (max least least') (by omega)
  rw [← hcomes (max least least') (by omega), hx] at hadmits
  exact he hadmits

/-- Computations that do the same. -/
theorem answers_of_eq {y : Nat → StateT S (Except E) α} {s' : S}
    (h : ∀ fuel, x fuel s = y fuel s') :
    Answers admitted x s post ↔ Answers admitted y s' post := by
  simp only [Answers, Comes, h]

/-- It only matters what holds of the results. -/
theorem answers_congr_of_comes
    (hiff : ∀ a s', Comes x s (.ok (a, s')) → (post a s' ↔ post' a s')) :
    Answers admitted x s post ↔ Answers admitted x s post' := by
  refine exists_congr fun result => and_congr_right fun hcomes => ?_
  cases result with
  | error e => rfl
  | ok p => exact hiff p.1 p.2 hcomes

theorem answers_congr (hiff : ∀ a s', post a s' ↔ post' a s') :
    Answers admitted x s post ↔ Answers admitted x s post' :=
  answers_congr_of_comes fun a s' _ => hiff a s'

/-- One computation after the other answers if the first one does, and leaves what it
takes for the second one to answer. -/
theorem answers_bind {post : β → S → Prop} (h : Decided admitted x s) :
    Answers admitted (fun fuel => x fuel >>= f fuel) s post ↔
      Answers admitted x s fun a s' => Answers admitted (fun fuel => f fuel a) s' post := by
  cases h with
  | fails h => exact iff_of_false h.bind.not_answers h.not_answers
  | comes result h =>
      rw [answers_of_comes h]
      cases result with
      | error e => exact answers_of_comes h.bind_error
      | ok p =>
          constructor
          · rintro ⟨result, hcomes, hadmits⟩
            exact ⟨result, hcomes.of_bind h, hadmits⟩
          · rintro ⟨result, hcomes, hadmits⟩
            exact ⟨result, h.bind hcomes, hadmits⟩

end FuelledState
