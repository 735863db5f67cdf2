/-
Computations with a state that may stop, and lose the state then or keep it: how a computation
made of two parts ends, from how its parts end.
-/

/-! ## The state is lost -/

namespace StateExcept

universe u

variable {S E α β : Type u} {x : StateT S (Except E) α} {f : α → StateT S (Except E) β}
  {s s' : S}

theorem bind_eq_of_ok {a : α} (hx : x s = .ok (a, s')) : (x >>= f) s = f a s' := by
  change (x s >>= fun p => f p.1 p.2) = f a s'
  rw [hx]
  rfl

/-- A computation returns when its first part does, and its second part after that. -/
theorem returns_bind {a : α} (hx : x s = .ok (a, s')) (hf : ∃ r, f a s' = .ok r) :
    ∃ r, (x >>= f) s = .ok r := by
  rwa [bind_eq_of_ok hx]

theorem bind_eq_of_error {e : E} (hx : x s = .error e) : (x >>= f) s = .error e := by
  change (x s >>= fun p => f p.1 p.2) = .error e
  rw [hx]
  rfl

theorem bind_eq_ok_iff {b : β} {s'' : S} :
    (x >>= f) s = .ok (b, s'') ↔ ∃ a s', x s = .ok (a, s') ∧ f a s' = .ok (b, s'') := by
  constructor
  · intro h
    cases hx : x s with
    | error e =>
        rw [bind_eq_of_error hx] at h
        cases h
    | ok p =>
        rw [bind_eq_of_ok hx] at h
        exact ⟨p.1, p.2, rfl, h⟩
  · rintro ⟨a, s', hx, hf⟩
    rw [bind_eq_of_ok hx, hf]

/-- Without a state. -/
theorem except_bind_eq_ok_iff {x : Except E α} {f : α → Except E β} {b : β} :
    (x >>= f) = .ok b ↔ ∃ a, x = .ok a ∧ f a = .ok b := by
  cases x with
  | error e => simp [bind, Except.bind]
  | ok a => simp [bind, Except.bind]

theorem mapError_eq_ok_iff {E' : Type u} {x : Except E α} {f : E → E'} {a : α} :
    x.mapError f = .ok a ↔ x = .ok a := by
  cases x with
  | error e => exact iff_of_false nofun nofun
  | ok b =>
      constructor
      · rintro ⟨⟩
        rfl
      · rintro ⟨⟩
        rfl

end StateExcept

/-! ## The state is kept -/

namespace ExceptState

universe u

variable {S E α β : Type u}

/-- The result of a computation, and the state after it. -/
def run (x : ExceptT E (StateM S) α) (s : S) : Except E α × S :=
  StateT.run (ExceptT.run x) s

variable {x : ExceptT E (StateM S) α} {f : α → ExceptT E (StateM S) β} {s s' : S}

@[simp]
theorem run_pure (a : α) (s : S) :
    run (pure a : ExceptT E (StateM S) α) s = (.ok a, s) := rfl

@[simp]
theorem run_get (s : S) : run (get : ExceptT E (StateM S) S) s = (.ok s, s) := rfl

@[simp]
theorem run_modify (change : S → S) (s : S) :
    run (modify change : ExceptT E (StateM S) PUnit) s = (.ok ⟨⟩, change s) := rfl

theorem run_bind_ok {a : α} (h : run x s = (.ok a, s')) : run (x >>= f) s = run (f a) s' := by
  unfold run at h ⊢
  rw [ExceptT.run_bind, StateT.run_bind, h]
  rfl

theorem run_bind_error {e : E} (h : run x s = (.error e, s')) :
    run (x >>= f) s = (.error e, s') := by
  unfold run at h ⊢
  rw [ExceptT.run_bind, StateT.run_bind, h]
  rfl

/-- How a computation ends, with the state after it, as a value. -/
def attempt (x : ExceptT E (StateM S) α) : ExceptT E (StateM S) (Except E α) :=
  ExceptT.mk do return .ok (← ExceptT.run x)

@[simp]
theorem run_attempt (x : ExceptT E (StateM S) α) (s : S) :
    run (attempt x) s = (.ok (run x s).1, (run x s).2) := rfl

end ExceptState
