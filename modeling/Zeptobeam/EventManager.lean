/-
Event managers.  The handlers that ask for their removal are taken out once every handler was
called, the last of them first: the places of those before it stay what they were.
-/
import Zeptobeam.FileReader

namespace Zeptobeam

inductive EventAction where
  | ok
  | remove
deriving DecidableEq, Repr

/-- Handlers `H` of events `V`; a call may change what the handlers refer to. -/
structure EventHandler (H V W : Type) where
  handleEvent : H → V → W → EventAction × W

structure EventManager (H : Type) where
  handlers : List H

/-- The calls that were made, in order, and what the handlers refer to now. -/
structure HandlerCalls (H V W : Type) where
  made : List (H × V)
  world : W

namespace EventManager

variable {H V W : Type} (trait : EventHandler H V W) (event : V)

def call (handler : H) (calls : HandlerCalls H V W) : EventAction × HandlerCalls H V W :=
  let (action, world) := trait.handleEvent handler event calls.world
  (action, ⟨calls.made ++ [(handler, event)], world⟩)

/-- The loop over the handlers: the places of those to be removed. -/
def visit : Nat → List H → HandlerCalls H V W → List Nat × HandlerCalls H V W
  | _, [], calls => ([], calls)
  | idx, handler :: rest, calls =>
      let (action, calls) := call trait event handler calls
      let (later, calls) := visit (idx + 1) rest calls
      match action with
      | .ok => (later, calls)
      | .remove => (idx :: later, calls)

/-- `Vec::remove`. -/
def removeAt (handlers : List H) (idx : Nat) : Except Panic (List H) :=
  if idx < handlers.length then .ok (handlers.eraseIdx idx) else .error .indexOutOfBounds

def notify (manager : EventManager H) (calls : HandlerCalls H V W) :
    Except Panic (EventManager H × HandlerCalls H V W) := do
  let (toRemove, calls) := visit trait event 0 manager.handlers calls
  let handlers ← toRemove.reverse.foldlM removeAt manager.handlers
  return (⟨handlers⟩, calls)

/-! ## What is to happen -/

/-- Each handler is called once, one after the other: what they answer. -/
def inTurn : List H → W → List (H × EventAction) × W
  | [], world => ([], world)
  | handler :: rest, world =>
      let (action, world) := trait.handleEvent handler event world
      let (others, world) := inTurn rest world
      ((handler, action) :: others, world)

/-- The handlers that did not ask for their removal. -/
def staying (answers : List (H × EventAction)) : List H :=
  (answers.filter fun answer => answer.2 = .ok).map Prod.fst

def removals : Nat → List (H × EventAction) → List Nat
  | _, [] => []
  | idx, (_, .ok) :: rest => removals (idx + 1) rest
  | idx, (_, .remove) :: rest => idx :: removals (idx + 1) rest

variable {trait event}

theorem map_fst_inTurn (handlers : List H) (world : W) :
    (inTurn trait event handlers world).1.map Prod.fst = handlers := by
  induction handlers generalizing world with
  | nil => rfl
  | cons handler rest ih => rw [inTurn, List.map_cons, ih]

theorem visit_eq (idx : Nat) (handlers : List H) (calls : HandlerCalls H V W) :
    visit trait event idx handlers calls =
      (removals idx (inTurn trait event handlers calls.world).1,
        ⟨calls.made ++ handlers.map (·, event),
          (inTurn trait event handlers calls.world).2⟩) := by
  induction handlers generalizing idx calls with
  | nil => simp [visit, inTurn, removals]
  | cons handler rest ih =>
      simp only [visit, ih, inTurn, call, List.map_cons, List.append_assoc,
        List.singleton_append]
      cases (trait.handleEvent handler event calls.world).1 with
      | ok => rfl
      | remove => rfl

/-- The removals from the last place on leave the handlers that stay, in their order. -/
theorem foldrM_removals (front : List H) (answers : List (H × EventAction)) :
    (removals front.length answers).foldrM (fun idx handlers => removeAt handlers idx)
        (front ++ answers.map Prod.fst) = .ok (front ++ staying answers) := by
  induction answers generalizing front with
  | nil => rfl
  | cons answer rest ih =>
      obtain ⟨handler, action⟩ := answer
      have hlater := ih (front ++ [handler])
      rw [List.length_append, List.length_singleton, List.append_assoc, List.append_assoc,
        List.singleton_append, List.singleton_append] at hlater
      cases action with
      | ok => exact hlater
      | remove =>
          rw [removals, List.foldrM_cons, List.map_cons, hlater]
          have hhere : (front ++ handler :: staying rest).eraseIdx front.length =
              front ++ staying rest := by
            rw [List.eraseIdx_append_of_length_le (Nat.le_refl _), Nat.sub_self]
            rfl
          have hin : front.length < (front ++ handler :: staying rest).length := by simp
          exact (if_pos hin).trans (congrArg Except.ok hhere)

/-- Every handler is called once, in order, and exactly those that asked for it are gone. -/
theorem notify_visits (manager : EventManager H) (calls : HandlerCalls H V W) :
    ∃ answers world, inTurn trait event manager.handlers calls.world = (answers, world) ∧
      answers.map Prod.fst = manager.handlers ∧
      notify trait event manager calls = .ok (⟨staying answers⟩,
        ⟨calls.made ++ manager.handlers.map (·, event), world⟩) := by
  refine ⟨_, _, rfl, map_fst_inTurn _ _, ?_⟩
  have hremoved := foldrM_removals [] (inTurn trait event manager.handlers calls.world).1
  rw [map_fst_inTurn, List.length_nil, List.nil_append, List.nil_append] at hremoved
  rw [notify, visit_eq]
  simp only [List.foldlM_reverse, hremoved]
  rfl

end EventManager

end Zeptobeam
