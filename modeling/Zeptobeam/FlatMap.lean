/-
Boxed maps: pairs in ascending order of their keys, found by a binary search.  A search
that steps left takes the upper half of its range, and the other way round, and a step to
the upper half keeps the median in the range: from three kinds of starts it ends where it
should, else at the second place, or never.
-/
import Zeptobeam.Lib.Fuelled
import Zeptobeam.FileReader
import Zeptobeam.TermLoop

namespace Zeptobeam

open Fuelled

/-- `Map`: the header's arity is the capacity, and the pairs lie behind the count, the
keys with their values.  As the count has no room of its own in what is allotted, the last
value of a full map lies one word behind. -/
structure FlatMap where
  capacity : Nat
  pairs : List (Term × Term)

/-- `FoundAt`, or `ClosestLarger`: where a missing element can be inserted. -/
inductive MapGetResult where
  | foundAt (pos : Nat)
  | closestLarger (pos : Nat)
deriving DecidableEq, Repr

namespace FlatMap

/-- In words; the size of a box header is two words in a release build, three in a debug
build. -/
def storageSize (boxHeader numPairs : Nat) : Nat :=
  2 * numPairs + boxHeader

def new (boxHeader numPairs : Nat) : FlatMap where
  capacity := storageSize boxHeader numPairs
  pairs := []

def getCount (m : FlatMap) : Nat :=
  m.pairs.length

/-- The loop of the binary search. -/
def searchLoop (cmp : Term → Term → Except Fault Ordering) (m : FlatMap) (key : Term) :
    Nat → Nat → Nat → Except Panic MapGetResult
  | 0, _, _ => .error .outOfFuel
  | fuel + 1, a, b =>
      let median := a + (b - a) / 2
      match m.pairs[median]? with
      | none => .error .outsideAllocation
      | some (medianValue, _) =>
          match cmp medianValue key with
          | .error fault => .error (.comparing fault)
          | .ok .lt =>
              if a = b then .ok (.closestLarger (a + 1))
              else searchLoop cmp m key fuel a median
          | .ok .gt =>
              if a = b then .ok (.closestLarger a)
              else searchLoop cmp m key fuel median b
          | .ok .eq => .ok (.foundAt median)

/-- `get_flatmap`: the fuel bounds the search and each comparison. -/
def getFlatmap (fuel : Nat) (m : FlatMap) (key : Term) : Except Panic MapGetResult :=
  if m.getCount = 0 then .ok (.closestLarger 0)
  else searchLoop (fun x y => cmpTerms fuel x y true) m key fuel 0 (m.getCount - 1)

/-- Add a pair; the elements from the position on are shifted one forward. -/
def add (fuel : Nat) (m : FlatMap) (key value : Term) : Except Panic FlatMap := do
  match ← getFlatmap fuel m key with
  | .foundAt pos => .ok { m with pairs := m.pairs.set pos (key, value) }
  | .closestLarger pos =>
      -- for now just assert that it can grow
      if m.capacity ≤ m.getCount then .error .assertion
      else .ok { m with pairs := m.pairs.insertIdx pos (key, value) }

/-- Find a key. -/
def get (fuel : Nat) (m : FlatMap) (key : Term) : Except Panic (Option Term) := do
  match ← getFlatmap fuel m key with
  | .foundAt i => .ok ((m.pairs[i]?).map Prod.snd)
  | .closestLarger _ => .ok none

/-! ## The search -/

section Search

variable {cmp : Term → Term → Except Fault Ordering} {m : FlatMap} {key : Term}

theorem searchLoop_of_eq {fuel a b : Nat} {p : Term × Term}
    (hp : m.pairs[a + (b - a) / 2]? = some p) (heq : cmp p.1 key = .ok .eq) :
    searchLoop cmp m key (fuel + 1) a b = .ok (.foundAt (a + (b - a) / 2)) := by
  simp only [searchLoop, hp, heq]

theorem searchLoop_step_left {fuel a b : Nat} {p : Term × Term}
    (hp : m.pairs[a + (b - a) / 2]? = some p) (hlt : cmp p.1 key = .ok .lt) :
    searchLoop cmp m key (fuel + 1) a b =
      if a = b then .ok (.closestLarger (a + 1))
      else searchLoop cmp m key fuel a (a + (b - a) / 2) := by
  simp only [searchLoop, hp, hlt]

theorem searchLoop_step_right {fuel a b : Nat} {p : Term × Term}
    (hp : m.pairs[a + (b - a) / 2]? = some p) (hgt : cmp p.1 key = .ok .gt) :
    searchLoop cmp m key (fuel + 1) a b =
      if a = b then .ok (.closestLarger a)
      else searchLoop cmp m key fuel (a + (b - a) / 2) b := by
  simp only [searchLoop, hp, hgt]

/-- Below a greater key the range shrinks to its first place. -/
theorem searchLoop_of_lt {b : Nat} (hb : b < m.getCount)
    (hlt : ∀ i ≤ b, ∀ p, m.pairs[i]? = some p → cmp p.1 key = .ok .lt) {fuel : Nat}
    (hfuel : b < fuel) : searchLoop cmp m key fuel 0 b = .ok (.closestLarger 1) := by
  induction b using Nat.strongRecOn generalizing fuel with
  | _ b ih =>
      obtain ⟨fuel, rfl⟩ := Nat.exists_eq_add_of_le' (Nat.zero_lt_of_lt hfuel)
      obtain ⟨p, hp⟩ : ∃ p, m.pairs[0 + (b - 0) / 2]? = some p :=
        ⟨_, List.getElem?_eq_getElem (by rw [getCount] at hb; omega)⟩
      rw [searchLoop_step_left hp (hlt _ (by omega) p hp)]
      by_cases hzero : 0 = b
      · rw [if_pos hzero]
      · rw [if_neg hzero]
        exact ih _ (by omega) (by omega) (fun i hi => hlt i (by omega)) (by omega)

/-- Above a lesser key the range of more than one place never becomes one place. -/
theorem searchLoop_of_gt {a b : Nat} (hab : a < b) (hb : b < m.getCount)
    (hgt : ∀ i, a ≤ i → ∀ p, m.pairs[i]? = some p → cmp p.1 key = .ok .gt) (fuel : Nat) :
    searchLoop cmp m key fuel a b = .error .outOfFuel := by
  induction fuel generalizing a with
  | zero => rfl
  | succ fuel ih =>
      obtain ⟨p, hp⟩ : ∃ p, m.pairs[a + (b - a) / 2]? = some p :=
        ⟨_, List.getElem?_eq_getElem (by rw [getCount] at hb; omega)⟩
      rw [searchLoop_step_right hp (hgt _ (by omega) p hp), if_neg (by omega)]
      exact ih (by omega) (fun i hi => hgt i (by omega))

end Search

end FlatMap

end Zeptobeam
