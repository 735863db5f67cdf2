/-
Records written as lists and compared item by item.  Two such codes are separate when the
comparison of anything that begins with them is decided by them alone, or else by what
follows them: records made of separate codes are then compared field by field, and the
order of the lists carries over to the records.
-/
import Mathlib.Data.Ordering.Basic

namespace LexCode

variable {α : Type*} [Ord α]

def Separate (p q : List α) : Prop :=
  ∀ s t : List α, compare (p ++ s) (q ++ t) = (compare p q).then (compare s t)

theorem Separate.nil : Separate ([] : List α) [] :=
  fun _ _ => rfl

theorem Separate.cons {x y : α} {p q : List α} (h : compare x y = .eq → Separate p q) :
    Separate (x :: p) (y :: q) := by
  intro s t
  rw [List.cons_append, List.cons_append, List.compare_cons_cons, List.compare_cons_cons]
  cases hxy : compare x y with
  | lt => rfl
  | eq => exact h hxy s t
  | gt => rfl

theorem Separate.of_length_eq {p q : List α} (hlength : p.length = q.length) :
    Separate p q := by
  induction p generalizing q with
  | nil =>
      have hq : q = [] := List.eq_nil_of_length_eq_zero hlength.symm
      rw [hq]
      exact Separate.nil
  | cons x p ih =>
      cases q with
      | nil => simp at hlength
      | cons y q => exact Separate.cons fun _ => ih (by simpa using hlength)

theorem compare_cons_self [Std.ReflOrd α] (x : α) (p q : List α) :
    compare (x :: p) (x :: q) = compare p q := by
  rw [List.compare_cons_cons, Std.ReflOrd.compare_self]
  rfl

/-- A map that keeps the order of the items keeps the order of the lists. -/
theorem compare_map {β : Type*} [Ord β] {f : α → β}
    (hf : ∀ x y, compare (f x) (f y) = compare x y) (p q : List α) :
    compare (p.map f) (q.map f) = compare p q := by
  induction p generalizing q with
  | nil => cases q <;> rfl
  | cons x p ih =>
      cases q with
      | nil => rfl
      | cons y q =>
          rw [List.map_cons, List.map_cons, List.compare_cons_cons, List.compare_cons_cons,
            hf, ih]

/-- Two records of two fields are compared by the first, then by the second. -/
theorem Separate.compare_append {p q : List α} (h : Separate p q) (p' q' : List α) :
    compare (p ++ p') (q ++ q') = (compare p q).then (compare p' q') :=
  h p' q'

theorem Separate.append {p q p' q' : List α} (h : Separate p q) (h' : Separate p' q') :
    Separate (p ++ p') (q ++ q') := by
  intro s t
  rw [List.append_assoc, List.append_assoc, h, h', h.compare_append]
  cases compare p q <;> rfl

end LexCode
