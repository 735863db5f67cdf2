/-
Lists that lie in a memory of words: a cell is two words, the first of which is an element and
the second the word of the next cell.  A segment of such a list goes from a word to the word
behind its last cell; the list is whole where that word says that it ends.
-/
import Mathlib.Data.List.Basic

namespace CellList

universe u

variable {W : Type u}

/-- How a word points to a cell. -/
abbrev Link (W : Type u) := Nat → W

/-- From the word one comes over cells with the elements, which all are where `P` says, to the
last word. -/
def Segment (link : Link W) (P : Nat → Prop) (mem : Nat → W) : W → List W → W → Prop
  | w, [], last => w = last
  | w, x :: xs, last =>
      ∃ a, w = link a ∧ P a ∧ mem a = x ∧ Segment link P mem (mem (a + 1)) xs last

variable {link : Link W} {P Q : Nat → Prop} {mem mem' : Nat → W} {w w' last x : W}
  {xs ys : List W}

theorem Segment.append (h : Segment link P mem w xs w') (h' : Segment link P mem w' ys last) :
    Segment link P mem w (xs ++ ys) last := by
  induction xs generalizing w with
  | nil =>
      cases h
      exact h'
  | cons x xs ih =>
      obtain ⟨a, hw, ha, hx, hrest⟩ := h
      exact ⟨a, hw, ha, hx, ih hrest⟩

/-- A segment stays where its cells keep their words. -/
theorem Segment.frame (h : Segment link P mem w xs last) (hPQ : ∀ a, P a → Q a)
    (hmem : ∀ a, P a → mem' a = mem a ∧ mem' (a + 1) = mem (a + 1)) :
    Segment link Q mem' w xs last := by
  induction xs generalizing w with
  | nil => exact h
  | cons x xs ih =>
      obtain ⟨a, hw, ha, hx, hrest⟩ := h
      obtain ⟨hhd, htl⟩ := hmem a ha
      exact ⟨a, hw, hPQ a ha, by rw [hhd, hx], by rw [htl]; exact ih hrest⟩

theorem segment_singleton {a : Nat} (ha : P a) (hx : mem a = x) (hlast : mem (a + 1) = last) :
    Segment link P mem (link a) [x] last :=
  ⟨a, rfl, ha, hx, hlast⟩

/-! ## A list with an open tail -/

/-- A list that grows at its ends lies between two addresses: the words of its first and of its
last cell are known, and the word behind the last cell is still to be filled in. -/
def Open (link : Link W) (mem : Nat → W) (low high : Nat) : Option (Nat × Nat) → List W → Prop
  | none, xs => xs = []
  | some (first, final), xs => low ≤ final ∧ final + 2 ≤ high ∧
      ∃ front, xs = front ++ [mem final] ∧
        Segment link (fun a => low ≤ a ∧ a + 2 ≤ high ∧ (a + 2 ≤ final ∨ final + 2 ≤ a)) mem
          (link first) front (link final)

section Open

variable {low high first final : Nat} {ends : Option (Nat × Nat)}

/-- The first cell. -/
theorem open_singleton (hx : mem' high = x) (hlow : low ≤ high) :
    Open link mem' low (high + 2) (some (high, high)) [x] :=
  ⟨hlow, Nat.le_refl _, [], by rw [hx]; rfl, rfl⟩

/-- A cell is allotted behind the list, and the last cell is linked to it. -/
theorem Open.append (h : Open link mem low high (some (first, final)) xs)
    (hx : mem' high = x) (hlink : mem' (final + 1) = link high)
    (hmem : ∀ a < high, a ≠ final + 1 → mem' a = mem a) :
    Open link mem' low (high + 2) (some (first, high)) (xs ++ [x]) := by
  obtain ⟨hlow, hhigh, front, rfl, hfront⟩ := h
  have hfinal : mem' final = mem final := hmem final (by omega) (by omega)
  refine ⟨by omega, Nat.le_refl _, front ++ [mem final], by rw [hx], ?_⟩
  refine Segment.append ?_ (segment_singleton (by omega) hfinal hlink)
  refine hfront.frame (fun a ha => by omega) fun a ha => ?_
  exact ⟨hmem a (by omega) (by omega), hmem (a + 1) (by omega) (by omega)⟩

/-- A cell is allotted behind the list, and linked to its first cell. -/
theorem Open.prepend (h : Open link mem low high (some (first, final)) xs)
    (hx : mem' high = x) (hlink : mem' (high + 1) = link first)
    (hmem : ∀ a < high, mem' a = mem a) :
    Open link mem' low (high + 2) (some (high, final)) (x :: xs) := by
  obtain ⟨hlow, hhigh, front, rfl, hfront⟩ := h
  have hfinal : mem' final = mem final := hmem final (by omega)
  refine ⟨hlow, by omega, x :: front, by rw [hfinal]; rfl, high, rfl, by omega, hx, ?_⟩
  rw [hlink]
  refine hfront.frame (fun a ha => by omega) fun a ha => ?_
  exact ⟨hmem a (by omega), hmem (a + 1) (by omega)⟩

/-- The tail of the last cell is filled in. -/
theorem Open.close (h : Open link mem low high (some (first, final)) xs)
    (hlast : mem' (final + 1) = last) (hmem : ∀ a < high, a ≠ final + 1 → mem' a = mem a) :
    Segment link (fun a => low ≤ a ∧ a + 2 ≤ high) mem' (link first) xs last := by
  obtain ⟨hlow, hhigh, front, rfl, hfront⟩ := h
  have hfinal : mem' final = mem final := hmem final (by omega) (by omega)
  refine Segment.append ?_ (segment_singleton ⟨hlow, hhigh⟩ hfinal hlast)
  refine hfront.frame (fun a ha => ⟨ha.1, ha.2.1⟩) fun a ha => ?_
  exact ⟨hmem a (by omega) (by omega), hmem (a + 1) (by omega) (by omega)⟩

end Open

end CellList
