/-
The native functions that append, reverse and flatten lists.  Each walks over its argument and
builds a new list in front of what is already there; fuel bounds the walk.
-/
import Zeptobeam.Lib.Fuelled
import Zeptobeam.ListBuilder

namespace Zeptobeam

open CellList StateExcept Fuelled ListBuilder

/-! ## The functions -/

/-- The loop of `for_each`, from a cell on. -/
def eachCell (func : Word → ListOp Unit) : Nat → Nat → ListOp (Option Word)
  | 0, _ => throw (.panic .outOfFuel)
  | fuel + 1, p => do
      let hdEl ← Cons.hd p
      func hdEl
      let tlEl ← Cons.tl p
      match tlEl with
      | .consPtr p => eachCell func fuel p
      | _ => return some tlEl

/-- For each list element run the function; the result is the tail of the last cell. -/
def forEach (fuel : Nat) (lst : Word) (func : Word → ListOp Unit) : ListOp (Option Word) :=
  if lst = Word.nil then pure none
  else
    match lst with
    | .consPtr p => eachCell func fuel p
    | _ => throw (.panic .assertion)

/-- Copies a list, which must not be nil, and leaves its last cell to the caller. -/
def copyListLeaveTail (fuel : Nat) (src : Word) : ListOp (Word × Nat) := do
  new
  let list ← match ← forEach fuel src append with
    | some tail => makeTermWithTail tail
    | none => makeTerm
  match (← get).builder with
  | some (_, tailP) => return (list, tailP)
  | none => return (list, 0)

def append2 (fuel : Nat) (a b : Word) : ListOp Word := do
  if ¬ a.isList then throw .badarg
  -- Doing [] ++ X -> X
  if a = Word.nil then return b
  let (l1, tail) ← copyListLeaveTail fuel a
  Cons.setTl tail b
  return l1

def reverse2 (fuel : Nat) (list tail : Word) : ListOp Word := do
  if ¬ list.isList then throw .badarg
  if list = Word.nil then return tail
  new
  -- Going forward the list, prepend values to the result
  let _ ← forEach fuel list prepend
  makeTermWithTail tail

mutual

def flattenInto : Nat → Word → ListOp Unit
  | 0, _ => throw (.panic .outOfFuel)
  | fuel + 1, list =>
      if list = Word.nil then pure ()
      else
        match list with
        | .consPtr _ => flattenLoop fuel list
        -- Non-list element: just append it
        | _ => append list

/-- The loop over the cells; an improper tail is appended as well. -/
def flattenLoop : Nat → Word → ListOp Unit
  | 0, _ => throw (.panic .outOfFuel)
  | fuel + 1, current =>
      match current with
      | .consPtr p => do
          let hd ← Cons.hd p
          let tl ← Cons.tl p
          if hd.isList then flattenInto fuel hd else append hd
          flattenLoop fuel tl
      | _ => if current ≠ Word.nil then append current else pure ()

end

def flatten1 (fuel : Nat) (list : Word) : ListOp Word := do
  if ¬ list.isList then throw .badarg
  if list = Word.nil then return Word.nil
  new
  flattenInto fuel list
  match (← get).builder with
  | none => return Word.nil
  | some _ => makeTerm

/-! ## Lists on the heap -/

/-- A proper list of these elements; its cells are not among the free words. -/
def IsList (m : HeapMemory) (w : Word) (xs : List Word) : Prop :=
  Segment Word.consPtr (Settled m.heap) m.mem w xs Word.nil

/-- A list of elements that are no lists, or such lists. -/
inductive DeepList where
  | nil
  | cons (hd : Word) (tl : DeepList)
  | deep (hd tl : DeepList)

namespace DeepList

def flatten : DeepList → List Word
  | nil => []
  | cons hd tl => hd :: tl.flatten
  | deep hd tl => hd.flatten ++ tl.flatten

/-- Enough rounds to flatten the list. -/
def rounds : DeepList → Nat
  | nil => 1
  | cons _ tl => tl.rounds + 1
  | deep hd tl => hd.rounds + tl.rounds + 2

end DeepList

/-- The deep list lies on the heap, outside of the free words. -/
def IsDeep (m : HeapMemory) (w : Word) : DeepList → Prop
  | .nil => w = Word.nil
  | .cons hd tl => ∃ a, w = .consPtr a ∧ Settled m.heap a ∧ m.mem a = hd ∧ hd.isList = false ∧
      IsDeep m (m.mem (a + 1)) tl
  | .deep hd tl => ∃ a, w = .consPtr a ∧ Settled m.heap a ∧ IsDeep m (m.mem a) hd ∧
      IsDeep m (m.mem (a + 1)) tl

/-- There is room for so many cells. -/
def Room (s : ListProcess) (cells : Nat) : Prop :=
  cells = 0 ∨ s.memory.heap.heapTop + 2 * cells < s.memory.heap.stackTop

/-- With enough fuel the function returns the list. -/
def Returns (f : Nat → ListOp Word) (s : ListProcess) (xs : List Word) (cells : Nat) : Prop :=
  ∃ w s', Settles (fun fuel => f fuel s) (w, s') ∧ IsList s'.memory w xs ∧ Grown s s' cells

/-! ## Walking and building -/

section Walk

variable {func : Word → ListOp Unit} {P : Nat → Prop} {mem : Nat → Word} {last : Word}

theorem eachCell_next {s s₁ : ListProcess} {p q fuel : Nat}
    (hfunc : func (s.memory.mem p) s = .ok ((), s₁)) (hnext : s₁.memory.mem (p + 1) = .consPtr q) :
    eachCell func (fuel + 1) p s = eachCell func fuel q s₁ := by
  have hhd : Cons.hd p s = .ok (s.memory.mem p, s) := rfl
  have htl : Cons.tl p s₁ = .ok (.consPtr q, s₁) := by rw [Cons.tl, hnext]
  rw [eachCell, bind_eq_of_ok hhd, bind_eq_of_ok hfunc,
    bind_eq_of_ok htl]

theorem eachCell_last {s s₁ : ListProcess} {p fuel : Nat}
    (hfunc : func (s.memory.mem p) s = .ok ((), s₁)) (hlast : s₁.memory.mem (p + 1) = last)
    (hcons : last.isCons = false) : eachCell func (fuel + 1) p s = .ok (some last, s₁) := by
  have hhd : Cons.hd p s = .ok (s.memory.mem p, s) := rfl
  have htl : Cons.tl p s₁ = .ok (last, s₁) := by rw [Cons.tl, hlast]
  rw [eachCell, bind_eq_of_ok hhd, bind_eq_of_ok hfunc,
    bind_eq_of_ok htl]
  cases last with
  | consPtr q => cases hcons
  | _ => rfl

/-- An invariant of the elements that the function was run for holds at the end of the walk, when
the function leaves the cells of the list alone. -/
theorem eachCell_inv (Inv : List Word → ListProcess → Prop) (count : Nat) (seen : List Word)
    (hkept : ∀ seen s, Inv seen s → ∀ a, P a →
      s.memory.mem a = mem a ∧ s.memory.mem (a + 1) = mem (a + 1))
    (hstep : ∀ seen x s, seen.length < count → Inv seen s →
      ∃ s', func x s = .ok ((), s') ∧ Inv (seen ++ [x]) s')
    (hlast : last.isCons = false) {xs : List Word} {p : Nat} {s : ListProcess}
    (hseg : Segment Word.consPtr P mem (.consPtr p) xs last)
    (hcount : seen.length + xs.length ≤ count) (hinv : Inv seen s) :
    ∃ s', (∀ fuel, xs.length ≤ fuel → eachCell func fuel p s = .ok (some last, s')) ∧
      Inv (seen ++ xs) s' := by
  induction xs generalizing p seen s with
  | nil =>
      rw [← hseg] at hlast
      cases hlast
  | cons x xs ih =>
      obtain ⟨a, ha, hPa, rfl, hrest⟩ := hseg
      obtain rfl : p = a := Word.consPtr.inj ha
      simp only [List.length_cons] at hcount
      obtain ⟨s₁, hfunc, hinv₁⟩ := hstep seen (mem p) s (by omega) hinv
      rw [← (hkept seen s hinv p hPa).1] at hfunc
      have htl := (hkept _ s₁ hinv₁ p hPa).2
      cases xs with
      | nil =>
          refine ⟨s₁, fun fuel hfuel => ?_, hinv₁⟩
          obtain ⟨fuel, rfl⟩ := Nat.exists_eq_add_of_le' hfuel
          exact eachCell_last hfunc (htl.trans hrest) hlast
      | cons y ys =>
          obtain ⟨q, hq, -⟩ := id hrest
          rw [hq] at hrest
          obtain ⟨s₂, hloop, hinv₂⟩ := ih _ hrest (by simp at hcount ⊢; omega) hinv₁
          refine ⟨s₂, fun fuel hfuel => ?_, ?_⟩
          · obtain ⟨fuel, rfl⟩ := Nat.exists_eq_add_of_le' (Nat.le_of_add_left_le hfuel)
            rw [eachCell_next hfunc (htl.trans hq), hloop fuel (Nat.le_of_succ_le_succ hfuel)]
          · rwa [List.append_assoc, List.singleton_append] at hinv₂

end Walk

section Building

variable {start s : ListProcess} {a b w : Word} {xs ys : List Word} {p : Nat}

theorem settled_of_untouched {m m' : HeapMemory} (h : Untouched m m') {p : Nat}
    (hp : Settled m.heap p) : m'.mem p = m.mem p ∧ m'.mem (p + 1) = m.mem (p + 1) :=
  ⟨h p hp.1, h (p + 1) hp.2⟩

theorem isCons_nil : Word.nil.isCons = false := rfl

/-- What is walked over is built anew, in the same order or in the other. -/
theorem eachCell_append (hlist : IsList s.memory (.consPtr p) xs) (hroom : Room s xs.length) :
    ∃ s', (∀ fuel, xs.length ≤ fuel →
      eachCell append fuel p { s with builder := none } = .ok (some Word.nil, s')) ∧
      BuildsList s s' xs := by
  have hstep (seen : List Word) (x : Word) (s' : ListProcess) (hseen : seen.length < xs.length)
      (h : BuildsList s s' seen) :
      ∃ s'', append x s' = .ok ((), s'') ∧ BuildsList s s'' (seen ++ [x]) := by
    apply append_builds h
    rw [h.heapTop, h.stackTop]
    unfold Room at hroom
    omega
  exact eachCell_inv (fun seen s' => BuildsList s s' seen) xs.length []
    (fun seen s' h a ha => settled_of_untouched h.untouched ha) hstep isCons_nil hlist
    (Nat.le_of_eq (Nat.zero_add _)) (builds_new s)

theorem eachCell_prepend (hlist : IsList s.memory (.consPtr p) xs) (hroom : Room s xs.length) :
    ∃ s', (∀ fuel, xs.length ≤ fuel →
      eachCell prepend fuel p { s with builder := none } = .ok (some Word.nil, s')) ∧
      BuildsList s s' xs.reverse := by
  have hstep (seen : List Word) (x : Word) (s' : ListProcess) (hseen : seen.length < xs.length)
      (h : BuildsList s s' seen.reverse) :
      ∃ s'', prepend x s' = .ok ((), s'') ∧ BuildsList s s'' (seen ++ [x]).reverse := by
    rw [List.reverse_append]
    apply prepend_builds h
    rw [h.heapTop, h.stackTop, List.length_reverse]
    unfold Room at hroom
    omega
  exact eachCell_inv (fun seen s' => BuildsList s s' seen.reverse) xs.length []
    (fun seen s' h a ha => settled_of_untouched h.untouched ha) hstep isCons_nil hlist
    (Nat.le_of_eq (Nat.zero_add _)) (builds_new s)

/-- A proper list is nil, or begins with a cell. -/
theorem IsList.cases {m : HeapMemory} (h : IsList m w xs) :
    (w = Word.nil ∧ xs = []) ∨ ∃ p, w = .consPtr p ∧ xs ≠ [] := by
  cases xs with
  | nil => exact .inl ⟨h, rfl⟩
  | cons x xs =>
      obtain ⟨p, hp, -⟩ := h
      exact .inr ⟨p, hp, List.cons_ne_nil x xs⟩

/-- What was not free stays so while cells are allotted. -/
theorem Grown.settled {cells : Nat} (h : Grown start s cells) {a : Nat}
    (ha : Settled start.memory.heap a) : Settled s.memory.heap a := by
  have hbase := h.base
  have hstack := h.stackTop
  have htop := h.heapTop
  unfold Settled Emulator.ProcessHeap.Free at ha ⊢
  omega

theorem Grown.isList {cells : Nat} (h : Grown start s cells) (hw : IsList start.memory w ys) :
    IsList s.memory w ys :=
  Segment.frame hw (fun _ => h.settled) fun _ ha => settled_of_untouched h.untouched ha

theorem Grown.trans {s' : ListProcess} {cells more : Nat} (h : Grown start s cells)
    (h' : Grown s s' more) : Grown start s' (cells + more) where
  base := h'.base.trans h.base
  stackTop := h'.stackTop.trans h.stackTop
  heapTop := by
    rw [h'.heapTop, h.heapTop]
    omega
  untouched a ha := by
    refine (h'.untouched a fun hfree => ha ?_).trans (h.untouched a ha)
    have hbase := h.base
    have hstack := h.stackTop
    have htop := h.heapTop
    unfold Emulator.ProcessHeap.Free at hfree ⊢
    omega

theorem Grown.room {cells more : Nat} (h : Grown start s cells)
    (hroom : Room start (cells + more)) :
    Room s more := by
  have hstack := h.stackTop
  have htop := h.heapTop
  unfold Room at hroom ⊢
  omega

theorem BuildsList.exists_ends (h : BuildsList start s xs) (hne : xs ≠ []) :
    ∃ headP tailP, s.builder = some (headP, tailP) := by
  cases hends : s.builder with
  | none =>
      have hcells := h.cells
      rw [hends] at hcells
      exact absurd hcells hne
  | some ends => exact ⟨ends.1, ends.2, rfl⟩

/-- The tail is filled in with a list that was there before. -/
theorem BuildsList.close (h : BuildsList start s xs) {headP tailP : Nat}
    (hends : s.builder = some (headP, tailP)) (hw : IsList start.memory w ys) {m : HeapMemory}
    (hheap : m.heap = s.memory.heap) (hlast : m.mem (tailP + 1) = w)
    (hmem : ∀ a, a ≠ tailP + 1 → m.mem a = s.memory.mem a) :
    IsList m (.consPtr headP) (xs ++ ys) ∧
      Grown start { s with memory := m } xs.length := by
  have hcells := h.cells
  rw [hends] at hcells
  have hlow := hcells.1
  have hhigh := hcells.2.1
  have hbase := h.base
  have hstack := h.stackTop
  have hle := s.memory.heap.heapTop_le
  have huntouched : Untouched start.memory m := by
    intro a ha
    refine (hmem a ?_).trans (h.untouched a ha)
    rintro rfl
    exact ha ⟨by omega, by omega⟩
  refine ⟨Segment.append ?_ (Segment.frame hw (fun a ha => ?_)
    fun a ha => settled_of_untouched huntouched ha),
    ⟨hheap ▸ hbase, hheap ▸ hstack, hheap ▸ h.heapTop, huntouched⟩⟩
  · refine (hcells.close hlast fun a _ hne => hmem a hne).frame (fun a ha => ?_)
      fun a _ => ⟨rfl, rfl⟩
    unfold Settled Emulator.ProcessHeap.Free
    rw [hheap]
    omega
  · rw [hheap]
    exact h.toGrown.settled ha

theorem forEach_cons (fuel p : Nat) (func : Word → ListOp Unit) :
    forEach fuel (.consPtr p) func = eachCell func fuel p :=
  if_neg (by simp [Word.nil, Term.raw])

theorem append2_of_cons {s₁ : ListProcess} {fuel headP tailP : Nat}
    (hloop : eachCell append fuel p { s with builder := none } = .ok (some Word.nil, s₁))
    (hends : s₁.builder = some (headP, tailP)) :
    append2 fuel (.consPtr p) b s = .ok (.consPtr headP,
      ⟨(s₁.memory.write (tailP + 1) Word.nil).write (tailP + 1) b, s₁.builder⟩) := by
  have hcopy : copyListLeaveTail fuel (.consPtr p) s = .ok ((.consPtr headP, tailP),
      ⟨s₁.memory.write (tailP + 1) Word.nil, s₁.builder⟩) := by
    unfold copyListLeaveTail
    rw [forEach_cons, bind_eq_of_ok rfl, bind_eq_of_ok hloop]
    cases s₁ with
    | mk memory builder =>
        cases hends
        rfl
  have hlist : (Word.consPtr p).isList = true := by simp [Word.isList, Word.isCons]
  have hne : Word.consPtr p ≠ Word.nil := by simp [Word.nil, Term.raw]
  simp only [append2, hlist, hne, not_true_eq_false, if_false]
  rw [bind_eq_of_ok hcopy]
  rfl

theorem reverse2_of_cons {s₁ : ListProcess} {fuel headP tailP : Nat}
    (hloop : eachCell prepend fuel p { s with builder := none } = .ok (some Word.nil, s₁))
    (hends : s₁.builder = some (headP, tailP)) :
    reverse2 fuel (.consPtr p) w s =
      .ok (.consPtr headP, ⟨s₁.memory.write (tailP + 1) w, s₁.builder⟩) := by
  have hlist : (Word.consPtr p).isList = true := by simp [Word.isList, Word.isCons]
  have hne : Word.consPtr p ≠ Word.nil := by simp [Word.nil, Term.raw]
  simp only [reverse2, hlist, hne, not_true_eq_false, if_false]
  rw [forEach_cons, bind_eq_of_ok rfl, bind_eq_of_ok hloop]
  cases s₁ with
  | mk memory builder =>
      cases hends
      rfl

end Building

section Flatten

variable {start s : ListProcess} {m : HeapMemory} {w : Word} {d : DeepList}

theorem IsDeep.cases (h : IsDeep m w d) :
    (w = Word.nil ∧ d.flatten = []) ∨ ∃ p, w = .consPtr p := by
  cases d with
  | nil => exact .inl ⟨h, rfl⟩
  | cons hd tl =>
      obtain ⟨p, hp, -⟩ := h
      exact .inr ⟨p, hp⟩
  | deep hd tl =>
      obtain ⟨p, hp, -⟩ := h
      exact .inr ⟨p, hp⟩

theorem IsDeep.isList (h : IsDeep m w d) : w.isList = true := by
  rcases h.cases with ⟨rfl, -⟩ | ⟨p, rfl⟩
  · rfl
  · simp [Word.isList, Word.isCons]

theorem flattenLoop_cell {s₁ : ListProcess} {fuel p : Nat} {hd tl : Word}
    (hhd : s.memory.mem p = hd) (htl : s.memory.mem (p + 1) = tl)
    (hstep : (if hd.isList then flattenInto fuel hd else append hd) s = .ok ((), s₁)) :
    flattenLoop (fuel + 1) (.consPtr p) s = flattenLoop fuel tl s₁ := by
  have hhd' : Cons.hd p s = .ok (hd, s) := by rw [Cons.hd, hhd]
  have htl' : Cons.tl p s = .ok (tl, s) := by rw [Cons.tl, htl]
  rw [flattenLoop, bind_eq_of_ok hhd', bind_eq_of_ok htl']
  split at hstep
  next h =>
    simp only [h, if_true]
    exact bind_eq_of_ok hstep
  next h =>
    simp only [h]
    exact bind_eq_of_ok hstep

theorem flattenInto_cell (fuel p : Nat) :
    flattenInto (fuel + 1) (.consPtr p) = flattenLoop fuel (.consPtr p) := by
  rw [flattenInto, if_neg (by simp [Word.nil, Term.raw])]

/-- The elements of a deep list are appended in order. -/
theorem flattenLoop_builds {seen : List Word} (hdeep : IsDeep start.memory w d)
    (hroom : Room start (seen.length + d.flatten.length)) (hbuilds : BuildsList start s seen) :
    ∃ s', (∀ fuel, d.rounds ≤ fuel → flattenLoop fuel w s = .ok ((), s')) ∧
      BuildsList start s' (seen ++ d.flatten) := by
  induction d generalizing w s seen with
  | nil =>
      cases hdeep
      refine ⟨s, fun fuel hfuel => ?_, by rwa [DeepList.flatten, List.append_nil]⟩
      obtain ⟨fuel, rfl⟩ := Nat.exists_eq_add_of_le' hfuel
      rfl
  | cons hd tl ihtl =>
      obtain ⟨p, rfl, hp, rfl, hleaf, htl⟩ := hdeep
      obtain ⟨hhd, hnext⟩ := settled_of_untouched hbuilds.untouched hp
      have hcell : s.memory.heap.heapTop + 2 < s.memory.heap.stackTop := by
        rw [hbuilds.heapTop, hbuilds.stackTop]
        simp only [Room, DeepList.flatten, List.length_cons] at hroom
        omega
      obtain ⟨s₁, happend, hbuilds₁⟩ := append_builds hbuilds (start.memory.mem p) hcell
      obtain ⟨s₂, hloop, hbuilds₂⟩ := ihtl htl
        (by simpa [DeepList.flatten, Nat.add_assoc, Nat.add_comm 1] using hroom) hbuilds₁
      refine ⟨s₂, fun fuel hfuel => ?_, by simpa [DeepList.flatten] using hbuilds₂⟩
      obtain ⟨fuel, rfl⟩ := Nat.exists_eq_add_of_le' (Nat.le_of_add_left_le hfuel)
      rw [flattenLoop_cell hhd hnext (by rw [if_neg (by simp [hleaf]), happend])]
      exact hloop fuel (Nat.le_of_succ_le_succ hfuel)
  | deep hd tl ihhd ihtl =>
      obtain ⟨p, rfl, hp, hhd, htl⟩ := hdeep
      obtain ⟨hfirst, hnext⟩ := settled_of_untouched hbuilds.untouched hp
      simp only [DeepList.flatten, List.length_append] at hroom
      have hroom' : Room start (seen.length + hd.flatten.length) := by
        unfold Room at hroom ⊢
        omega
      obtain ⟨s₁, hinner, hbuilds₁⟩ := ihhd hhd hroom' hbuilds
      obtain ⟨s₂, hloop, hbuilds₂⟩ := ihtl htl
        (by rwa [List.length_append, Nat.add_assoc]) hbuilds₁
      refine ⟨s₂, fun fuel hfuel => ?_, by
        rwa [DeepList.flatten, ← List.append_assoc]⟩
      have hrounds : hd.rounds + tl.rounds + 2 ≤ fuel := hfuel
      obtain ⟨fuel, rfl⟩ := Nat.exists_eq_add_of_le' (Nat.le_trans (Nat.le_add_left 2 _) hrounds)
      have hinto : flattenInto (fuel + 1) (start.memory.mem p) s = .ok ((), s₁) := by
        rcases hhd.cases with ⟨hnil, -⟩ | ⟨q, hq⟩
        · have hend := hinner (fuel + 1) (by omega)
          rw [hnil] at hend ⊢
          exact hend
        · rw [hq, flattenInto_cell, ← hq]
          exact hinner fuel (by omega)
      rw [flattenLoop_cell hfirst hnext (by rw [if_pos hhd.isList, hinto])]
      exact hloop (fuel + 1) (by omega)

end Flatten

/-! ## What the functions return -/

section Returned

variable {s : ListProcess} {a b w : Word} {xs ys : List Word}

theorem append2_returns (ha : IsList s.memory a xs) (hb : IsList s.memory b ys)
    (hroom : Room s xs.length) :
    Returns (fun fuel => append2 fuel a b) s (xs ++ ys) xs.length := by
  rcases ha.cases with ⟨rfl, rfl⟩ | ⟨p, rfl, hne⟩
  · exact ⟨b, s, ⟨0, fun _ _ => rfl⟩, hb, Grown.refl s⟩
  · obtain ⟨s₁, hloop, hbuilds⟩ := eachCell_append ha hroom
    obtain ⟨headP, tailP, hends⟩ := hbuilds.exists_ends hne
    obtain ⟨hlist, hgrown⟩ := hbuilds.close hends hb
      (m := (s₁.memory.write (tailP + 1) Word.nil).write (tailP + 1) b) rfl
      (by simp [write_mem]) (fun a ha => by simp [write_mem, ha])
    exact ⟨_, _, ⟨xs.length, fun fuel hfuel => append2_of_cons (hloop fuel hfuel) hends⟩, hlist,
      hgrown⟩

theorem reverse2_returns (ha : IsList s.memory a xs) (hw : IsList s.memory w ys)
    (hroom : Room s xs.length) :
    Returns (fun fuel => reverse2 fuel a w) s (xs.reverse ++ ys) xs.length := by
  rcases ha.cases with ⟨rfl, rfl⟩ | ⟨p, rfl, hne⟩
  · exact ⟨w, s, ⟨0, fun _ _ => rfl⟩, hw, Grown.refl s⟩
  · obtain ⟨s₁, hloop, hbuilds⟩ := eachCell_prepend ha hroom
    obtain ⟨headP, tailP, hends⟩ := hbuilds.exists_ends (mt List.reverse_eq_nil_iff.mp hne)
    obtain ⟨hlist, hgrown⟩ := hbuilds.close hends hw
      (m := s₁.memory.write (tailP + 1) w) rfl
      (by simp [write_mem]) (fun a ha => by simp [write_mem, ha])
    rw [List.length_reverse] at hgrown
    exact ⟨_, _, ⟨xs.length, fun fuel hfuel => reverse2_of_cons (hloop fuel hfuel) hends⟩, hlist,
      hgrown⟩

theorem flatten1_returns {d : DeepList} (hdeep : IsDeep s.memory w d)
    (hroom : Room s d.flatten.length) :
    Returns (fun fuel => flatten1 fuel w) s d.flatten d.flatten.length := by
  rcases hdeep.cases with ⟨rfl, hnil⟩ | ⟨p, rfl⟩
  · rw [hnil]
    exact ⟨Word.nil, s, ⟨0, fun _ _ => rfl⟩, rfl, Grown.refl s⟩
  · obtain ⟨s₁, hloop, hbuilds⟩ := flattenLoop_builds hdeep
      (by simpa using hroom) (builds_new s)
    rw [List.nil_append] at hbuilds
    have hlist : (Word.consPtr p).isList = true := hdeep.isList
    have hne : Word.consPtr p ≠ Word.nil := by simp [Word.nil, Term.raw]
    have hinto (fuel : Nat) (hfuel : d.rounds + 1 ≤ fuel) :
        flattenInto fuel (.consPtr p) { s with builder := none } = .ok ((), s₁) := by
      obtain ⟨fuel, rfl⟩ := Nat.exists_eq_add_of_le' (Nat.le_of_add_left_le hfuel)
      rw [flattenInto_cell]
      exact hloop fuel (Nat.le_of_succ_le_succ hfuel)
    cases hends : s₁.builder with
    | none =>
        have hcells := hbuilds.cells
        rw [hends] at hcells
        refine ⟨Word.nil, s₁, ⟨d.rounds + 1, fun fuel hfuel => ?_⟩, hcells.symm ▸ rfl,
          hbuilds.toGrown⟩
        simp only [flatten1, hlist, hne, not_true_eq_false, if_false]
        rw [bind_eq_of_ok rfl, bind_eq_of_ok (hinto fuel hfuel), bind_eq_of_ok rfl, hends]
        rfl
    | some ends =>
        obtain ⟨headP, tailP⟩ := ends
        have hempty : IsList s.memory Word.nil [] := rfl
        obtain ⟨hflat, -⟩ := hbuilds.close hends hempty (m := s₁.memory) rfl
          (hbuilds.tail headP tailP hends) fun _ _ => rfl
        rw [List.append_nil] at hflat
        refine ⟨.consPtr headP, s₁, ⟨d.rounds + 1, fun fuel hfuel => ?_⟩, hflat,
          hbuilds.toGrown⟩
        simp only [flatten1, hlist, hne, not_true_eq_false, if_false]
        rw [bind_eq_of_ok rfl, bind_eq_of_ok (hinto fuel hfuel), bind_eq_of_ok rfl, hends]
        simp only [makeTerm]
        rw [bind_eq_of_ok rfl, hends]
        rfl

/-- One function is applied to what another one returned. -/
theorem Returns.bind {f : Nat → ListOp Word} {g : Nat → Word → ListOp Word} {zs : List Word}
    {cells more : Nat} (hf : Returns f s xs cells)
    (hg : ∀ w s', IsList s'.memory w xs → Grown s s' cells →
      Returns (fun fuel => g fuel w) s' zs more) :
    Returns (fun fuel => f fuel >>= g fuel) s zs (cells + more) := by
  obtain ⟨w, s₁, ⟨least, hf⟩, hlist, hgrown⟩ := hf
  obtain ⟨w', s₂, ⟨least', hg⟩, hlist', hgrown'⟩ := hg w s₁ hlist hgrown
  refine ⟨w', s₂, ⟨max least least', fun fuel hfuel => ?_⟩, hlist', hgrown.trans hgrown'⟩
  exact (bind_eq_of_ok (hf fuel (by omega))).trans (hg fuel (by omega))

theorem Room.mono {cells more : Nat} (h : Room s more) (hle : cells ≤ more) : Room s cells := by
  unfold Room at h ⊢
  omega

end Returned

/-- Where the heap has room for the new cells the functions return what the recursive definitions
say, and every word that was not free is left as it was. -/
theorem listBifs_return {s : ListProcess} {a b c w : Word} {xs ys zs : List Word} {d : DeepList}
    (ha : IsList s.memory a xs) (hb : IsList s.memory b ys) (hc : IsList s.memory c zs)
    (hw : IsDeep s.memory w d) :
    (Room s xs.length →
      Returns (fun fuel => append2 fuel a b) s (xs ++ ys) xs.length ∧
      Returns (fun fuel => reverse2 fuel a Word.nil) s xs.reverse xs.length ∧
      Returns (fun fuel => reverse2 fuel a b) s (xs.reverse ++ ys) xs.length) ∧
    (Room s d.flatten.length →
      Returns (fun fuel => flatten1 fuel w) s d.flatten d.flatten.length) ∧
    (Room s (xs.length + xs.length) →
      Returns (fun fuel => do reverse2 fuel (← reverse2 fuel a Word.nil) Word.nil) s xs
        (xs.length + xs.length)) ∧
    (Room s (xs.length + (xs ++ ys).length) →
      Returns (fun fuel => do append2 fuel (← append2 fuel a b) c) s (xs ++ ys ++ zs)
        (xs.length + (xs ++ ys).length) ∧
      Returns (fun fuel => do append2 fuel a (← append2 fuel b c)) s (xs ++ ys ++ zs)
        (ys.length + xs.length)) := by
  have hnil {m : HeapMemory} : IsList m Word.nil [] := rfl
  have hreverse {s : ListProcess} {a : Word} {xs : List Word} (ha : IsList s.memory a xs)
      (hroom : Room s xs.length) :
      Returns (fun fuel => reverse2 fuel a Word.nil) s xs.reverse xs.length := by
    have h := reverse2_returns ha hnil hroom
    rwa [List.append_nil] at h
  refine ⟨fun hroom => ⟨append2_returns ha hb hroom, hreverse ha hroom,
    reverse2_returns ha hb hroom⟩, flatten1_returns hw, fun hroom => ?_, fun hroom => ⟨?_, ?_⟩⟩
  · refine (hreverse ha (hroom.mono (Nat.le_add_right _ _))).bind fun w s' hlist hgrown => ?_
    have htwice := hreverse hlist (by
      rw [List.length_reverse]
      exact hgrown.room hroom)
    rwa [List.reverse_reverse, List.length_reverse] at htwice
  · refine (append2_returns ha hb (hroom.mono (Nat.le_add_right _ _))).bind
      fun w s' hlist hgrown => ?_
    exact append2_returns hlist (hgrown.isList hc) (hgrown.room hroom)
  · rw [List.length_append] at hroom
    refine (append2_returns hb hc (hroom.mono (by omega))).bind fun w s' hlist hgrown => ?_
    rw [List.append_assoc]
    exact append2_returns (hgrown.isList ha) hlist (hgrown.room (hroom.mono (by omega)))

/-- The list `[1]` on a heap of a hundred words, of which the stack takes all but so many. -/
def oneCell (stackTop : Nat) (h : 2 ≤ stackTop) (h' : stackTop ≤ 100) : ListProcess where
  memory := {
    heap := ⟨1000, 2, 2, stackTop, 100, h, h'⟩
    mem := fun a => if a = 1000 then .small 1 else Word.nil }
  builder := none

theorem isList_oneCell (stackTop : Nat) (h : 2 ≤ stackTop) (h' : stackTop ≤ 100) :
    IsList (oneCell stackTop h h').memory (.consPtr 1000) [.small 1] := by
  refine ⟨1000, rfl, ?_, rfl, rfl⟩
  simp [Settled, Emulator.ProcessHeap.Free, oneCell]

theorem listBifs_return_oneCell :
    Returns (fun fuel => append2 fuel (.consPtr 1000) (.consPtr 1000))
      (oneCell 90 (by decide) (by decide)) [.small 1, .small 1] 1 := by
  have hone := isList_oneCell 90 (by decide) (by decide)
  have hdeep : IsDeep (oneCell 90 (by decide) (by decide)).memory Word.nil .nil := rfl
  exact ((listBifs_return hone hone hone hdeep).1 (.inr (by decide))).1

/-- There is no room for another cell. -/
theorem append2_full_heap :
    (∀ fuel, append2 (fuel + 1) (.consPtr 1000) Word.nil (oneCell 4 (by decide) (by decide)) =
      .error (.panic .heapIsFull)) ∧
    ¬ ∃ cells, Returns (fun fuel => append2 fuel (.consPtr 1000) Word.nil)
      (oneCell 4 (by decide) (by decide)) [.small 1] cells := by
  have hfull (fuel : Nat) : append2 (fuel + 1) (.consPtr 1000) Word.nil
      (oneCell 4 (by decide) (by decide)) = .error (.panic .heapIsFull) := rfl
  refine ⟨hfull, ?_⟩
  rintro ⟨cells, w, s', hsettles, -⟩
  refine not_settles (fun fuel (hfuel : 1 ≤ fuel) => ?_) (w, s') hsettles
  obtain ⟨fuel, rfl⟩ := Nat.exists_eq_add_of_le' hfuel
  exact ⟨_, hfull fuel⟩

end Zeptobeam
