/-
Lists that native functions build on the heap, cell by cell, forward or backward; the tail of
the last cell stays open until the list is finished.
-/
import Zeptobeam.HeapMemory
import Zeptobeam.Lib.CellList

namespace Zeptobeam

open CellList StateExcept

/-- The memory with a `ListBuilder`: its first and its last cell, which are null pointers before
there is one. -/
structure ListProcess where
  memory : HeapMemory
  builder : Option (Nat × Nat)

abbrev ListOp := StateT ListProcess (Except NativeErr)

/-! ## Cells -/

namespace Cons

def hd (p : Nat) : ListOp Word := fun s => .ok (s.memory.mem p, s)

def tl (p : Nat) : ListOp Word := fun s => .ok (s.memory.mem (p + 1), s)

def setHd (p : Nat) (val : Word) : ListOp Unit := fun s =>
  .ok ((), { s with memory := s.memory.write p val })

def setTl (p : Nat) (val : Word) : ListOp Unit := fun s =>
  .ok ((), { s with memory := s.memory.write (p + 1) val })

end Cons

namespace ListBuilder

def new : ListOp Unit := fun s => .ok ((), { s with builder := none })

def setEnds (headP tailP : Nat) : ListOp Unit := fun s =>
  .ok ((), { s with builder := some (headP, tailP) })

/-- Creates a new cons cell to grow the list either back or forward. -/
def makeCell : ListOp Nat := fun s =>
  match s.memory.allocNil 2 with
  | .ok (p, memory) => .ok (p, { s with memory })
  | .error p => .error (.panic p)

/-- Build list forward: the tail is set to a newly allocated cell. -/
def append (val : Word) : ListOp Unit := do
  match (← get).builder with
  | none =>
      let cell ← makeCell
      setEnds cell cell
      Cons.setHd cell val
  | some (headP, tailP) =>
      let cell ← makeCell
      Cons.setTl tailP (.consPtr cell)
      setEnds headP cell
      Cons.setHd cell val

/-- Build list back: a new cell, where the tail points to the current one. -/
def prepend (val : Word) : ListOp Unit := do
  match (← get).builder with
  | none =>
      let cell ← makeCell
      setEnds cell cell
      Cons.setHd cell val
  | some (headP, tailP) =>
      let cell ← makeCell
      Cons.setTl cell (.consPtr headP)
      setEnds cell tailP
      Cons.setHd cell val

/-- Without a cell the term is a null pointer. -/
def makeTerm : ListOp Word := do
  match (← get).builder with
  | none => return .consPtr 0
  | some (headP, _) => return .consPtr headP

def makeTermWithTail (tail : Word) : ListOp Word := do
  match (← get).builder with
  | none => throw (.panic .assertion)
  | some (headP, tailP) =>
      Cons.setTl tailP tail
      return .consPtr headP

end ListBuilder

open ListBuilder

/-! ## What is built -/

/-- The place of a cell that is not in the free words of the heap. -/
def Settled (heap : Emulator.ProcessHeap) (a : Nat) : Prop :=
  ¬ heap.Free a ∧ ¬ heap.Free (a + 1)

/-- Words that are not free keep what lies there. -/
def Untouched (m m' : HeapMemory) : Prop :=
  ∀ a, ¬ m.heap.Free a → m'.mem a = m.mem a

/-- So many cells were allotted, and nothing that was there is touched. -/
structure Grown (s s' : ListProcess) (cells : Nat) : Prop where
  base : s'.memory.heap.base = s.memory.heap.base
  stackTop : s'.memory.heap.stackTop = s.memory.heap.stackTop
  heapTop : s'.memory.heap.heapTop = s.memory.heap.heapTop + 2 * cells
  untouched : Untouched s.memory s'.memory

/-- The cells that were allotted since the first state hold these elements; the tail of the last
one is nil. -/
structure BuildsList (start s : ListProcess) (xs : List Word) : Prop
    extends Grown start s xs.length where
  cells : Open Word.consPtr s.memory.mem (start.memory.heap.base + start.memory.heap.heapTop)
    (s.memory.heap.base + s.memory.heap.heapTop) s.builder xs
  tail : ∀ headP tailP, s.builder = some (headP, tailP) → s.memory.mem (tailP + 1) = Word.nil

theorem Grown.refl (s : ListProcess) : Grown s s 0 :=
  ⟨rfl, rfl, rfl, fun _ _ => rfl⟩

section Building

variable {start s : ListProcess} {xs : List Word}

theorem builds_new (s : ListProcess) :
    BuildsList s { s with builder := none } [] where
  base := rfl
  stackTop := rfl
  heapTop := rfl
  untouched _ _ := rfl
  cells := rfl
  tail _ _ h := by cases h

/-- The words of a cell that was just allotted are nil, and the others stay. -/
theorem makeCell_eq (hroom : s.memory.heap.heapTop + 2 < s.memory.heap.stackTop) :
    ∃ s', makeCell s = .ok (s.memory.heap.base + s.memory.heap.heapTop, s') ∧
      s'.builder = s.builder ∧ s'.memory.heap.base = s.memory.heap.base ∧
      s'.memory.heap.stackTop = s.memory.heap.stackTop ∧
      s'.memory.heap.heapTop = s.memory.heap.heapTop + 2 ∧
      ∀ a, s'.memory.mem a =
        if a = s.memory.heap.base + s.memory.heap.heapTop ∨
          a = s.memory.heap.base + s.memory.heap.heapTop + 1 then Word.nil else s.memory.mem a := by
  have halloc := alloc_eq_ok_iff.mpr ⟨hroom, rfl, rfl⟩
  unfold makeCell HeapMemory.allocNil
  simp only [halloc, bind, Except.bind, pure, Except.pure]
  refine ⟨_, rfl, rfl, rfl, rfl, rfl, fun a => ?_⟩
  simp only
  congr 1
  apply propext
  omega

section Grow

variable {s₁ : ListProcess} {p headP tailP : Nat} {x : Word}

theorem append_first (hends : s.builder = none) (hcell : makeCell s = .ok (p, s₁)) :
    append x s = .ok ((), ⟨s₁.memory.write p x, some (p, p)⟩) := by
  simp only [append, bind, StateT.bind, get, getThe, MonadStateOf.get, StateT.get, pure,
    Except.pure, Except.bind, hends, hcell, setEnds, Cons.setHd]

theorem append_next (hends : s.builder = some (headP, tailP)) (hcell : makeCell s = .ok (p, s₁)) :
    append x s =
      .ok ((), ⟨(s₁.memory.write (tailP + 1) (.consPtr p)).write p x, some (headP, p)⟩) := by
  simp only [append, bind, StateT.bind, get, getThe, MonadStateOf.get, StateT.get, pure,
    Except.pure, Except.bind, hends, hcell, setEnds, Cons.setHd, Cons.setTl]

theorem prepend_first (hends : s.builder = none) : prepend x s = append x s := by
  simp only [prepend, append, bind, StateT.bind, get, getThe, MonadStateOf.get, StateT.get, pure,
    Except.pure, Except.bind, hends]

theorem prepend_next (hends : s.builder = some (headP, tailP))
    (hcell : makeCell s = .ok (p, s₁)) :
    prepend x s =
      .ok ((), ⟨(s₁.memory.write (p + 1) (.consPtr headP)).write p x, some (p, tailP)⟩) := by
  simp only [prepend, bind, StateT.bind, get, getThe, MonadStateOf.get, StateT.get, pure,
    Except.pure, Except.bind, hends, hcell, setEnds, Cons.setHd, Cons.setTl]

end Grow

theorem write_mem (m : HeapMemory) (addr : Nat) (w : Word) (a : Nat) :
    (m.write addr w).mem a = if a = addr then w else m.mem a := by
  simp only [HeapMemory.write, Function.update_apply]

/-- Another cell was allotted, and linked with the ones before it. -/
theorem BuildsList.grow {s' : ListProcess} {ys : List Word} (h : BuildsList start s xs)
    (hbase : s'.memory.heap.base = s.memory.heap.base)
    (hstack : s'.memory.heap.stackTop = s.memory.heap.stackTop)
    (htop : s'.memory.heap.heapTop = s.memory.heap.heapTop + 2)
    (huntouched : ∀ a, ¬ start.memory.heap.Free a → s'.memory.mem a = s.memory.mem a)
    (hlength : ys.length = xs.length + 1)
    (hcells : Open Word.consPtr s'.memory.mem
      (start.memory.heap.base + start.memory.heap.heapTop)
      (s.memory.heap.base + s.memory.heap.heapTop + 2) s'.builder ys)
    (htail : ∀ headP tailP, s'.builder = some (headP, tailP) →
      s'.memory.mem (tailP + 1) = Word.nil) : BuildsList start s' ys where
  base := hbase.trans h.base
  stackTop := hstack.trans h.stackTop
  heapTop := by
    rw [htop, h.heapTop, hlength]
    omega
  untouched a ha := (huntouched a ha).trans (h.untouched a ha)
  cells := by
    rw [hbase, htop, ← Nat.add_assoc]
    exact hcells
  tail := htail

theorem BuildsList.low (h : BuildsList start s xs) :
    start.memory.heap.base + start.memory.heap.heapTop ≤
      s.memory.heap.base + s.memory.heap.heapTop := by
  rw [h.base, h.heapTop]
  omega

/-- The words of the next cell are free. -/
theorem BuildsList.free_top (h : BuildsList start s xs)
    (hroom : s.memory.heap.heapTop + 2 < s.memory.heap.stackTop) {a : Nat}
    (ha : start.memory.heap.base + start.memory.heap.heapTop ≤ a)
    (ha' : a < s.memory.heap.base + s.memory.heap.heapTop + 2) : start.memory.heap.Free a := by
  have hbase := h.base
  have hstack := h.stackTop
  exact ⟨ha, by omega⟩

theorem BuildsList.ne_of_not_free (h : BuildsList start s xs)
    (hroom : s.memory.heap.heapTop + 2 < s.memory.heap.stackTop) {a : Nat}
    (ha : ¬ start.memory.heap.Free a) :
    a ≠ s.memory.heap.base + s.memory.heap.heapTop ∧
      a ≠ s.memory.heap.base + s.memory.heap.heapTop + 1 := by
  have hlow := h.low
  constructor
  · exact fun heq => ha (h.free_top hroom (by omega) (by omega))
  · exact fun heq => ha (h.free_top hroom (by omega) (by omega))

theorem append_builds (h : BuildsList start s xs) (x : Word)
    (hroom : s.memory.heap.heapTop + 2 < s.memory.heap.stackTop) :
    ∃ s', append x s = .ok ((), s') ∧ BuildsList start s' (xs ++ [x]) := by
  obtain ⟨s₁, hcell, -, hbase, hstack, htop, hmem⟩ := makeCell_eq hroom
  have hlow := h.low
  have hne {a : Nat} := h.ne_of_not_free hroom (a := a)
  have hcells := h.cells
  obtain ⟨p, hp⟩ : ∃ p, p = s.memory.heap.base + s.memory.heap.heapTop := ⟨_, rfl⟩
  rw [← hp] at hcell hmem hlow hne hcells
  cases hends : s.builder with
  | none =>
      rw [hends] at hcells
      obtain rfl : xs = [] := hcells
      refine ⟨_, append_first hends hcell, h.grow hbase hstack htop (fun a ha => ?_) rfl ?_ ?_⟩
      · simp [write_mem, hmem, hne ha]
      · rw [← hp]
        exact open_singleton (by simp [write_mem]) hlow
      · rintro headP tailP ⟨⟩
        simp [write_mem, hmem]
  | some ends =>
      obtain ⟨headP, tailP⟩ := ends
      rw [hends] at hcells
      have htailP := hcells.1
      have htailP' := hcells.2.1
      refine ⟨_, append_next hends hcell, h.grow hbase hstack htop (fun a ha => ?_)
        List.length_append ?_ ?_⟩
      · have hlink : a ≠ tailP + 1 :=
          fun heq => ha (h.free_top hroom (by omega) (by omega))
        simp [write_mem, hmem, hne ha, hlink]
      · rw [← hp]
        refine hcells.append (by simp [write_mem]) ?_ fun a ha hne => ?_
        · have hne : tailP + 1 ≠ p := by omega
          simp [write_mem, hne]
        · have hne' : a ≠ p ∧ a ≠ p + 1 := by omega
          simp [write_mem, hmem, hne, hne']
      · rintro headP' tailP' ⟨⟩
        have hne : p ≠ tailP := by omega
        simp [write_mem, hmem, hne]

theorem prepend_builds (h : BuildsList start s xs) (x : Word)
    (hroom : s.memory.heap.heapTop + 2 < s.memory.heap.stackTop) :
    ∃ s', prepend x s = .ok ((), s') ∧ BuildsList start s' (x :: xs) := by
  obtain ⟨s₁, hcell, -, hbase, hstack, htop, hmem⟩ := makeCell_eq hroom
  have hlow := h.low
  have hne {a : Nat} := h.ne_of_not_free hroom (a := a)
  have hcells := h.cells
  obtain ⟨p, hp⟩ : ∃ p, p = s.memory.heap.base + s.memory.heap.heapTop := ⟨_, rfl⟩
  rw [← hp] at hcell hmem hlow hne hcells
  cases hends : s.builder with
  | none =>
      rw [hends] at hcells
      obtain rfl : xs = [] := hcells
      rw [prepend_first hends]
      exact append_builds h x hroom
  | some ends =>
      obtain ⟨headP, tailP⟩ := ends
      rw [hends] at hcells
      have htailP := hcells.2.1
      refine ⟨_, prepend_next hends hcell, h.grow hbase hstack htop (fun a ha => ?_) rfl ?_ ?_⟩
      · simp [write_mem, hmem, hne ha]
      · rw [← hp]
        refine hcells.prepend (by simp [write_mem]) (by simp [write_mem]) fun a ha => ?_
        have hne' : a ≠ p ∧ a ≠ p + 1 := by omega
        simp [write_mem, hmem, hne']
      · rintro headP' tailP' ⟨⟩
        have hnil := h.tail headP tailP hends
        have hne' : tailP ≠ p ∧ tailP + 1 ≠ p := by omega
        simp [write_mem, hmem, hne', hnil]

end Building

end Zeptobeam
