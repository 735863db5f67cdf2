/-
What the instructions on terms read and write: the registers and the stack of the process, the
top of its heap, and the words of the code behind the instruction.
-/
import Zeptobeam.BitMatching
import Zeptobeam.HeapMemory
import Zeptobeam.Lib.MovesInTurn

namespace Zeptobeam

open MovesInTurn Emulator StateExcept

/-- A word that an instruction loads: a register, or a term that is ready. -/
abbrev TermSource := Source Reg Term

/-- What lies in a register or in a cell of the stack. -/
inductive Contents where
  | term (t : Term)
  /-- Nothing was written there yet, or no term was. -/
  | nonValue
  | float (f : Float)

/-- The process, with the runtime context.  The places of the stack are those that its depth
admits. -/
structure TermProcess where
  regs : Reg → Contents
  heap : ProcessHeap
  ip : Nat
  argsPtr : Nat

/-- An instruction returns `Err`, or does not return. -/
inductive OpStop where
  | stackIndexRange (y : Nat)
  /-- A word that is no term: an assertion in a debug build, while a release build goes on with
  the word. -/
  | nonValue
  /-- The pointer of a term that is none: an assertion in a debug build, a read through the
  bits of the word in a release build. -/
  | invalidDereference
  | panic (p : Panic)
deriving DecidableEq, Repr

/-- The words on the stack. -/
def stackDepth (heap : ProcessHeap) : Nat :=
  heap.capacity - heap.stackTop

/-- `get_x` and `get_y`; a value that is not on the stack is unwrapped. -/
def readReg (depth : Nat) : Reg → Contents → Except OpStop Term
  | .x n, .term t => if n < 256 then .ok t else .error (.panic .indexOutOfBounds)
  | .x n, _ => .error (if n < 256 then .nonValue else .panic .indexOutOfBounds)
  | .y n, contents =>
      if depth < n + 1 then .error (.panic .unwrap)
      else if depth = n + 1 then .error (.panic .indexOutOfBounds)
      else
        match contents with
        | .term t => .ok t
        | _ => .error .nonValue
  | .float _, _ => .error (.panic (.unimplemented
      "FP register load via general load() is not supported; use fmove/fconv opcodes"))

/-- The number that goes into a float register. -/
def asFloat : Term → Option Float
  | .boxed _ (.float value) => some value
  | .small value => some (Float.ofInt value)
  | _ => none

/-- `set_x` and `set_y`, and the store into a float register. -/
def holdReg (depth : Nat) : Reg → Term → Except OpStop Contents
  | .x n, t => if n < 256 then .ok (.term t) else .error (.panic .indexOutOfBounds)
  | .y n, t =>
      if depth < n + 1 then .error (.stackIndexRange n)
      else if depth = n + 1 then .error (.panic .indexOutOfBounds)
      else .ok (.term t)
  | .float n, t =>
      match asFloat t with
      | some f => if n < 8 then .ok (.float f) else .error (.panic .indexOutOfBounds)
      | none => .error (.panic (.unimplemented "Cannot store non-numeric value into FP register"))

namespace TermProcess

/-- Read a register; otherwise the term is returned unchanged. -/
def load (s : TermProcess) : TermSource → Except OpStop Term
  | .place r => readReg (stackDepth s.heap) r (s.regs r)
  | .value t => .ok t

def storeValue (s : TermProcess) (val : Term) (dst : Reg) : Except OpStop TermProcess := do
  let contents ← holdReg (stackDepth s.heap) dst val
  return { s with regs := Function.update s.regs dst contents }

end TermProcess

namespace Emulator.ProcessHeap

/-- `Tuple::create_into`. -/
def createTuple (heap : ProcessHeap) (arity : Nat) : Except OpStop (Nat × ProcessHeap) := do
  let (p, heap) ← (heap.alloc (heap.boxHeader + arity)).mapError .panic
  if arity = 0 then throw (.panic .assertion)
  return (p, heap)

end Emulator.ProcessHeap

section Registers

variable {s s' : TermProcess} {depth arity p : Nat} {t : Term} {r : Reg}

/-- A place takes one value that is no number when it takes another. -/
theorem holdReg_eq_ok_iff {contents : Contents} (ht : asFloat t = none) :
    holdReg depth r t = .ok contents ↔
      contents = .term t ∧ ((∃ n < 256, r = .x n) ∨ ∃ n, r = .y n ∧ n + 1 < depth) := by
  cases r with
  | x n =>
      by_cases hn : n < 256
      · simp [holdReg, hn, eq_comm]
      · simp [holdReg, hn]
  | y n =>
      simp only [holdReg]
      split
      · simp
        omega
      · split
        · simp
          omega
        · simp only [Except.ok.injEq, reduceCtorEq, and_false, exists_false, Reg.y.injEq,
            exists_eq_left', false_or, eq_comm (a := contents)]
          exact (and_iff_left (by omega)).symm
  | float n => simp [holdReg, ht]

/-- What is loaded depends on the registers and on the depth of the stack. -/
theorem load_congr (s s' : TermProcess) (hdepth : stackDepth s'.heap = stackDepth s.heap)
    (hregs : s'.regs = s.regs) (src : TermSource) : s'.load src = s.load src := by
  cases src with
  | place r => rw [TermProcess.load, TermProcess.load, hdepth, hregs]
  | value t => rfl

/-- A tuple of some elements is made where there is room for it. -/
theorem createTuple_eq_ok {heap heap' : ProcessHeap}
    (h : heap.createTuple arity = .ok (p, heap')) :
    arity ≠ 0 ∧ heap.heapTop + (heap.boxHeader + arity) < heap.stackTop ∧
      p = heap.base + heap.heapTop ∧ stackDepth heap' = stackDepth heap := by
  obtain ⟨⟨p', heap''⟩, halloc, h⟩ := except_bind_eq_ok_iff.mp h
  obtain ⟨hroom, rfl, rfl⟩ := alloc_eq_ok_iff.mp (mapError_eq_ok_iff.mp halloc)
  by_cases harity : arity = 0
  · simp [harity, bind, Except.bind, throw, throwThe, MonadExceptOf.throw] at h
  · simp only [harity, if_false, bind, Except.bind, pure, Except.pure, Except.ok.injEq,
      Prod.mk.injEq] at h
    exact ⟨harity, hroom, h.1.symm, by rw [← h.2]; rfl⟩

theorem exists_createTuple {heap : ProcessHeap} (harity : arity ≠ 0)
    (hroom : heap.heapTop + (heap.boxHeader + arity) < heap.stackTop) :
    ∃ created, heap.createTuple arity = .ok created := by
  have halloc : (heap.alloc (heap.boxHeader + arity)).mapError OpStop.panic = .ok (_, _) :=
    mapError_eq_ok_iff.mpr (alloc_eq_ok_iff.mpr ⟨hroom, rfl, rfl⟩)
  unfold ProcessHeap.createTuple
  simp only [halloc, harity, if_false, bind, Except.bind, pure, Except.pure, Except.ok.injEq,
    exists_eq']

theorem storeValue_eq_ok_iff :
    s.storeValue t r = .ok s' ↔ ∃ contents, holdReg (stackDepth s.heap) r t = .ok contents ∧
      { s with regs := Function.update s.regs r contents } = s' := by
  unfold TermProcess.storeValue
  rw [except_bind_eq_ok_iff]
  simp only [pure, Except.pure, Except.ok.injEq]

end Registers

end Zeptobeam
