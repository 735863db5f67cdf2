/-
What native functions and instructions that make terms work on: the heap of the process, the
words that lie there, and the errors that they return.
-/
import Zeptobeam.CopyTerm

namespace Zeptobeam

open Emulator StateExcept

/-- A native function raises an exception of the class `error`, or does not return. -/
inductive NativeErr where
  | badarg
  | badarith
  | creatingZeroSizedBinary
  /-- The pointer of a term that is none. -/
  | invalidDereference
  | panic (p : Panic)
deriving DecidableEq, Repr

/-- `alloc`: expanding without a collection is forbidden. -/
def Emulator.ProcessHeap.alloc (heap : ProcessHeap) (nWords : Nat) :
    Except Panic (Nat × ProcessHeap) :=
  if h : heap.stackTop ≤ heap.heapTop + nWords then .error .heapIsFull
  else .ok (heap.base + heap.heapTop, { heap with
    heapTop := heap.heapTop + nWords
    heapTop_le := by omega })

/-- The words that are not allotted yet. -/
def Emulator.ProcessHeap.Free (heap : ProcessHeap) (addr : Nat) : Prop :=
  heap.base + heap.heapTop ≤ addr ∧ addr < heap.base + heap.stackTop

/-- What a native function does with the heap. -/
abbrev Native := StateT ProcessHeap (Except NativeErr)

namespace Native

def badarg {α : Type} : Native α := throw .badarg

def badarith {α : Type} : Native α := throw .badarith

def panic {α : Type} (p : Panic) : Native α := throw (.panic p)

def alloc (nWords : Nat) : Native Nat := fun heap =>
  (heap.alloc nWords).mapError .panic

end Native

namespace Word

def nil : Word := Term.nil.raw

def isCons : Word → Bool
  | .consPtr _ => true
  | _ => false

def isList (w : Word) : Bool :=
  w = nil || w.isCons

end Word

/-- A heap with its words. -/
structure HeapMemory where
  heap : ProcessHeap
  mem : Nat → Word

namespace HeapMemory

def write (m : HeapMemory) (addr : Nat) (w : Word) : HeapMemory :=
  { m with mem := Function.update m.mem addr w }

/-- `alloc`, with the words filled with nil. -/
def allocNil (m : HeapMemory) (nWords : Nat) : Except Panic (Nat × HeapMemory) := do
  let (p, heap) ← m.heap.alloc nWords
  return (p, ⟨heap, fun a => if p ≤ a ∧ a < p + nWords then Word.nil else m.mem a⟩)

end HeapMemory

section Alloc

variable {heap heap' : ProcessHeap} {m : HeapMemory} {p nWords : Nat}

theorem alloc_eq_ok_iff :
    heap.alloc nWords = .ok (p, heap') ↔ ∃ hroom : heap.heapTop + nWords < heap.stackTop,
      p = heap.base + heap.heapTop ∧
      heap' = { heap with heapTop := heap.heapTop + nWords, heapTop_le := hroom.le } := by
  unfold ProcessHeap.alloc
  split
  next hfull => simp [Nat.not_lt.mpr hfull]
  next hroom => simp [Nat.not_le.mp hroom, eq_comm]

theorem alloc_eq_error (hfull : heap.stackTop ≤ heap.heapTop + nWords) :
    heap.alloc nWords = .error .heapIsFull :=
  dif_pos hfull

theorem native_alloc_of_room (hroom : heap.heapTop + nWords < heap.stackTop) :
    ∃ p heap', Native.alloc nWords heap = .ok (p, heap') :=
  ⟨_, _, mapError_eq_ok_iff.mpr (alloc_eq_ok_iff.mpr ⟨hroom, rfl, rfl⟩)⟩

theorem native_alloc_of_full (hfull : heap.stackTop ≤ heap.heapTop + nWords) :
    Native.alloc nWords heap = .error (.panic .heapIsFull) := by
  rw [Native.alloc, alloc_eq_error hfull]
  rfl

end Alloc

end Zeptobeam
