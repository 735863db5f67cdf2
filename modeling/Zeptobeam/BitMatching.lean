/-
What the instructions of binary matching work on: the match context, the registers and the
stack of the process, and its heap, where the slices of a binary are made.
-/
import Zeptobeam.LiteralHeap
import Zeptobeam.MatchState

namespace Zeptobeam

/-- A value in a register, as far as the instructions make or look at it. -/
inductive RegValue where
  | small (value : Int)
  | emptyBinary
  | slice (addr : Nat) (bin : TBinary)
  | other (word : Nat)
deriving DecidableEq, Repr

inductive Reg where
  | x (n : Nat)
  | y (n : Nat)
  | float (n : Nat)
deriving DecidableEq, Repr

/-- The process, with the match context of the instruction.  The stack is listed from its
top on, where the return address lies. -/
structure MatchProcess where
  context : BinaryMatchState
  x : List RegValue
  fp : List Float
  stack : List RegValue
  heapTop : Nat
  stackTop : Nat
  live : Nat

/-- An instruction returns `Err`, or does not return. -/
inductive MatchStop where
  | badarg
  | stackIndexRange (y : Nat)
  | creatingZeroSizedSlice
  /-- The pointer of a term that is none: an assertion in a debug build, a read through the
  bits of the word in a release build. -/
  | invalidDereference
  | panic (p : Panic)
deriving DecidableEq, Repr

/-- What was changed before an instruction stops stays changed. -/
abbrev Matching := ExceptT MatchStop (StateM MatchProcess)

namespace Matching

/-- The result of a computation, and the process after it. -/
def run {α : Type} (x : Matching α) (s : MatchProcess) : Except MatchStop α × MatchProcess :=
  StateT.run (ExceptT.run x) s

section Run

variable {α β : Type} {x : Matching α} {f : α → Matching β} {s s' : MatchProcess}

@[simp]
theorem run_pure (a : α) (s : MatchProcess) : run (pure a) s = (.ok a, s) := rfl

@[simp]
theorem run_get (s : MatchProcess) : run get s = (.ok s, s) := rfl

@[simp]
theorem run_set (s s' : MatchProcess) : run (set s') s = (.ok (), s') := rfl

@[simp]
theorem run_modify (change : MatchProcess → MatchProcess) (s : MatchProcess) :
    run (modify change) s = (.ok (), change s) := rfl

theorem run_bind_ok {a : α} (h : run x s = (.ok a, s')) :
    run (x >>= f) s = run (f a) s' := by
  unfold run at h ⊢
  rw [ExceptT.run_bind, StateT.run_bind, h]
  rfl

end Run

def panic {α : Type} (p : Panic) : Matching α :=
  throw (.panic p)

/-- A computation of its own, which may panic. -/
def lift {α : Type} (result : Except Panic α) : Matching α :=
  match result with
  | .ok a => pure a
  | .error p => panic p

def getContext : Matching BinaryMatchState := do
  return (← get).context

def setContext (context : BinaryMatchState) : Matching Unit :=
  modify fun s => { s with context }

def getBitsRemaining (debug : Bool) : Matching Nat := do
  lift ((← getContext).getBitsRemaining debug)

def setOffset (offs : Nat) : Matching Unit := do
  setContext ((← getContext).setOffset offs)

def increaseOffset (offs : Nat) : Matching Unit := do
  setContext ((← getContext).increaseOffset offs)

/-- `BitSize::with_unit`; a debug build asserts that the product fits. -/
def withUnit (debug : Bool) (size unit : Nat) : Except Panic Nat :=
  if debug then
    if unit = 0 then .error .arithmeticOverflow
    else if size < (2 ^ 64 - 1) / unit then .ok (size * unit)
    else .error .assertion
  else .ok (size * unit % 2 ^ 64)

/-- A product of two words. -/
def mulWords (debug : Bool) (a b : Nat) : Except Panic Nat :=
  if debug ∧ 2 ^ 64 ≤ a * b then .error .arithmeticOverflow
  else .ok (a * b % 2 ^ 64)

/-- `store_value`, of a value that matching makes. -/
def storeValue (val : RegValue) (dst : Reg) : Matching Unit := do
  let s ← get
  match dst with
  | .x n =>
      if n < s.x.length then set { s with x := s.x.set n val }
      else panic .indexOutOfBounds
  | .y n =>
      if s.stack.length < n + 1 then throw (.stackIndexRange n)
      else if n + 1 < s.stack.length then set { s with stack := s.stack.set (n + 1) val }
      else panic .indexOutOfBounds
  | .float n =>
      match val with
      | .small value =>
          if n < s.fp.length then set { s with fp := s.fp.set n (Float.ofInt value) }
          else panic .indexOutOfBounds
      | _ => panic (.unimplemented "Cannot store non-numeric value into FP register")

/-- The words of a `BinarySlice`, with the header of a boxed value. -/
def sliceWords (debug : Bool) : Nat :=
  (if debug then 3 else 2) + 5

/-- `ensure_heap`; the garbage collector is not finished. -/
def ensureHeap (need : Nat) : Matching Unit := do
  let s ← get
  if s.heapTop + need ≤ s.stackTop then return
  else panic (.unimplemented "Copying GC: Done")

/-- `BinarySlice::create_into`. -/
def createSlice (debug : Bool) (orig : TBinary) (offset size : Nat) : Matching RegValue := do
  if size = 0 then throw .creatingZeroSizedSlice
  let s ← get
  if s.stackTop ≤ s.heapTop + sliceWords debug then panic .heapIsFull
  set { s with heapTop := s.heapTop + sliceWords debug }
  return .slice s.heapTop (.slice orig offset size)

/-- Make a slice of what the match context is of, from its position on. -/
def makeSlice (debug : Bool) (live size : Nat) : Matching RegValue := do
  modify fun s => { s with live }
  ensureHeap (sliceWords debug)
  let context ← getContext
  createSlice debug context.orig context.readPosition size

end Matching

end Zeptobeam
