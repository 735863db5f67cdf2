/-
The heap that the loader builds terms on, and the limbs of big integers.  The heap is
drawn as far as a loader can tell it apart: how many words it has allotted and has left,
and whether an object reaches behind the words it was allotted, as maps that are full and
big integers of more than one limb do, so that the next one is written over it.
-/
import Zeptobeam.FileReader

namespace Zeptobeam

/-- `IncrementalHeap`, in words. -/
structure Heap where
  /-- The size of a box header: three words in a debug build, two in a release build. -/
  boxHeader : Nat
  heapTop : Nat
  stackTop : Nat
  /-- How many words behind the top are in use. -/
  behindTop : Nat
  /-- A word in use was written over. -/
  damaged : Bool
deriving DecidableEq, Repr

structure LoadState where
  reader : BinaryReader
  heap : Heap
deriving DecidableEq, Repr

abbrev Loading := StateT LoadState (Except Stop)

def LoadState.advance (s : LoadState) (n : Nat) : LoadState :=
  { s with reader := s.reader.advance n }

@[simp]
theorem LoadState.advance_advance (s : LoadState) (m n : Nat) :
    (s.advance m).advance n = s.advance (m + n) := by
  simp [advance]

@[simp]
theorem LoadState.reader_advance (s : LoadState) (n : Nat) :
    (s.advance n).reader = s.reader.advance n := rfl

namespace Loading

/-- A read, which leaves the heap. -/
def reading {α : Type} (x : Reading α) : Loading α := fun s =>
  match x s.reader with
  | .ok (a, reader) => .ok (a, { s with reader })
  | .error stop => .error stop

def panic {α : Type} (p : Panic) : Loading α := fun _ =>
  .error (.panic p)

def err {α : Type} (e : RtErr) : Loading α := fun _ =>
  .error (.err e)

/-- Run the body `n` times, one after the other. -/
def times {α : Type} : Nat → Loading α → Loading (List α)
  | 0, _ => pure []
  | n + 1, body => do
      let first ← body
      let others ← times n body
      return first :: others

section Reads

variable {s : LoadState} {bytes rest : List UInt8}

theorem reading_readBytes (h : s.reader.Reads bytes rest) :
    reading (BinaryReader.readBytes bytes.length) s = .ok (bytes, s.advance bytes.length) := by
  rw [reading, BinaryReader.readBytes_of_reads h]
  rfl

theorem reading_readU8 {b : UInt8} (h : s.reader.Reads (b :: bytes) rest) :
    reading BinaryReader.readU8 s = .ok (b, s.advance 1) := by
  rw [reading, BinaryReader.readU8_of_reads h]
  rfl

end Reads

end Loading

namespace Heap

/-- Allot `nWords` at the top, over whatever is there. -/
def alloc (nWords : Nat) : Loading Unit := fun s =>
  if s.heap.stackTop ≤ s.heap.heapTop + nWords then .error (.panic .heapIsFull)
  else .ok ((), { s with heap := { s.heap with
    heapTop := s.heap.heapTop + nWords
    behindTop := 0
    damaged := s.heap.damaged || 0 < s.heap.behindTop } })

/-- Write `nWords` behind the words that were allotted last. -/
def writeBehind (nWords : Nat) : Loading Unit := fun s =>
  if s.heap.stackTop < s.heap.heapTop + nWords then .error (.panic .outsideAllocation)
  else .ok ((), { s with heap := { s.heap with
    behindTop := max s.heap.behindTop nWords } })

end Heap

/-- `SMALL_INT` words hold 61 bits; what does not fit is cut off. -/
def smallBits (value : Int) : Int :=
  Int.bmod value (2 ^ 61)

def smallFits (value : Int) : Prop :=
  -2 ^ 60 ≤ value ∧ value < 2 ^ 60

instance (value : Int) : Decidable (smallFits value) :=
  inferInstanceAs (Decidable (_ ∧ _))

theorem smallBits_of_fits {value : Int} (h : smallFits value) : smallBits value = value := by
  obtain ⟨hlow, hhigh⟩ := h
  rw [smallBits, Int.bmod_eq_of_le] <;> omega

inductive Sign where
  | positive
  | negative
  | zero
deriving DecidableEq, Repr

inductive Endianness where
  | little
  | big
deriving DecidableEq, Repr

/-- The byte order of the machine. -/
def Endianness.default : Endianness := .little

/-- The number that the bytes are, least significant byte first. -/
def littleEndian : List UInt8 → Nat
  | [] => 0
  | b :: bytes => b.toNat + 256 * littleEndian bytes

/-- The words of a memory of `8 * n` bytes. -/
def wordsOf : Nat → List UInt8 → List Nat
  | 0, _ => []
  | n + 1, bytes => littleEndian (bytes.take 8) :: wordsOf n (bytes.drop 8)

/-- `make_limbs_from_bytes`: whole runs of `WORD_BITS` bytes are copied, and then the bytes
left over, to where the last limb is. -/
def makeLimbsFromBytes (inputEndian : Endianness) (b : List UInt8) : Except Panic (List Nat) :=
  if inputEndian ≠ .default then .error .assertion
  else
    let dstSize := (b.length + 8 - 1) / 8
    let whole := b.length - b.length % 64
    let remainingBytes := b.length % 64
    let dst := b.take whole ++ List.replicate (8 * dstSize - whole) 0
    if 0 < remainingBytes ∧ 0 < dstSize then
      let index := dstSize - 1
      if b.length < index * 8 + remainingBytes ∨ 8 * dstSize < index * 8 + remainingBytes then
        .error .outsideAllocation
      else
        .ok (wordsOf dstSize (dst.take (index * 8) ++
          (b.drop (index * 8)).take remainingBytes ++ List.replicate 8 0))
    else .ok (wordsOf dstSize dst)

/-- `Bignum::create_into`: words for one limb are allotted, and all of them are written. -/
def createBignum (limbs : List Nat) : Loading Unit := do
  Heap.alloc ((← get).heap.boxHeader + 2)
  if 1 < limbs.length then Heap.writeBehind (limbs.length - 1)

end Zeptobeam
