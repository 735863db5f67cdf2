/-
The reader that the loader goes through a file with.  It holds the whole file and a
position: reads of a fixed width slice the buffer, and panic where it ends before them,
reads of a given size report that it ends.
-/
import Mathlib.Algebra.Ring.Int.Defs
import Mathlib.Algebra.Ring.Nat
import Zeptobeam.Lib.LineFile
import Zeptobeam.Lib.StateExcept
import Zeptobeam.BinaryReaders

namespace Zeptobeam

/-- How a function ends that neither returns nor reports an error. -/
inductive Panic where
  | indexOutOfBounds
  /-- A panic in a debug build, a wrapped result in a release build. -/
  | arithmeticOverflow
  | assertion
  | unwrap
  | heapIsFull
  /-- A copy through a raw pointer that leaves what was allotted for it. -/
  | outsideAllocation
  | unimplemented (what : String)
  /-- The comparison of two terms ends so. -/
  | comparing (fault : Fault)
  | outOfFuel
deriving DecidableEq, Repr

inductive ReadError where
  | readFailed (text : String)
  /-- `ReadFailed` with the text of the UTF-8 error. -/
  | invalidUtf8
  | prematureEOF
deriving DecidableEq, Repr

inductive CompactTermError where
  | literalTag
  | atomTag
  | xRegTag
  | yRegTag
  | labelTag
  | characterTag
  | extendedTag (text : String)
deriving DecidableEq, Repr

/-- The errors of the loader. -/
inductive RtErr where
  | etfParseError (text : String)
  | readError (e : ReadError)
  | codeLoadingFailed (text : String)
  | codeLoadingCompactTerm (e : CompactTermError)
deriving DecidableEq, Repr

/-- A function returns `Err`, or does not return. -/
inductive Stop where
  | err (e : RtErr)
  | panic (p : Panic)
deriving DecidableEq, Repr

structure BinaryReader where
  buf : List UInt8
  pos : Nat
deriving DecidableEq, Repr

abbrev Reading := StateT BinaryReader (Except Stop)

/-- The number that the bytes are, most significant byte first. -/
def bigEndian (bytes : List UInt8) : Nat :=
  bytes.foldl (fun n b => n * 256 + b.toNat) 0

/-- The last `k` digits of the number to the base 256, most significant first. -/
def bigEndianBytes : Nat → Nat → List UInt8
  | 0, _ => []
  | k + 1, n => bigEndianBytes k (n / 256) ++ [UInt8.ofNat (n % 256)]

@[simp]
theorem length_bigEndianBytes (k n : Nat) : (bigEndianBytes k n).length = k := by
  induction k generalizing n with
  | zero => rfl
  | succ k ih => simp [bigEndianBytes, ih]

theorem bigEndian_append_singleton (bytes : List UInt8) (b : UInt8) :
    bigEndian (bytes ++ [b]) = bigEndian bytes * 256 + b.toNat := by
  simp [bigEndian]

/-- The digits are those of the number they are taken from. -/
theorem bigEndian_bigEndianBytes (k n : Nat) :
    bigEndian (bigEndianBytes k n) = n % 256 ^ k := by
  induction k generalizing n with
  | zero => simp [bigEndianBytes, bigEndian, Nat.mod_one]
  | succ k ih =>
      have hbyte : (UInt8.ofNat (n % 256)).toNat = n % 256 :=
        UInt8.toNat_ofNat_of_lt' (Nat.mod_lt n (by decide))
      rw [bigEndianBytes, bigEndian_append_singleton, ih, hbyte, Nat.pow_succ, Nat.mul_comm (256 ^ k), Nat.mod_mul]
      omega

theorem bigEndian_bigEndianBytes_of_lt {k n : Nat} (h : n < 256 ^ k) :
    bigEndian (bigEndianBytes k n) = n := by
  rw [bigEndian_bigEndianBytes, Nat.mod_eq_of_lt h]

theorem headD_append_singleton {bytes : List UInt8} {b : UInt8} (hne : bytes ≠ []) :
    (bytes ++ [b]).headD 0 = bytes.headD 0 := by
  cases bytes with
  | nil => exact absurd rfl hne
  | cons _ _ => rfl

theorem headD_bigEndianBytes (k n : Nat) (h : n < 256 ^ (k + 1)) :
    ((bigEndianBytes (k + 1) n).headD 0).toNat = n / 256 ^ k := by
  induction k generalizing n with
  | zero =>
      have hn : n < 256 := by simpa using h
      simp only [bigEndianBytes, List.nil_append, List.headD_cons, Nat.pow_zero,
        Nat.div_one]
      rw [Nat.mod_eq_of_lt hn]
      exact UInt8.toNat_ofNat_of_lt' hn
  | succ k ih =>
      have hdiv : n / 256 < 256 ^ (k + 1) := by
        rw [Nat.div_lt_iff_lt_mul (by decide)]
        rwa [Nat.pow_succ] at h
      have hne : bigEndianBytes (k + 1) (n / 256) ≠ [] := by
        intro hnil
        have hlength := length_bigEndianBytes (k + 1) (n / 256)
        rw [hnil] at hlength
        cases hlength
      rw [bigEndianBytes, headD_append_singleton hne, ih (n / 256) hdiv, Nat.div_div_eq_div_mul, Nat.pow_succ,
        Nat.mul_comm]

namespace BinaryReader

def fromBytes (buf : List UInt8) : BinaryReader :=
  ⟨buf, 0⟩

/-- The bytes from the position on. -/
def rest (r : BinaryReader) : List UInt8 :=
  r.buf.drop r.pos

def advance (r : BinaryReader) (n : Nat) : BinaryReader :=
  { r with pos := r.pos + n }

/-- A slice of the buffer from the position on, which panics outside of it. -/
def slice (size : Nat) : Reading (List UInt8) := fun r =>
  if r.pos + size ≤ r.buf.length then .ok (r.rest.take size, r.advance size)
  else .error (.panic .indexOutOfBounds)

def readU8 : Reading UInt8 := fun r =>
  match r.buf[r.pos]? with
  | some b => .ok (b, r.advance 1)
  | none => .error (.panic .indexOutOfBounds)

def readU16be : Reading Nat := do
  return bigEndian (← slice 2)

def readU32be : Reading Nat := do
  return bigEndian (← slice 4)

/-- Consume `size` bytes. -/
def readBytes (size : Nat) : Reading (List UInt8) := fun r =>
  if r.buf.length < r.pos + size then .error (.err (.readError .prematureEOF))
  else .ok (r.rest.take size, r.advance size)

/-- The result of a read that is unwrapped. -/
def unwrap {α : Type} (x : Reading α) : Reading α := fun r =>
  match x r with
  | .error (.err _) => .error (.panic .unwrap)
  | result => result

def readStrUtf8 (size : Nat) : Reading String := do
  match LineFile.decode (← readBytes size) with
  | some text => return String.ofList text
  | none => throw (.err (.readError .invalidUtf8))

def readStrLatin1 (size : Nat) : Reading String := do
  return String.ofList ((← readBytes size).map fun b => Char.ofNat b.toNat)

/-- Take as many bytes as there are in `sample` and compare them. -/
def ensureBytes (sample : List UInt8) : Reading Unit := do
  let actual ← unwrap (readBytes sample.length)
  if actual = sample then return
  else throw (.err (.readError (.readFailed "File reader: Expected")))

/-- Advance the position, to the last byte at most. -/
def skip (n : Nat) : Reading Unit := fun r =>
  if r.buf.length = 0 then .error (.panic .arithmeticOverflow)
  else .ok ((), { r with pos := min (r.pos + n) (r.buf.length - 1) })

def seek (p : Nat) : Reading Unit := fun r =>
  if p ≤ r.buf.length then .ok ((), { r with pos := p })
  else .error (.panic .assertion)

/-- What the reader has before it: these bytes, and then the rest. -/
def Reads (r : BinaryReader) (bytes rest : List UInt8) : Prop :=
  r.pos ≤ r.buf.length ∧ r.rest = bytes ++ rest

@[simp]
theorem rest_advance (r : BinaryReader) (n : Nat) : (r.advance n).rest = r.rest.drop n := by
  simp [rest, advance]

@[simp]
theorem advance_advance (r : BinaryReader) (m n : Nat) :
    (r.advance m).advance n = r.advance (m + n) := by
  simp [advance, Nat.add_assoc]

theorem length_rest (r : BinaryReader) : r.rest.length = r.buf.length - r.pos := by
  simp [rest]

section Reads

variable {r : BinaryReader} {bytes rest : List UInt8}

theorem Reads.pos_add_le (h : r.Reads bytes rest) : r.pos + bytes.length ≤ r.buf.length := by
  obtain ⟨hpos, hrest⟩ := h
  have hlength := congrArg List.length hrest
  rw [length_rest, List.length_append] at hlength
  omega

theorem Reads.advance {first : List UInt8} (h : r.Reads (first ++ bytes) rest) :
    (r.advance first.length).Reads bytes rest := by
  have hle := h.pos_add_le
  rw [List.length_append] at hle
  refine ⟨?_, ?_⟩
  · simp only [BinaryReader.advance]
    omega
  · rw [rest_advance, h.2, List.append_assoc, List.drop_left]

theorem Reads.assoc {more : List UInt8} (h : r.Reads (bytes ++ more) rest) :
    r.Reads bytes (more ++ rest) :=
  ⟨h.1, by rw [h.2, List.append_assoc]⟩

theorem slice_of_reads (h : r.Reads bytes rest) :
    slice bytes.length r = .ok (bytes, r.advance bytes.length) := by
  rw [slice, if_pos h.pos_add_le, h.2, List.take_left]

theorem readBytes_of_reads (h : r.Reads bytes rest) :
    readBytes bytes.length r = .ok (bytes, r.advance bytes.length) := by
  rw [readBytes, if_neg (Nat.not_lt.mpr h.pos_add_le), h.2, List.take_left]

theorem readU8_of_reads {b : UInt8} (h : r.Reads (b :: bytes) rest) :
    readU8 r = .ok (b, r.advance 1) := by
  have hb : r.buf[r.pos]? = some b := by
    have hdrop : r.buf[r.pos + 0]? = r.rest[0]? := List.getElem?_drop.symm
    rw [Nat.add_zero] at hdrop
    rw [hdrop, h.2]
    rfl
  rw [readU8, hb]

end Reads

end BinaryReader

end Zeptobeam
