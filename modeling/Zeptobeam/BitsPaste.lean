/-
Integers and binaries pasted into the data of a binary, at a bit offset.  Where the bits
start inside of a byte the bytes of a source are shifted; an integer of more than one byte
is written from the end of the data backwards.
-/
import Zeptobeam.BitMatching
import Zeptobeam.Lib.BitPlacement
import Zeptobeam.Utf8RoundTrip

namespace Zeptobeam

open BitString

/-- A binary with its own data on the process heap, or a slice of another one. -/
inductive BinaryRef where
  | procHeap (addr : Nat)
  | slice (orig : BinaryRef) (offset size : Nat)
deriving DecidableEq, Repr

/-- A term, as far as the construction of binaries looks at it. -/
inductive BuildTerm where
  | small (value : Int)
  | bignum (negative : Bool) (digits : List UInt64)
  | atom (name : String)
  | nil
  | cons (head tail : BuildTerm)
  | emptyTuple
  | tuple (elements : List BuildTerm)
  | emptyBinary
  | binary (ref : BinaryRef)
  | register (r : Reg)
  | other (isBoxed : Bool) (word : Nat)

/-- An instruction returns `Err`, or does not return. -/
inductive BuildStop where
  | badarg
  | systemLimit
  | binaryDestinationTooSmall
  | pasteIntMustBeSmallOrBigint
  | pasteIntZeroDstSize
  | creatingZeroSizedBinary
  | stackIndexRange (y : Nat)
  /-- A box, or a code pointer, is taken from a term that has none. -/
  | invalidDereference
  /-- Memory is read and written through two references. -/
  | overlapping
  | panic (p : Panic)
deriving DecidableEq, Repr

structure BsFlags where
  bits : Nat
deriving DecidableEq, Repr

namespace BsFlags

def aligned : BsFlags := ⟨0b00000001⟩
def little : BsFlags := ⟨0b00000010⟩
def signed : BsFlags := ⟨0b00000100⟩
def exact : BsFlags := ⟨0b00001000⟩
def native : BsFlags := ⟨0b00010000⟩

def empty : BsFlags := ⟨0⟩

def fromBitsTruncate (bits : Nat) : BsFlags :=
  ⟨bits &&& 0b00011111⟩

def union (flags other : BsFlags) : BsFlags :=
  ⟨flags.bits ||| other.bits⟩

def contains (flags other : BsFlags) : Bool :=
  flags.bits &&& other.bits == other.bits

end BsFlags

/-- How many bits are to be copied. -/
inductive SizeOrAll where
  | bits (size : Nat)
  | all
deriving DecidableEq, Repr

namespace BitsPaste

/-- New data, or a stop. -/
abbrev Pasted := Except BuildStop (List UInt8)

def panic {α : Type} (p : Panic) : Except BuildStop α :=
  .error (.panic p)

/-- The sum of two words. -/
def addWords (debug : Bool) (a b : Nat) : Except BuildStop Nat :=
  if debug ∧ 2 ^ 64 ≤ a + b then panic .arithmeticOverflow
  else .ok ((a + b) % 2 ^ 64)

/-- One less; a word that wraps is written as `-1`. -/
def decrement (debug : Bool) (i : Int) : Except BuildStop Int :=
  if debug ∧ i = 0 then panic .arithmeticOverflow
  else .ok (i - 1)

/-- `dst[i]`. -/
def byteAt (dst : List UInt8) (i : Nat) : Except BuildStop UInt8 :=
  dst[i]?.elim (panic .indexOutOfBounds) .ok

/-- `dst[i] = b`. -/
def setAt (dst : List UInt8) (i : Int) (b : UInt8) : Pasted :=
  if 0 ≤ i ∧ i.toNat < dst.length then .ok (dst.set i.toNat b)
  else panic .indexOutOfBounds

/-- A read through a pointer into the data. -/
def readPtr (src : List UInt8) (i : Nat) : Except BuildStop UInt8 :=
  src[i]?.elim (panic .outsideAllocation) .ok

def writePtr (dst : List UInt8) (i : Nat) (b : UInt8) : Pasted :=
  if i < dst.length then .ok (dst.set i b) else panic .outsideAllocation

/-- A shift count that stays within a byte. -/
def byteShift (n : Nat) : Nat :=
  n % 8

/-! ## Bits of a binary -/

/-- The last `n` bits. -/
def makeMask (n : Nat) : Nat :=
  2 ^ n - 1

/-- The bits of `src` in the mask, and those of `dst` outside of it. -/
def maskBits (src dst mask : UInt8) : UInt8 :=
  (src &&& mask) ||| (dst &&& ~~~mask)

/-- Whole bytes from the source on, one after the other. -/
def copyWhole (src : List UInt8) (dst : List UInt8) (srcAt dstAt : Nat) : Nat → Pasted
  | 0 => .ok dst
  | count + 1 => do
      let dst ← writePtr dst dstAt (← readPtr src srcAt)
      copyWhole src dst (srcAt + 1) (dstAt + 1) count

/-- Shifted bytes; `bits` is the byte of the source that was read last. -/
def copyShifted (lshift rshift : Nat) (src : List UInt8) (dst : List UInt8)
    (srcAt dstAt : Nat) (bits : UInt8) : Nat → Except BuildStop (List UInt8 × UInt8)
  | 0 => .ok (dst, bits)
  | count + 1 => do
      let bits1 := bits <<< lshift.toUInt8
      let bits ← readPtr src srcAt
      let dst ← writePtr dst dstAt (bits1 ||| (bits >>> rshift.toUInt8))
      copyShifted lshift rshift src dst (srcAt + 1) (dstAt + 1) bits count

/-- The bits lie in one byte. -/
def copyInByte (debug : Bool) (src dst : List UInt8) (base : Nat) (srcOffset dstOffset size : Nat)
    (mask : UInt8) : Pasted := do
  if srcOffset = dstOffset then
    writePtr dst base (maskBits (← readPtr src base) (← readPtr dst base) mask)
  else if srcOffset > dstOffset then
    let diffBits := lastByteBits (srcOffset - dstOffset)
    let bits := (← readPtr src base) <<< diffBits.toUInt8
    if srcOffset + size > 8 then
      let bits := bits ||| ((← readPtr src (base + 1)) >>> (8 - diffBits).toUInt8)
      writePtr dst base (maskBits bits (← readPtr dst base) mask)
    else writePtr dst base (maskBits bits (← readPtr dst base) mask)
  else if debug then panic .arithmeticOverflow
  else
    -- the difference of the offsets wraps
    let diffBits := lastByteBits (2 ^ 64 + srcOffset - dstOffset)
    let bits := (← readPtr src base) >>> diffBits.toUInt8
    writePtr dst base (maskBits bits (← readPtr dst base) mask)

/-- The bits are shifted into position. -/
def copyTricky (src dst : List UInt8) (base srcOffset dstOffset size count : Nat)
    (lmask rmask : Nat) : Pasted := do
  let back := srcOffset > dstOffset
  let lshift :=
    if back then srcOffset - dstOffset
    else byteShift (8 - byteShift (dstOffset - srcOffset))
  let rshift := if back then byteShift (8 - lshift) else byteShift (dstOffset - srcOffset)
  let bits ← if back then readPtr src base else .ok 0
  let srcAt := if back ∧ srcOffset + size > 8 then base + 1 else base
  if lmask ≠ 0 then
    let next ← readPtr src srcAt
    let bits1 := (bits <<< lshift.toUInt8) ||| (next >>> rshift.toUInt8)
    let dst ← writePtr dst base (maskBits bits1 (← readPtr dst base) lmask.toUInt8)
    let (dst, bits) ← copyShifted lshift rshift src dst (srcAt + 1) (base + 1) next count
    copyTail src dst lshift rshift (srcAt + 1 + count) (base + 1 + count) bits rmask
  else
    let (dst, bits) ← copyShifted lshift rshift src dst srcAt base bits count
    copyTail src dst lshift rshift (srcAt + count) (base + count) bits rmask
where
  /-- The first bits of the last byte. -/
  copyTail (src dst : List UInt8) (lshift rshift srcAt dstAt : Nat) (bits : UInt8)
      (rmask : Nat) : Pasted := do
    if rmask = 0 then return dst
    let bits1 := bits <<< lshift.toUInt8
    if (rmask <<< rshift) % 256 ≠ 0 then
      let bits1 := bits1 ||| ((← readPtr src srcAt) >>> rshift.toUInt8)
      writePtr dst dstAt (maskBits bits1 (← readPtr dst dstAt) rmask.toUInt8)
    else writePtr dst dstAt (maskBits bits1 (← readPtr dst dstAt) rmask.toUInt8)

/-- `copy_bits`, forwards in both binaries.  Both pointers are moved by the offset of the
source. -/
def copyBits (debug : Bool) (src : List UInt8) (srcOffset : Nat) (dst : List UInt8)
    (dstOffset size : Nat) : Pasted := do
  if size = 0 then return dst
  let base := byteSizeRoundedDown srcOffset
  let srcOffset := lastByteBits srcOffset
  let dstOffset := lastByteBits dstOffset
  let endBits ← addWords debug dstOffset size
  let dstEndBits := lastByteBits endBits
  let lmask := if dstOffset ≠ 0 then makeMask (8 - dstOffset) else 0
  let rmask := if dstEndBits ≠ 0 then makeMask dstEndBits <<< (8 - dstEndBits) else 0
  if endBits < 8 then
    let mask := if lmask &&& rmask ≠ 0 then lmask &&& rmask else lmask ||| rmask
    copyInByte debug src dst base srcOffset dstOffset size mask.toUInt8
  else
    let count := if lmask ≠ 0 then (size - (8 - dstOffset)) / 8 else size / 8
    if srcOffset = dstOffset then
      if lmask ≠ 0 then
        let dst ← writePtr dst base
          (maskBits (← readPtr src base) (← readPtr dst base) lmask.toUInt8)
        copyEnd src (← copyWhole src dst (base + 1) (base + 1) count) (base + 1 + count) rmask
      else copyEnd src (← copyWhole src dst base base count) (base + count) rmask
    else copyTricky src dst base srcOffset dstOffset size count lmask rmask
where
  copyEnd (src dst : List UInt8) (base rmask : Nat) : Pasted := do
    if rmask = 0 then return dst
    writePtr dst base (maskBits (← readPtr src base) (← readPtr dst base) rmask.toUInt8)

/-- Bits from the start of the source; `dst_offset` is that of a byte. -/
def copyBitsFromOffset0BytealignedDst (src : List UInt8) (size : Nat) (dst : List UInt8)
    (dstOffset : Nat) : Pasted :=
  let sizeBytes := byteSizeRoundedDown size
  let dstOffsetBytes := byteSizeRoundedDown dstOffset
  if sizeBytes ≠ 0 ∧ (src.length < sizeBytes ∨ dst.length < dstOffsetBytes + sizeBytes) then
    panic .outsideAllocation
  else if lastByteBits size ≠ 0 then panic (.unimplemented "Copy partial byte")
  else .ok (pasteBytes dst dstOffsetBytes (src.take sizeBytes))

/-! ## Integers -/

/-- `copy_and_update_val`, from byte `i` on, with so many bytes to go: the data, where the
next byte would be, and what is left of the value. -/
def copyAndUpdateLoop (ddir : Int) (dst : List UInt8) (i val : Int) :
    Nat → Except BuildStop (List UInt8 × Int × Int)
  | 0 => .ok (dst, i, val)
  | sz + 1 => do
      let dst ← setAt dst i (lowByte val)
      copyAndUpdateLoop ddir dst (i + ddir) (val >>> (8 : Nat)) sz

/-- As many bytes as there are from the offset to the end of the data. -/
def copyAndUpdateVal (debug : Bool) (dst : List UInt8) (dstOffset ddir val : Int) :
    Except BuildStop (List UInt8 × Int × Int) :=
  let sz := (dst.length : Int) - dstOffset
  if sz < 0 then
    if debug then panic .arithmeticOverflow else panic .indexOutOfBounds
  else copyAndUpdateLoop ddir dst dstOffset val sz.toNat

def pasteSmallint (debug : Bool) (val : Int) (size : Nat) (dst : List UInt8) (dstOffset : Nat)
    (flags : BsFlags) : Pasted := do
  let offs := lastByteBits size
  if debug ∧ size = 0 then panic .assertion
  else if flags.contains .little then
    let (dst, i, v) ← copyAndUpdateVal debug dst dstOffset 1 val
    if offs ≠ 0 then setAt dst i (lowByte (v <<< byteShift (8 - offs)))
    else setAt dst i (lowByte v)
  else
    let last ← decrement debug dst.length
    if offs ≠ 0 then
      let dst ← setAt dst last (lowByte (val <<< (8 - offs)))
      let i ← decrement debug last
      return (← copyAndUpdateVal debug dst i (-1) (val >>> offs)).1
    else return (← copyAndUpdateVal debug dst last (-1) val).1

/-- A byte of a digit, less the carry, is written as its complement. -/
def subc (debug : Bool) (x : UInt8) (carry : Bool) (dst : List UInt8) (i : Int) :
    Except BuildStop (List UInt8 × Bool) := do
  let c : UInt8 := if carry then 1 else 0
  if debug ∧ x < c then panic .arithmeticOverflow
  else
    let y := x - c
    return (← setAt dst i (~~~y), decide (x < y))

/-- Bytes of a digit, from the low ones on, upwards. -/
def subcUp (debug : Bool) (dst : List UInt8) (i : Int) (d : UInt64) (carry : Bool) :
    Nat → Except BuildStop (List UInt8 × Int × Bool)
  | 0 => .ok (dst, i, carry)
  | n + 1 => do
      let (dst, carry) ← subc debug d.toUInt8 carry dst i
      subcUp debug dst (i + 1) (d >>> 8) carry n

def subcDown (debug : Bool) (dst : List UInt8) (i : Int) (acc : UInt64) (carry : Bool) :
    Nat → Except BuildStop (List UInt8 × Int × UInt64 × Bool)
  | 0 => .ok (dst, i, acc, carry)
  | n + 1 => do
      let (dst, carry) ← subc debug acc.toUInt8 carry dst i
      subcDown debug dst (← decrement debug i) (acc >>> 8) carry n

def digitUp (dst : List UInt8) (i : Int) (d : UInt64) : Nat → Except BuildStop (List UInt8 × Int)
  | 0 => .ok (dst, i)
  | n + 1 => do digitUp (← setAt dst i d.toUInt8) (i + 1) (d >>> 8) n

def digitDown (debug : Bool) (dst : List UInt8) (i : Int) (acc : UInt64) :
    Nat → Except BuildStop (List UInt8 × Int × UInt64)
  | 0 => .ok (dst, i, acc)
  | n + 1 => do
      let i ← decrement debug i
      digitDown debug (← setAt dst i acc.toUInt8) i (acc >>> 8) n

/-- The digit is the first one: no more bytes are taken than one has. -/
def pasteBigintLeNegative (debug : Bool) (dst : List UInt8) (dstOffset : Nat) (d : UInt64) :
    Except BuildStop (List UInt8 × Int) := do
  let (dst, i, carry) ← subcUp debug dst dstOffset d true (min dst.length 8)
  let (dst, i, _) ← subcUp debug dst i 0 carry (dst.length - i).toNat
  return (dst, i)

/-- Zeros, from the byte on down to the second one. -/
def clearDown (dst : List UInt8) : Nat → Pasted
  | 0 => .ok dst
  | i + 1 => do clearDown (← setAt dst (i + 1) 0) i

def pasteBigintLePositive (dst : List UInt8) (dstOffset : Nat) (d : UInt64) :
    Except BuildStop (List UInt8 × Int) := do
  let (dst, i) ← digitUp dst dstOffset d (min dst.length 8)
  return (← clearDown dst i.toNat, 0)

/-- The padding skips every other byte. -/
def padNegative (debug : Bool) (dst : List UInt8) (acc : UInt64) (carry : Bool) : Nat → Pasted
  | 0 => .ok dst
  | 1 => do
      let _ ← subc debug acc.toUInt8 carry dst 0
      if debug then panic .arithmeticOverflow else panic .indexOutOfBounds
  | i + 2 => do
      let (dst, carry) ← subc debug acc.toUInt8 carry dst (i + 1)
      padNegative debug dst (acc >>> 8) carry i

def pasteBigintBeNegative (debug : Bool) (dst : List UInt8) (d : UInt64) (offs : Nat) :
    Pasted := do
  let last ← decrement debug dst.length
  if dst.length < 8 then
    let (dst, i, acc, carry) ← subcDown debug dst last (d <<< offs.toUInt64) true dst.length
    if i < 0 then panic .indexOutOfBounds else padNegative debug dst acc carry i.toNat
  else
    let (dst, i, _, carry) ← subcDown debug dst last (d <<< offs.toUInt64) true 1
    let (dst, i, acc, carry) ← subcDown debug dst i (d >>> (8 - offs).toUInt64) carry 8
    if i < 0 then panic .indexOutOfBounds else padNegative debug dst acc carry i.toNat

/-- The last byte is not written. -/
def pasteBigintBePositive (debug : Bool) (dst : List UInt8) (d : UInt64) (offs : Nat) :
    Pasted := do
  let last ← decrement debug dst.length
  if dst.length < 8 then
    let (dst, i, acc) ← digitDown debug dst last (d <<< offs.toUInt64) dst.length
    return (← digitDown debug dst i acc i.toNat).1
  else
    let (dst, i, _) ← digitDown debug dst last (d <<< (byteShift offs).toUInt64) 1
    let (dst, i, acc) ← digitDown debug dst i (d >>> (byteShift (8 - offs)).toUInt64) 8
    return (← digitDown debug dst i acc i.toNat).1

def pasteBigint (debug negative : Bool) (digits : List UInt64) (size : Nat) (dst : List UInt8)
    (dstOffset : Nat) (flags : BsFlags) : Pasted := do
  let offs := lastByteBits size
  let d := digits.headD 0
  if size = 0 then .error .pasteIntZeroDstSize
  else if flags.contains .little then
    let (dst, i) ← if negative then pasteBigintLeNegative debug dst dstOffset d
      else pasteBigintLePositive dst dstOffset d
    if offs ≠ 0 then
      let i ← decrement debug i
      let msb ← if i < 0 then panic .indexOutOfBounds else byteAt dst i.toNat
      setAt dst i (msb <<< (8 - offs).toUInt8)
    else return dst
  else
    let offs := if offs ≠ 0 then 8 - offs else 0
    if negative then pasteBigintBeNegative debug dst d offs
    else pasteBigintBePositive debug dst d offs

def fmtInt (debug : Bool) (writeVal : BuildTerm) (writeSize : Nat) (dst : List UInt8)
    (dstOffset : Nat) (flags : BsFlags) : Pasted :=
  match writeVal with
  | .small val => pasteSmallint debug val writeSize dst dstOffset flags
  | .bignum negative digits => pasteBigint debug negative digits writeSize dst dstOffset flags
  | _ => .error .pasteIntMustBeSmallOrBigint

/-- The bits of the byte in front of the last `rbits` ones; of all 8 of them nothing is
masked away. -/
def keepFront (b : UInt8) (rbits : Nat) : UInt8 :=
  b &&& (0xff <<< (byteShift rbits).toUInt8)

/-- The destination is inside of one byte. -/
def putBitsOneByte (dst : List UInt8) (i rbits inbyteOffset : Nat) (writeVal : Int)
    (writeSize : Nat) : Pasted := do
  let b := keepFront (← readPtr dst i) rbits
  let shift := ((8 - inbyteOffset - writeSize : Int) % 64).toNat
  let newVal := (writeVal % 2 ^ (writeSize % 64)) <<< shift
  writePtr dst i (b ||| lowByte newVal)

/-- The bits up to the next byte boundary, and the rest as an integer of its own. -/
def putBitsBigEndian (debug : Bool) (writeVal : Int) (writeSize rbits : Nat) (dst : List UInt8)
    (dstOffset : Nat) (flags : BsFlags) : Pasted := do
  let shiftCount := writeSize - rbits
  let b := keepFront (← byteAt dst dstOffset) rbits
  let b :=
    if shiftCount < 64 then b ||| lowByte ((writeVal >>> shiftCount) % 2 ^ rbits)
    -- simulate sign extension
    else if writeVal < 0 then b ||| (makeMask rbits).toUInt8
    else b
  let dst ← setAt dst dstOffset b
  if writeSize = rbits then return dst
  fmtInt debug (.small writeVal) (writeSize - rbits) dst (dstOffset + 1) flags

def putInteger (debug : Bool) (writeVal : BuildTerm) (writeSize : Nat) (dst : List UInt8)
    (dstOffset : Nat) (flags : BsFlags) : Pasted := do
  if writeSize = 0 then return dst
  match writeVal with
  | .small val =>
      let inbyteOffset := lastByteBits dstOffset
      let rbits := 8 - inbyteOffset
      if (← addWords debug inbyteOffset writeSize) < 8 then
        putBitsOneByte dst (byteSizeRoundedDown dstOffset) rbits inbyteOffset val writeSize
      else if inbyteOffset = 0 then
        fmtInt debug writeVal writeSize dst (byteSizeRoundedDown dstOffset) flags
      else if flags.contains .little then panic (.unimplemented "put_bits_unaligned")
      else
        putBitsBigEndian debug val writeSize rbits dst (byteSizeRoundedDown dstOffset) flags
  | _ =>
      if dstOffset = 0 then
        fmtInt debug writeVal writeSize dst (byteSizeRoundedDown dstOffset) flags
      else panic (.unimplemented "put_integer: unaligned")

end BitsPaste

end Zeptobeam
