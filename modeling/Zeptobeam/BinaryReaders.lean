/-
Binaries of the virtual machine and the readers that compare them.  A sub-binary refers
to a slice of another binary, at a bit offset; where its offset is a whole number of
bytes and its binary has a byte reader it has one too, and a slower bit reader otherwise.
The byte reader covers the binary, the bit reader whatever follows the offset in the data.
-/
import Zeptobeam.Lib.SideBySide
import Zeptobeam.Lib.LexCode
import Mathlib.Data.List.Basic
import Mathlib.Tactic.Common

namespace Zeptobeam

/-- How a function of the virtual machine ends when it does not return. -/
inductive Fault where
  | indexOutOfBounds
  | unimplemented (what : String)
  /-- The pointer of a term that is none: an assertion in a debug build, a read through
  the bits of the word in a release build. -/
  | invalidDereference
  | outOfFuel
deriving DecidableEq, Repr

def lastByteBits (bits : Nat) : Nat :=
  bits % 8

def byteSizeRoundedDown (bits : Nat) : Nat :=
  bits / 8

def byteSizeRoundedUp (bits : Nat) : Nat :=
  (bits + 8 - 1) / 8

/-- A reader of the bytes at a bit offset of the data. -/
structure BitReader where
  data : List UInt8
  offset : Nat
deriving DecidableEq, Repr

namespace BitReader

def addBitOffset (reader : BitReader) (offs : Nat) : BitReader :=
  { reader with offset := reader.offset + offs }

def bitSize (reader : BitReader) : Nat :=
  reader.data.length * 8 - reader.offset

/-- Byte `n`; zeros follow the data. -/
def read (reader : BitReader) (n : Nat) : UInt8 :=
  let bitPos := reader.offset + n * 8
  let byteIx := bitPos / 8
  let shift := bitPos % 8
  match reader.data[byteIx]? with
  | none => 0
  | some b0 =>
      if shift = 0 then b0
      else
        let b1 := reader.data[byteIx + 1]?.getD 0
        (b0 <<< shift.toUInt8) ||| (b1 >>> (8 - shift).toUInt8)

end BitReader

/-- `ByteReader::set_offset_and_size`. -/
def setOffsetAndSize (data : List UInt8) (offs size : Nat) : List UInt8 :=
  (data.drop offs).take (min (data.length - offs) size)

/-- `TDataReader`: a byte reader, or a bit reader. -/
inductive DataReader where
  | bytes (data : List UInt8)
  | bits (reader : BitReader)
deriving DecidableEq, Repr

namespace DataReader

def bitSize : DataReader → Nat
  | bytes data => data.length * 8
  | bits reader => reader.bitSize

def read : DataReader → Nat → Except Fault UInt8
  | bytes data, n => data[n]?.elim (.error .indexOutOfBounds) .ok
  | bits reader, n => .ok (reader.read n)

/-- The loop of `cmp_reader_vs_reader` from byte `i` on. -/
def cmpBytes (a b : DataReader) (i : Nat) : Nat → Except Fault Ordering
  | 0 => .ok .eq
  | n + 1 =>
      match a.read i, b.read i with
      | .ok x, .ok y => if x ≠ y then .ok (compare x y) else cmpBytes a b (i + 1) n
      | .error fault, _ => .error fault
      | _, .error fault => .error fault

/-- `cmp_reader_vs_reader`: as many bytes as the first reader has. -/
def cmpReaderVsReader (a b : DataReader) : Except Fault Ordering :=
  cmpBytes a b 0 (byteSizeRoundedUp a.bitSize)

end DataReader

/-- `TBinary`: a binary that holds its bytes, or a slice of another one. -/
inductive TBinary where
  | processHeap (size : Nat) (data : List UInt8)
  | slice (orig : TBinary) (offset size : Nat)
deriving DecidableEq, Repr

namespace TBinary

def bitSize : TBinary → Nat
  | processHeap size _ => size
  | slice _ _ size => size

def byteReader : TBinary → Option (List UInt8)
  | processHeap _ data => some data
  | slice orig offset size =>
      if lastByteBits offset = 0 then
        orig.byteReader.map fun data =>
          setOffsetAndSize data (byteSizeRoundedDown offset) (byteSizeRoundedDown size)
      else none

def bitReader : TBinary → BitReader
  | processHeap _ data => ⟨data, 0⟩
  | slice orig offset _ => orig.bitReader.addBitOffset offset

/-- The reader that a comparison takes. -/
def reader (b : TBinary) : DataReader :=
  match b.byteReader with
  | some data => .bytes data
  | none => .bits b.bitReader

/-- What `create_into` makes: never empty, a slice inside its binary. -/
def WellFormed : TBinary → Prop
  | processHeap size data => 0 < size ∧ data.length = byteSizeRoundedUp size
  | slice orig offset size => orig.WellFormed ∧ 0 < size ∧ offset + size ≤ orig.bitSize

def decWellFormed : (b : TBinary) → Decidable b.WellFormed
  | processHeap size data =>
      inferInstanceAs (Decidable (0 < size ∧ data.length = byteSizeRoundedUp size))
  | slice orig offset size =>
      have := decWellFormed orig
      inferInstanceAs
        (Decidable (orig.WellFormed ∧ 0 < size ∧ offset + size ≤ orig.bitSize))

instance (b : TBinary) : Decidable b.WellFormed :=
  decWellFormed b

def cmpBinary (a b : TBinary) : Except Fault Ordering :=
  if a.bitSize ≠ b.bitSize then .ok (compare a.bitSize b.bitSize)
  else a.reader.cmpReaderVsReader b.reader

end TBinary

/-- A boxed binary. -/
abbrev Binary := { b : TBinary // b.WellFormed }

namespace DataReader

open SideBySide LexCode

/-- The bytes that the reader has. -/
def contents : DataReader → List UInt8
  | bytes data => data
  | bits reader => (List.range (byteSizeRoundedUp reader.bitSize)).map reader.read

/-- Reading goes on behind the contents, with zeros. -/
def Padded : DataReader → Prop
  | bytes _ => False
  | bits _ => True

instance (reader : DataReader) : Decidable reader.Padded :=
  match reader with
  | bytes _ => inferInstanceAs (Decidable False)
  | bits _ => inferInstanceAs (Decidable True)

theorem length_contents (reader : DataReader) :
    reader.contents.length = byteSizeRoundedUp reader.bitSize := by
  cases reader with
  | bytes data =>
      rw [contents, bitSize, byteSizeRoundedUp]
      omega
  | bits reader => rw [contents, List.length_map, List.length_range, bitSize]

theorem BitReader.read_eq_zero {reader : BitReader} {n : Nat}
    (hn : byteSizeRoundedUp reader.bitSize ≤ n) : reader.read n = 0 := by
  have hout : reader.data.length ≤ (reader.offset + n * 8) / 8 := by
    rw [byteSizeRoundedUp, BitReader.bitSize] at hn
    omega
  rw [BitReader.read, List.getElem?_eq_none hout]

theorem read_of_getElem? {reader : DataReader} {n : Nat} {x : UInt8}
    (hx : reader.contents[n]? = some x) : reader.read n = .ok x := by
  cases reader with
  | bytes data => rw [read, show data[n]? = some x from hx, Option.elim_some]
  | bits reader =>
      rw [contents, List.getElem?_map] at hx
      obtain ⟨i, hi, hread⟩ := Option.map_eq_some_iff.mp hx
      have hlt : n < byteSizeRoundedUp reader.bitSize := by
        simpa using (List.getElem?_eq_some_iff.mp hi).1
      have hni : n = i := by simpa [hlt] using hi
      rw [read, ← hread, hni]

theorem read_of_length_le {reader : DataReader} {n : Nat} (hn : reader.contents.length ≤ n) :
    reader.read n = if reader.Padded then .ok 0 else .error .indexOutOfBounds := by
  rw [length_contents] at hn
  cases reader with
  | bytes data =>
      have hout : data.length ≤ n := by
        rw [bitSize, byteSizeRoundedUp] at hn
        omega
      simp [read, List.getElem?_eq_none hout, Padded]
  | bits reader => simp [read, BitReader.read_eq_zero hn, Padded]

/-- What the comparison of the readers sees, from `a` and from `b`. -/
def sightBytes (a b : DataReader) : List UInt8 → List UInt8 → Sight
  | [], [] => .alike
  | x :: xs, [] =>
      if b.Padded then
        if (x :: xs).all (· == 0) then .alike else .overlooked .right
      else .cut .right
  | [], y :: ys =>
      if a.Padded then
        if (y :: ys).all (· == 0) then .alike else .overlooked .left
      else .cut .left
  | x :: xs, y :: ys => if x = y then sightBytes a b xs ys else .ofOrdering (compare x y)

def sight (a b : DataReader) : Sight :=
  sightBytes a b a.contents b.contents

theorem sightBytes_swap (a b : DataReader) (xs ys : List UInt8) :
    (sightBytes a b xs ys).swap = sightBytes b a ys xs := by
  induction xs generalizing ys with
  | nil =>
      cases ys with
      | nil => rfl
      | cons y ys =>
          rw [sightBytes, sightBytes]
          split_ifs <;> rfl
  | cons x xs ih =>
      cases ys with
      | nil =>
          rw [sightBytes, sightBytes]
          split_ifs <;> rfl
      | cons y ys =>
          rw [sightBytes, sightBytes]
          by_cases hxy : x = y
          · rw [if_pos hxy, if_pos hxy.symm, ih]
          · rw [if_neg hxy, if_neg (Ne.symm hxy), Sight.ofOrdering_swap,
              ← Std.OrientedOrd.eq_swap]

theorem sight_swap (a b : DataReader) : (a.sight b).swap = b.sight a :=
  sightBytes_swap a b a.contents b.contents

/-- A zero in front, compared with the padding, changes nothing. -/
theorem forward_sightBytes_zero {a b : DataReader} (hb : b.Padded) (xs : List UInt8) :
    forward [sightBytes a b (0 :: xs) []] = forward [sightBytes a b xs []] := by
  cases xs with
  | nil => simp [sightBytes, hb, forward]
  | cons x xs => simp [sightBytes, hb]

theorem toOption_cmpBytes (a b : DataReader) (n i : Nat)
    (hn : (a.contents.drop i).length = n) :
    (cmpBytes a b i n).toOption =
      forward [sightBytes a b (a.contents.drop i) (b.contents.drop i)] := by
  induction n generalizing i with
  | zero =>
      rw [List.eq_nil_of_length_eq_zero hn, cmpBytes]
      cases b.contents.drop i with
      | nil => rfl
      | cons y ys =>
          rw [sightBytes]
          split_ifs <;> rfl
  | succ n ih =>
      have hi : i < a.contents.length := by
        rw [List.length_drop] at hn
        omega
      have hnext := ih (i + 1) (by rw [List.length_drop] at hn ⊢; omega)
      have ha : a.read i = .ok a.contents[i] :=
        read_of_getElem? (List.getElem?_eq_getElem hi)
      rw [List.drop_eq_getElem_cons hi, cmpBytes, ha]
      generalize a.contents[i] = x
      generalize a.contents.drop (i + 1) = xs at hnext
      by_cases hj : i < b.contents.length
      · have hb : b.read i = .ok b.contents[i] :=
          read_of_getElem? (List.getElem?_eq_getElem hj)
        rw [List.drop_eq_getElem_cons hj, hb, sightBytes]
        by_cases hxy : x = b.contents[i]
        · simpa [hxy] using hnext
        · simp [hxy, Except.toOption]
      · have hdrop : ∀ j, i ≤ j → b.contents.drop j = [] := by
          intro j hij
          exact List.drop_eq_nil_of_le (by omega)
        rw [hdrop (i + 1) (by omega)] at hnext
        rw [hdrop i (Nat.le_refl i), read_of_length_le (by omega)]
        by_cases hpad : b.Padded
        · by_cases hzero : x = 0
          · rw [hzero, forward_sightBytes_zero hpad]
            simpa [hpad] using hnext
          · have hgt : compare x 0 = .gt := by
              rw [Std.compare_eq_gt]
              exact UInt8.pos_iff_ne_zero.mpr hzero
            simp [hpad, hzero, sightBytes, forward, hgt, Except.toOption]
        · simp [hpad, sightBytes, forward, Except.toOption]

/-- The comparison of two readers ends as the reading of their bytes does. -/
theorem toOption_cmpReaderVsReader (a b : DataReader) :
    (a.cmpReaderVsReader b).toOption = forward [a.sight b] := by
  rw [cmpReaderVsReader, ← length_contents,
    toOption_cmpBytes a b _ 0 (by rw [List.drop_zero])]
  rfl

theorem cmpBytes_ne_outOfFuel (a b : DataReader) (n i : Nat) :
    cmpBytes a b i n ≠ .error .outOfFuel := by
  have hread : ∀ (reader : DataReader) (j : Nat), reader.read j ≠ .error .outOfFuel := by
    intro reader j
    cases reader with
    | bytes data => rw [read]; cases data[j]? <;> simp
    | bits reader => simp [read]
  induction n generalizing i with
  | zero => simp [cmpBytes]
  | succ n ih =>
      rw [cmpBytes]
      cases ha : a.read i with
      | error fault =>
          intro hfuel
          exact hread a i (by rw [ha]; simpa using hfuel)
      | ok x =>
          cases hb : b.read i with
          | error fault =>
              intro hfuel
              exact hread b i (by rw [hb]; simpa using hfuel)
          | ok y =>
              by_cases hxy : x = y
              · simpa [hxy] using ih (i + 1)
              · simp [hxy]

end DataReader

namespace TBinary

open SideBySide DataReader

theorem bitSize_pos {b : TBinary} (hb : b.WellFormed) : 0 < b.bitSize := by
  cases b with
  | processHeap size data => exact hb.1
  | slice orig offset size => exact hb.2.1

/-- What the comparison of two binaries sees. -/
def sight (a b : TBinary) : Sight :=
  if a.bitSize ≠ b.bitSize then .ofOrdering (compare a.bitSize b.bitSize)
  else a.reader.sight b.reader

theorem sight_swap (a b : TBinary) : (a.sight b).swap = b.sight a := by
  rw [sight, sight]
  by_cases hsize : a.bitSize = b.bitSize
  · simp [hsize, DataReader.sight_swap]
  · have hsize' : b.bitSize ≠ a.bitSize := Ne.symm hsize
    simp [hsize, hsize', ← Std.OrientedOrd.eq_swap]

theorem toOption_cmpBinary (a b : TBinary) :
    (a.cmpBinary b).toOption = forward [a.sight b] := by
  rw [cmpBinary, sight]
  split
  · rw [forward_ofOrdering]
    rfl
  · exact toOption_cmpReaderVsReader a.reader b.reader

theorem cmpBinary_ne_outOfFuel (a b : TBinary) : a.cmpBinary b ≠ .error .outOfFuel := by
  rw [cmpBinary]
  split
  · simp
  · exact cmpBytes_ne_outOfFuel a.reader b.reader _ 0

end TBinary

end Zeptobeam
