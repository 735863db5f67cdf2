/-
The encodings of the external term format, and the byte strings that break off an encoding
or leave the format.  Every byte string begins with an encoding, or is one of the latter.
-/
import Zeptobeam.ExtTermFormat

namespace Zeptobeam

/-- An encoding of a term, tag by tag; `wide` picks the tag with the longer size field. -/
inductive Etf where
  | smallInteger (value : UInt8)
  | integer (value : Int)
  | atomLatin1 (name : List UInt8)
  | atomUtf8 (wide : Bool) (name : String)
  | nil
  | string (bytes : List UInt8)
  /-- The elements, one or more, and what follows the last one. -/
  | list (elements : List Etf) (tail : Etf)
  /-- A list of no elements, which stands for nil without a tail. -/
  | noList
  | tuple (wide : Bool) (elements : List Etf)
  | binary (data : List UInt8)
  | big (wide : Bool) (sign : UInt8) (digits : List UInt8)
  /-- The keys and values in turn. -/
  | map (pairs : List Etf)

namespace Etf

/-- A tag that has a shorter and a longer size field. -/
def sized (wide : Bool) (tagWide tagShort : UInt8) (size : Nat) : List UInt8 :=
  if wide then tagWide :: bigEndianBytes 4 size else tagShort :: bigEndianBytes 1 size

mutual

def bytes : Etf → List UInt8
  | .smallInteger value => [97, value]
  | .integer value => 98 :: bigEndianBytes 4 (value % 2 ^ 32).toNat
  | .atomLatin1 name => 100 :: bigEndianBytes 2 name.length ++ name
  | .atomUtf8 true name => 118 :: bigEndianBytes 2 (nameBytes name).length ++ nameBytes name
  | .atomUtf8 false name => 119 :: bigEndianBytes 1 (nameBytes name).length ++ nameBytes name
  | .nil => [106]
  | .string bytes => 107 :: bigEndianBytes 2 bytes.length ++ bytes
  | .list elements tail =>
      108 :: bigEndianBytes 4 elements.length ++ (bytesOfAll elements ++ tail.bytes)
  | .noList => 108 :: bigEndianBytes 4 0
  | .tuple wide elements => sized wide 105 104 elements.length ++ bytesOfAll elements
  | .binary data => 109 :: bigEndianBytes 4 data.length ++ data
  | .big wide sign digits => sized wide 111 110 digits.length ++ (sign :: digits)
  | .map pairs => 116 :: bigEndianBytes 4 (pairs.length / 2) ++ bytesOfAll pairs

def bytesOfAll : List Etf → List UInt8
  | [] => []
  | t :: rest => t.bytes ++ bytesOfAll rest

end

theorem bytesOfAll_append (ts ts' : List Etf) :
    bytesOfAll (ts ++ ts') = bytesOfAll ts ++ bytesOfAll ts' := by
  induction ts with
  | nil => rfl
  | cons t ts ih => rw [List.cons_append, bytesOfAll, ih, bytesOfAll, List.append_assoc]

/-- What a size field of the tag can say. -/
def sizeLimit (wide : Bool) : Nat :=
  if wide then 2 ^ 32 else 2 ^ 8

/-- The sizes are those that their fields can say. -/
inductive WellFormed : Etf → Prop where
  | smallInteger (value : UInt8) : WellFormed (.smallInteger value)
  | integer {value : Int} (hlow : -2 ^ 31 ≤ value) (hhigh : value < 2 ^ 31) :
      WellFormed (.integer value)
  | atomLatin1 {name : List UInt8} (hsize : name.length < 2 ^ 16) :
      WellFormed (.atomLatin1 name)
  | atomUtf8 {wide : Bool} {name : String}
      (hsize : (nameBytes name).length < if wide then 2 ^ 16 else 2 ^ 8) :
      WellFormed (.atomUtf8 wide name)
  | nil : WellFormed .nil
  | string {bytes : List UInt8} (hsize : bytes.length < 2 ^ 16) : WellFormed (.string bytes)
  | list {elements : List Etf} {tail : Etf} (hne : elements ≠ [])
      (hsize : elements.length < 2 ^ 32) (helements : ∀ t ∈ elements, WellFormed t)
      (htail : WellFormed tail) : WellFormed (.list elements tail)
  | noList : WellFormed .noList
  | tuple {wide : Bool} {elements : List Etf} (hsize : elements.length < sizeLimit wide)
      (helements : ∀ t ∈ elements, WellFormed t) : WellFormed (.tuple wide elements)
  | binary {data : List UInt8} (hsize : data.length < 2 ^ 32) : WellFormed (.binary data)
  | big {wide : Bool} {sign : UInt8} {digits : List UInt8}
      (hsize : digits.length < sizeLimit wide) : WellFormed (.big wide sign digits)
  | map {pairs : List Etf} (heven : pairs.length % 2 = 0) (hsize : pairs.length / 2 < 2 ^ 32)
      (hpairs : ∀ t ∈ pairs, WellFormed t) : WellFormed (.map pairs)

end Etf

/-- The width of the field that follows a tag, of those that are known. -/
def tagField : Nat → Option Nat
  | 97 => some 1
  | 98 => some 4
  | 100 => some 2
  | 104 => some 1
  | 105 => some 4
  | 106 => some 0
  | 107 => some 2
  | 108 => some 4
  | 109 => some 4
  | 110 => some 1
  | 111 => some 4
  | 116 => some 4
  | 118 => some 2
  | 119 => some 1
  | _ => none

/-- Where a byte string breaks off, or leaves the format. -/
inductive BreakPoint where
  | ended
  | unknownTag (tag : UInt8) (rest : List UInt8)
  /-- The field after the tag is cut. -/
  | cutField (tag : UInt8) (given : List UInt8)
  | cutString (size : Nat) (given : List UInt8)
  | cutLatin1 (size : Nat) (given : List UInt8)
  | cutUtf8 (wide : Bool) (size : Nat) (given : List UInt8)
  | invalidUtf8 (wide : Bool) (name rest : List UInt8)
  | cutBinary (size : Nat) (given : List UInt8)
  | cutSign (wide : Bool) (size : Nat)
  | cutBig (wide : Bool) (size : Nat) (sign : UInt8) (given : List UInt8)

namespace BreakPoint

def bytes : BreakPoint → List UInt8
  | ended => []
  | unknownTag tag rest => tag :: rest
  | cutField tag given => tag :: given
  | cutString size given => 107 :: bigEndianBytes 2 size ++ given
  | cutLatin1 size given => 100 :: bigEndianBytes 2 size ++ given
  | cutUtf8 true size given => 118 :: bigEndianBytes 2 size ++ given
  | cutUtf8 false size given => 119 :: bigEndianBytes 1 size ++ given
  | invalidUtf8 true name rest => 118 :: bigEndianBytes 2 name.length ++ (name ++ rest)
  | invalidUtf8 false name rest => 119 :: bigEndianBytes 1 name.length ++ (name ++ rest)
  | cutBinary size given => 109 :: bigEndianBytes 4 size ++ given
  | cutSign wide size => Etf.sized wide 111 110 size
  | cutBig wide size sign given => Etf.sized wide 111 110 size ++ (sign :: given)

def WellFormed : BreakPoint → Prop
  | ended => True
  | unknownTag tag _ => tagField tag.toNat = none
  | cutField tag given => ∃ width, tagField tag.toNat = some width ∧ given.length < width
  | cutString size given => given.length < size ∧ size < 2 ^ 16
  | cutLatin1 size given => given.length < size ∧ size < 2 ^ 16
  | cutUtf8 wide size given => given.length < size ∧ size < if wide then 2 ^ 16 else 2 ^ 8
  | invalidUtf8 wide name _ =>
      LineFile.decode name = none ∧ name.length < if wide then 2 ^ 16 else 2 ^ 8
  | cutBinary size given => given.length < size ∧ size < 2 ^ 32
  | cutSign wide size => size < Etf.sizeLimit wide
  | cutBig wide size _ given => given.length < size ∧ size < Etf.sizeLimit wide

/-- An unknown tag, or bytes of a size that was read that are not there or not UTF-8; but a
name in Latin-1 is unwrapped. -/
def Reported : BreakPoint → Prop
  | unknownTag _ _ | cutUtf8 _ _ _ | invalidUtf8 _ _ _ | cutBinary _ _ | cutBig _ _ _ _ => True
  | _ => False

end BreakPoint

/-- A byte string that breaks off inside of terms. -/
inductive Broken where
  | here (at_ : BreakPoint)
  | inList (size : Nat) (before : List Etf) (next : Broken)
  | inTail (elements : List Etf) (next : Broken)
  | inTuple (wide : Bool) (size : Nat) (before : List Etf) (next : Broken)
  /-- In a key, after so many keys and values. -/
  | inKey (size : Nat) (before : List Etf) (next : Broken)
  | inValue (size : Nat) (before : List Etf) (key : Etf) (next : Broken)

namespace Broken

def bytes : Broken → List UInt8
  | here at_ => at_.bytes
  | inList size before next =>
      108 :: bigEndianBytes 4 size ++ (Etf.bytesOfAll before ++ next.bytes)
  | inTail elements next =>
      108 :: bigEndianBytes 4 elements.length ++ (Etf.bytesOfAll elements ++ next.bytes)
  | inTuple wide size before next =>
      Etf.sized wide 105 104 size ++ (Etf.bytesOfAll before ++ next.bytes)
  | inKey size before next =>
      116 :: bigEndianBytes 4 size ++ (Etf.bytesOfAll before ++ next.bytes)
  | inValue size before key next =>
      116 :: bigEndianBytes 4 size ++ (Etf.bytesOfAll before ++ (key.bytes ++ next.bytes))

inductive WellFormed : Broken → Prop where
  | here {at_ : BreakPoint} (h : at_.WellFormed) : WellFormed (.here at_)
  | inList {size : Nat} {before : List Etf} {next : Broken} (hsize : size < 2 ^ 32)
      (hlength : before.length < size) (hbefore : ∀ t ∈ before, t.WellFormed)
      (hnext : WellFormed next) : WellFormed (.inList size before next)
  | inTail {elements : List Etf} {next : Broken} (hne : elements ≠ [])
      (hsize : elements.length < 2 ^ 32) (helements : ∀ t ∈ elements, t.WellFormed)
      (hnext : WellFormed next) : WellFormed (.inTail elements next)
  | inTuple {wide : Bool} {size : Nat} {before : List Etf} {next : Broken}
      (hsize : size < Etf.sizeLimit wide) (hlength : before.length < size)
      (hbefore : ∀ t ∈ before, t.WellFormed) (hnext : WellFormed next) :
      WellFormed (.inTuple wide size before next)
  | inKey {size : Nat} {before : List Etf} {next : Broken} (hsize : size < 2 ^ 32)
      (heven : before.length % 2 = 0) (hlength : before.length / 2 < size)
      (hbefore : ∀ t ∈ before, t.WellFormed) (hnext : WellFormed next) :
      WellFormed (.inKey size before next)
  | inValue {size : Nat} {before : List Etf} {key : Etf} {next : Broken} (hsize : size < 2 ^ 32)
      (heven : before.length % 2 = 0) (hlength : before.length / 2 < size)
      (hbefore : ∀ t ∈ before, t.WellFormed) (hkey : key.WellFormed)
      (hnext : WellFormed next) : WellFormed (.inValue size before key next)

end Broken

end Zeptobeam
