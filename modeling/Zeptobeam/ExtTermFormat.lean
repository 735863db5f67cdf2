/-
The external term format.  A term begins with a byte of its tag, and what follows is read
as the tag says: numbers of a fixed width, as many bytes as such a number says, or other
terms.  Terms that do not fit in a word are built on the heap while they are read.
-/
import Zeptobeam.FlatMap
import Zeptobeam.LiteralHeap

namespace Zeptobeam

/-- A decoded term, with everything it points to and the addresses. -/
inductive Built where
  | small (value : Int)
  | atom (name : String)
  | nil
  | emptyTuple
  | emptyBinary
  | cons (addr : Nat) (hd tl : Built)
  | tuple (addr : Nat) (elements : List Built)
  | binary (addr : Nat) (data : List UInt8)
  | bignum (addr : Nat) (sign : Sign) (limbs : List Nat)
  | map (addr : Nat) (pairs : List (Built × Built))

/-- A binary on the process heap. -/
def procheapBin (data : List UInt8) (h : data ≠ []) : Binary :=
  ⟨.processHeap (8 * data.length) data, by
    have hpos := List.length_pos_iff.mpr h
    rw [TBinary.WellFormed, byteSizeRoundedUp]
    omega⟩

mutual

/-- The term as the comparison sees it. -/
def Built.term : Built → Term
  | .small value => .small value
  | .atom name => .atom name
  | .nil => .nil
  | .emptyTuple => .emptyTuple
  | .emptyBinary => .emptyBinary
  | .cons addr hd tl => .cons addr hd.term tl.term
  | .tuple addr elements =>
      match termOfAll elements with
      | [] => .emptyTuple
      | data0 :: rest => .tuple addr data0 rest
  | .binary addr data =>
      if h : data ≠ [] then .binary addr (procheapBin data h) else .emptyBinary
  | .bignum addr _ _ => .boxed addr .bigInteger
  | .map addr pairs => .boxed addr (.map pairs.length)

def termOfAll : List Built → List Term
  | [] => []
  | t :: rest => t.term :: termOfAll rest

end

namespace ExtTermFormat

open Loading BinaryReader

/-- `Err(ETFParseError)`. -/
def fail {α : Type} (msg : String) : Loading α :=
  err (.etfParseError msg)

/-- Allot words, and give their address. -/
def allocate (nWords : Nat) : Loading Nat := do
  let addr := (← get).heap.heapTop
  Heap.alloc nWords
  return addr

/-- Write one word past the end of an object: behind the top, or over the object that was
allotted next. -/
def writePast (objectEnd : Nat) : Loading Unit := fun s =>
  if s.heap.heapTop = objectEnd then Heap.writeBehind 1 s
  else .ok ((), { s with heap := { s.heap with damaged := true } })

/-- The text of a read error. -/
def readErrorText : ReadError → String
  | .readFailed text => s!"ReadFailed({text})"
  | .invalidUtf8 => "ReadFailed(File reader: Invalid UTF-8 sequence)"
  | .prematureEOF => "PrematureEOF"

/-- An error of the read becomes one of the format. -/
def mapReadErr {α : Type} (what : String) (x : Reading α) : Loading α := fun s =>
  match reading x s with
  | .error (.err (.readError e)) =>
      let text := readErrorText e
      .error (.err (.etfParseError s!"external_term_format: {what} decode failed: {text}"))
  | result => result

/-- `atom::from_str`: an entry of the atom table has room for a length of two bytes. -/
def fromStr (name : String) : Loading Built :=
  if 65535 < (nameBytes name).length then panic .assertion else return .atom name

/-- `ONHEAP_THRESHOLD`: larger binaries would be on a heap of their own. -/
def onheapThreshold : Nat := 64

def binaryWords (boxHeader nBytes : Nat) : Nat :=
  boxHeader + 3 + (nBytes + 7) / 8

def decodeBig (size : Nat) : Loading Built := do
  let sign := if (← reading readU8) = 0 then Sign.positive else .negative
  let digits ← reading (readBytes size)
  match makeLimbsFromBytes .little digits with
  | .error p => panic p
  | .ok limbs => do
      let addr := (← get).heap.heapTop
      createBignum limbs
      return .bignum addr sign limbs

def decodeBinary : Loading Built := do
  let nBytes ← reading readU32be
  if nBytes = 0 then return .emptyBinary
  let data ← reading (readBytes nBytes)
  if onheapThreshold < nBytes then panic (.unimplemented "create binary on the binary heap")
  let addr ← allocate (binaryWords (← get).heap.boxHeader nBytes)
  return .binary addr data

def decodeU8 : Loading Built := do
  let value ← reading readU8
  return .small value.toNat

def decodeS32 : Loading Built := do
  let value ← reading readU32be
  return .small (Int.bmod value (2 ^ 32))

def decodeAtomLatin1 : Loading Built := do
  let size ← reading readU16be
  let value ← reading (unwrap (readStrLatin1 size))
  fromStr value

def decodeAtomUtf8 : Loading Built := do
  let size ← reading readU16be
  let value ← mapReadErr "AtomUtf8" (readStrUtf8 size)
  fromStr value

def decodeSmallAtomUtf8 : Loading Built := do
  let size ← reading readU8
  let value ← mapReadErr "SmallAtomUtf8" (readStrUtf8 size.toNat)
  fromStr value

/-- The cells of a list, in their order, and what follows the last one. -/
def linkCells (cells : List (Nat × Built)) (tail : Built) : Built :=
  cells.foldr (fun cell tl => .cons cell.1 cell.2 tl) tail

/-- A string of bytes, decoded to a list. -/
def decodeString : Loading Built := do
  let nElem ← reading readU16be
  if nElem = 0 then return .nil
  let cells ← times nElem do
    let elem ← reading readU8
    let addr ← allocate 2
    return (addr, Built.small elem.toNat)
  return linkCells cells .nil

/-- `Map::add`, with what the keys and values point to. -/
def addToMap (fuel capacity : Nat) (pairs : List (Built × Built)) (key value : Built) :
    Except Panic (List (Built × Built)) := do
  let m : FlatMap := ⟨capacity, pairs.map fun p => (p.1.term, p.2.term)⟩
  match ← m.getFlatmap fuel key.term with
  | .foundAt pos => .ok (pairs.set pos (key, value))
  | .closestLarger pos =>
      if capacity ≤ pairs.length then .error .assertion
      else .ok (pairs.insertIdx pos (key, value))

section

variable (decodeNaked : Loading Built)

def decodeTuple (size : Nat) : Loading Built := do
  if size = 0 then return .emptyTuple
  let addr ← allocate ((← get).heap.boxHeader + size)
  let elements ← times size decodeNaked
  return .tuple addr elements

/-- The pairs that are left, each decoded and added to those so far. -/
def decodePairs (fuel capacity : Nat) :
    Nat → List (Built × Built) → Loading (List (Built × Built))
  | 0, pairs => return pairs
  | n + 1, pairs => do
      let key ← decodeNaked
      let value ← decodeNaked
      match addToMap fuel capacity pairs key value with
      | .error p => panic p
      | .ok pairs => decodePairs fuel capacity n pairs

/-- The count of a map, or the last value of a full one, is a word past its end. -/
def decodeMap (fuel size : Nat) : Loading Built := do
  let capacity := FlatMap.storageSize (← get).heap.boxHeader size
  let addr ← allocate capacity
  let pairs ← decodePairs decodeNaked fuel capacity size []
  if pairs.length = size then writePast (addr + capacity)
  return .map addr pairs

def decodeList : Loading Built := do
  let nElem ← reading readU32be
  if nElem = 0 then return .nil
  let cells ← times nElem do
    let another ← decodeNaked
    let addr ← allocate 2
    return (addr, another)
  let tl ← decodeNaked
  return linkCells cells tl

end

/-- A term without the byte of the format before it. -/
def decodeNaked : Nat → Loading Built
  | 0 => panic .outOfFuel
  | fuel + 1 => do
      let termTag ← reading readU8
      match termTag.toNat with
      | 108 => decodeList (decodeNaked fuel)
      | 107 => decodeString
      | 100 => decodeAtomLatin1
      | 118 => decodeAtomUtf8
      | 119 => decodeSmallAtomUtf8
      | 97 => decodeU8
      | 98 => decodeS32
      | 106 => return .nil
      | 105 => do
          let size ← reading readU32be
          decodeTuple (decodeNaked fuel) size
      | 104 => do
          let size ← reading readU8
          decodeTuple (decodeNaked fuel) size.toNat
      | 111 => do
          let size ← reading readU32be
          decodeBig size
      | 110 => do
          let size ← reading readU8
          decodeBig size.toNat
      | 109 => decodeBinary
      | 116 => do
          let size ← reading readU32be
          decodeMap (decodeNaked fuel) fuel size
      | n =>
          let hex := String.ofList (Nat.toDigits 16 n)
          fail s!"Don't know how to decode ETF value tag 0x{hex} ({n})"

def decode (fuel : Nat) : Loading Built := do
  let etfTag ← reading readU8
  let n := etfTag.toNat
  if n ≠ 131 then fail s!"external_term_format: Expected ETF tag byte 131, got {n}"
  else decodeNaked fuel

end ExtTermFormat

end Zeptobeam
