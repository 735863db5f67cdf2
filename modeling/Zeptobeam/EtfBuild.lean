/-
What the decoder builds from an encoding, where on the heap, and when there is room for
it.  Objects are allotted one after the other in the order in which they are met, so that
the words of what came before an object say where it lies.
-/
import Zeptobeam.EtfGrammar

namespace Zeptobeam

open Fuelled ExtTermFormat

namespace Heap

/-- The heap after an allotment that there is room for. -/
def allotted (nWords : Nat) (heap : Heap) : Heap :=
  { heap with
    heapTop := heap.heapTop + nWords
    behindTop := 0
    damaged := heap.damaged || 0 < heap.behindTop }

/-- The heap after words were written behind those allotted last. -/
def reaching (nWords : Nat) (heap : Heap) : Heap :=
  { heap with behindTop := max heap.behindTop nWords }

/-- The heap after one word was written past the end of an object. -/
def past (objectEnd : Nat) (heap : Heap) : Heap :=
  if heap.heapTop = objectEnd then heap.reaching 1 else { heap with damaged := true }

end Heap

/-- Keys and values in turn, as pairs. -/
def pairUp {α : Type} : List α → List (α × α)
  | key :: value :: rest => (key, value) :: pairUp rest
  | _ => []

/-- A map with the pairs added one after the other, if every search of a key ends. -/
noncomputable def addAll (capacity : Nat) :
    List (Built × Built) → List (Built × Built) → Option (List (Built × Built))
  | built, [] => some built
  | built, (key, value) :: rest =>
      (settled fun fuel => addToMap fuel capacity built key value).bind fun built =>
        addAll capacity built rest

/-- The limbs of digits that can be copied into limbs. -/
def limbsOf (digits : List UInt8) : List Nat :=
  match makeLimbsFromBytes .little digits with
  | .ok limbs => limbs
  | .error _ => []

/-- The text of a name in Latin-1. -/
def latin1Text (name : List UInt8) : String :=
  String.ofList (name.map fun b => Char.ofNat b.toNat)

/-- A list cell for each of the values, the first one at the address. -/
def cellsFrom : Nat → List Built → List (Nat × Built)
  | _, [] => []
  | addr, value :: rest => (addr, value) :: cellsFrom (addr + 2) rest

namespace Etf

section

variable (boxHeader : Nat)

mutual

/-- The words that are allotted for a term. -/
def words : Etf → Nat
  | .smallInteger _ | .integer _ | .atomLatin1 _ | .atomUtf8 _ _ | .nil | .noList => 0
  | .string bytes => 2 * bytes.length
  | .list elements tail => wordsOfAll elements + 2 * elements.length + words tail
  | .tuple _ elements =>
      if elements.length = 0 then 0 else boxHeader + elements.length + wordsOfAll elements
  | .binary data => if data.length = 0 then 0 else binaryWords boxHeader data.length
  | .big _ _ _ => boxHeader + 2
  | .map pairs => FlatMap.storageSize boxHeader (pairs.length / 2) + wordsOfAll pairs

def wordsOfAll : List Etf → Nat
  | [] => 0
  | t :: rest => words t + wordsOfAll rest

end

mutual

/-- The term that is built from an encoding, from the address on. -/
noncomputable def place (addr : Nat) : Etf → Built
  | .smallInteger value => .small value.toNat
  | .integer value => .small value
  | .atomLatin1 name => .atom (latin1Text name)
  | .atomUtf8 _ name => .atom name
  | .nil => .nil
  | .string bytes => linkCells (cellsFrom addr (bytes.map fun b => .small b.toNat)) .nil
  | .list elements tail =>
      linkCells (placeCells addr elements)
        (place (addr + wordsOfAll boxHeader elements + 2 * elements.length) tail)
  | .noList => .nil
  | .tuple _ elements =>
      if elements.length = 0 then .emptyTuple
      else .tuple addr (placeAll (addr + (boxHeader + elements.length)) elements)
  | .binary data => if data.length = 0 then .emptyBinary else .binary addr data
  | .big _ sign digits =>
      .bignum addr (if sign = 0 then .positive else .negative) (limbsOf digits)
  | .map pairs =>
      let capacity := FlatMap.storageSize boxHeader (pairs.length / 2)
      .map addr ((addAll capacity [] (pairUp (placeAll (addr + capacity) pairs))).getD [])

noncomputable def placeAll (addr : Nat) : List Etf → List Built
  | [] => []
  | t :: rest => place addr t :: placeAll (addr + words boxHeader t) rest

/-- The cells of a list, each one behind its element. -/
noncomputable def placeCells (addr : Nat) : List Etf → List (Nat × Built)
  | [] => []
  | t :: rest =>
      (addr + words boxHeader t, place addr t) ::
        placeCells (addr + words boxHeader t + 2) rest

end

/-- The pairs of a map at the address, if every search of a key ends. -/
noncomputable def pairsAt (addr : Nat) (pairs : List Etf) : Option (List (Built × Built)) :=
  let capacity := FlatMap.storageSize boxHeader (pairs.length / 2)
  addAll capacity [] (pairUp (placeAll boxHeader (addr + capacity) pairs))

mutual

/-- There is room for the objects of a term, from the address on and below the limit, and
they are of the kinds and sizes that can be built; the keys of a map are found a place. -/
def Fits (limit addr : Nat) : Etf → Prop
  | .smallInteger _ | .integer _ | .atomUtf8 _ _ | .nil | .noList => True
  | .atomLatin1 name => (nameBytes (latin1Text name)).length ≤ 65535
  | .string bytes => bytes.length = 0 ∨ addr + 2 * bytes.length < limit
  | .list elements tail =>
      FitsCells limit addr elements ∧
        Fits limit (addr + wordsOfAll boxHeader elements + 2 * elements.length) tail
  | .tuple _ elements =>
      elements.length = 0 ∨ addr + (boxHeader + elements.length) < limit ∧
        FitsAll limit (addr + (boxHeader + elements.length)) elements
  | .binary data =>
      data.length = 0 ∨
        data.length ≤ onheapThreshold ∧ addr + binaryWords boxHeader data.length < limit
  | .big _ _ digits =>
      digits.length % 64 ≤ 8 ∧ addr + (boxHeader + 2) < limit ∧
        addr + (boxHeader + 2) + ((digits.length + 7) / 8 - 1) ≤ limit
  | .map pairs =>
      addr + FlatMap.storageSize boxHeader (pairs.length / 2) < limit ∧
        FitsAll limit (addr + FlatMap.storageSize boxHeader (pairs.length / 2)) pairs ∧
        (pairsAt boxHeader addr pairs).isSome

def FitsAll (limit addr : Nat) : List Etf → Prop
  | [] => True
  | t :: rest => Fits limit addr t ∧ FitsAll limit (addr + words boxHeader t) rest

def FitsCells (limit addr : Nat) : List Etf → Prop
  | [] => True
  | t :: rest =>
      Fits limit addr t ∧ addr + words boxHeader t + 2 < limit ∧
        FitsCells limit (addr + words boxHeader t + 2) rest

end

end

mutual

/-- The heap after a term was built. -/
noncomputable def after : Etf → Heap → Heap
  | .smallInteger _, heap | .integer _, heap | .atomLatin1 _, heap | .atomUtf8 _ _, heap
  | .nil, heap | .noList, heap => heap
  | .string bytes, heap => bytes.foldl (fun heap _ => heap.allotted 2) heap
  | .list elements tail, heap => after tail (afterCells elements heap)
  | .tuple _ elements, heap =>
      if elements.length = 0 then heap
      else afterAll elements (heap.allotted (heap.boxHeader + elements.length))
  | .binary data, heap =>
      if data.length = 0 then heap
      else heap.allotted (binaryWords heap.boxHeader data.length)
  | .big _ _ digits, heap =>
      (heap.allotted (heap.boxHeader + 2)).reaching ((digits.length + 7) / 8 - 1)
  | .map pairs, heap =>
      let capacity := FlatMap.storageSize heap.boxHeader (pairs.length / 2)
      let filled := afterAll pairs (heap.allotted capacity)
      if ((pairsAt heap.boxHeader heap.heapTop pairs).getD []).length = pairs.length / 2 then
        filled.past (heap.heapTop + capacity)
      else filled

noncomputable def afterAll : List Etf → Heap → Heap
  | [], heap => heap
  | t :: rest, heap => afterAll rest (after t heap)

noncomputable def afterCells : List Etf → Heap → Heap
  | [], heap => heap
  | t :: rest, heap => afterCells rest ((after t heap).allotted 2)

end

end Etf

end Zeptobeam
