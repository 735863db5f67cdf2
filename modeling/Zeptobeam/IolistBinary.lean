/-
`list_to_binary`.  A first pass over the nested list counts the bytes, and a second one writes
them into a binary of that size.  Both go over the same elements, and neither looks at what a
list ends with.
-/
import Zeptobeam.BitReading
import Zeptobeam.HeapMemory
import Zeptobeam.Lib.BitPlacement
import Zeptobeam.MatchState
import Zeptobeam.TermEquality

namespace Zeptobeam

open BitString StateExcept

/-- A binary that a function returns. -/
inductive BinaryTerm where
  | empty
  | boxed (data : TBinary)

def BinaryTerm.bits : BinaryTerm → List Bool
  | .empty => []
  | .boxed data => data.bits

namespace Iolist

/-! ## The function -/

def getIolistSize : Term → Nat
  | .cons _ elem tl =>
      (match elem with
        -- any small integer even larger than 256 counts as 1 byte
        | .small _ => 1
        | .emptyBinary => 0
        | .binary _ data => byteSizeRoundedUp data.val.bitSize
        | .cons .. => getIolistSize elem
        | _ => 0) +
      match tl with
      | .cons .. => getIolistSize tl
      | _ => 0
  | _ => 0

/-- The bytes that were written. -/
abbrev Writing := StateT (List UInt8) (Except NativeErr)

/-- A release build writes beyond the binary. -/
def writeByte (debug : Bool) (size : Nat) (b : UInt8) : Writing Unit := fun written =>
  if written.length < size then .ok ((), written ++ [b])
  else .error (.panic (if debug then .assertion else .outsideAllocation))

def smallByte (debug : Bool) (value : Int) : Except NativeErr UInt8 :=
  match getSmallUnsigned debug value with
  | .ok n => .ok n.toUInt8
  | .error p => .error (.panic p)

def readByte (reader : DataReader) (n : Nat) : Except NativeErr UInt8 :=
  (reader.read n).mapError fun fault => .panic (.comparing fault)

def writeBinary (debug : Bool) (size : Nat) (data : TBinary) : Writing Unit := do
  if lastByteBits data.bitSize ≠ 0 then throw .badarg
  (List.range (byteSizeRoundedDown data.bitSize)).forM fun i => do
    writeByte debug size (← readByte data.reader i)

def listToBinary1Recursive (debug : Bool) (size : Nat) : Term → Writing Unit
  | .cons _ elem tl => do
      match elem with
      | .small value => writeByte debug size (← smallByte debug value)
      | .emptyBinary => pure ()
      | .binary _ data => writeBinary debug size data.val
      | .cons .. => listToBinary1Recursive debug size elem
      | _ => throw .badarg
      match tl with
      | .cons .. => listToBinary1Recursive debug size tl
      | _ => pure ()
  | _ => pure ()

/-- No binary is made on the binary heap. -/
def createInto (size : Nat) : Native Unit := do
  if size = 0 then throw .creatingZeroSizedBinary
  if 64 < byteSizeRoundedUp size then
    Native.panic (.unimplemented "create binary on the binary heap")
  let _ ← Native.alloc ((← get).boxHeader + 3 + (byteSizeRoundedDown size + 7) / 8)

def isList : Term → Bool
  | .nil => true
  | .cons .. => true
  | _ => false

/-- What is not written is the first word, which is zero, or what lay in the memory. -/
def listToBinary1 (debug : Bool) (memory : Nat → UInt8) (list : Term) : Native BinaryTerm := do
  if !isList list then Native.badarg
  let size := getIolistSize list
  if size = 0 then return .empty
  createInto (8 * size)
  let (_, written) ← listToBinary1Recursive debug size list []
  let unwritten := (List.range size).drop written.length |>.map fun i =>
    if i < 8 then 0 else memory i
  return .boxed (.processHeap (8 * size) (written ++ unwritten))

/-! ## What it should do -/

/-- The bits of an iolist, of an element, or of what a list ends with. -/
def ioBits (atEnd : Bool) : Term → Option (List Bool)
  | .small value => if ¬ atEnd ∧ 0 ≤ value ∧ value < 256 then some (intBits value 8) else none
  | .nil => some []
  | .emptyBinary => some []
  | .binary _ data => if 8 ∣ data.val.bitSize then some data.val.bits else none
  | .cons _ elem tl => do return (← ioBits false elem) ++ (← ioBits true tl)
  | _ => none

def IsIolist (list : Term) (bs : List Bool) : Prop :=
  isList list ∧ ioBits true list = some bs

/-- The function returns the bits of an iolist, refuses everything else, and writes as many bytes
as it counted. -/
def Flattens (debug : Bool) (memory : Nat → UInt8) (list : Term) (heap : Emulator.ProcessHeap) :
    Prop :=
  (∀ bs, IsIolist list bs → ∃ result heap',
    listToBinary1 debug memory list heap = .ok (result, heap') ∧ result.bits = bs ∧
      8 * getIolistSize list = bs.length) ∧
  ((∀ bs, ¬ IsIolist list bs) → listToBinary1 debug memory list heap = .error .badarg) ∧
  ∀ written, listToBinary1Recursive debug (getIolistSize list) list [] = .ok ((), written) →
    written.length = getIolistSize list

/-! ## The pieces of a list -/

/-- What both passes come to: an element that is no list of its own, or what a list ends with. -/
inductive Piece where
  | element (t : Term)
  | last (t : Term)

def pieces : Term → List Piece
  | .cons _ elem tl =>
      (match elem with
        | .cons .. => pieces elem
        | _ => [.element elem]) ++
      match tl with
      | .cons .. => pieces tl
      | _ => [.last tl]
  | _ => []

namespace Piece

/-- The bytes that the first pass counts. -/
def count : Piece → Nat
  | element (.small _) => 1
  | element (.binary _ data) => byteSizeRoundedUp data.val.bitSize
  | _ => 0

/-- The bytes that the second pass writes. -/
def bytes (debug : Bool) : Piece → Except NativeErr (List UInt8)
  | element (.small value) => do return [← smallByte debug value]
  | element .emptyBinary => .ok []
  | element (.binary _ data) =>
      if 8 ∣ data.val.bitSize then
        .ok ((List.range (data.val.bitSize / 8)).map data.val.bitReader.read)
      else .error .badarg
  | element _ => .error .badarg
  | last _ => .ok []

/-- The bits that the piece should add; lists are no pieces. -/
def bits : Piece → Option (List Bool)
  | element (.cons ..) => none
  | element t => ioBits false t
  | last (.cons ..) => none
  | last t => ioBits true t

/-- The second pass refuses the piece. -/
def Refused : Piece → Prop
  | element (.small _) => False
  | element .emptyBinary => False
  | element (.binary _ data) => ¬ 8 ∣ data.val.bitSize
  | element _ => True
  | last _ => False

/-- A debug build asserts that there is no such piece. -/
def Negative : Piece → Prop
  | element (.small value) => value < 0
  | _ => False

/-- A list ends with nothing that has bytes. -/
def EndsEmpty : Piece → Prop
  | last t => t = .nil ∨ t = .emptyBinary
  | element _ => True

end Piece

def count (ps : List Piece) : Nat :=
  (ps.map Piece.count).sum

/-- The bytes of the pieces, up to the first one that is refused. -/
def bytes (debug : Bool) : List Piece → Except NativeErr (List UInt8)
  | [] => .ok []
  | p :: ps => do return (← p.bytes debug) ++ (← bytes debug ps)

def pieceBits : List Piece → Option (List Bool)
  | [] => some []
  | p :: ps => do return (← p.bits) ++ (← pieceBits ps)

/-- A piece is refused, and in a debug build no integer below zero comes before it. -/
def RefusedFirst (debug : Bool) (ps : List Piece) : Prop :=
  ∃ before p after, ps = before ++ p :: after ∧ p.Refused ∧
    (debug = true → ∀ q ∈ before, ¬ q.Negative)

/-- Binaries of more than 64 bytes are not implemented. -/
def Room (heap : Emulator.ProcessHeap) (size : Nat) : Prop :=
  size ≤ 64 ∧ heap.heapTop + (heap.boxHeader + 3 + (size + 7) / 8) < heap.stackTop

/-- When the function does what it should. -/
def Holds (debug : Bool) (heap : Emulator.ProcessHeap) (list : Term) : Prop :=
  isList list = false ∨
  ((∃ bs, IsIolist list bs) ∧ (∀ p ∈ pieces list, p.EndsEmpty) ∧
    (count (pieces list) = 0 ∨
      (∀ p ∈ pieces list, p ≠ .element .nil) ∧ Room heap (count (pieces list)))) ∨
  (∀ bs, ¬ IsIolist list bs) ∧ count (pieces list) ≠ 0 ∧ Room heap (count (pieces list)) ∧
    RefusedFirst debug (pieces list)

section Passes

variable {debug : Bool} {size : Nat}

theorem count_append (ps qs : List Piece) : count (ps ++ qs) = count ps + count qs := by
  rw [count, List.map_append, List.sum_append]
  rfl

theorem count_cons (p : Piece) (ps : List Piece) : count (p :: ps) = p.count + count ps := rfl

theorem getIolistSize_eq_count : ∀ t : Term, getIolistSize t = count (pieces t)
  | .cons _ elem tl => by
      have helem := getIolistSize_eq_count elem
      have htl := getIolistSize_eq_count tl
      rw [getIolistSize.eq_def, pieces.eq_def]
      dsimp only
      rw [count_append]
      congr 1
      · cases elem with
        | cons => exact helem
        | _ => rfl
      · cases tl with
        | cons => exact htl
        | _ => rfl
  | .small _ | .atom _ | .localPid _ | .emptyTuple | .nil | .emptyBinary | .emptyMap
  | .tuple .. | .binary .. | .boxed .. => rfl

/-- What the second pass does with a piece. -/
def writePiece (debug : Bool) (size : Nat) : Piece → Writing Unit
  | .element (.small value) => do writeByte debug size (← smallByte debug value)
  | .element .emptyBinary => pure ()
  | .element (.binary _ data) => writeBinary debug size data.val
  | .element _ => throw .badarg
  | .last _ => pure ()

def writePieces (debug : Bool) (size : Nat) : List Piece → Writing Unit
  | [] => pure ()
  | p :: ps => do
      writePiece debug size p
      writePieces debug size ps

theorem writePieces_append (ps qs : List Piece) :
    writePieces debug size (ps ++ qs) =
      (do writePieces debug size ps; writePieces debug size qs) := by
  induction ps with
  | nil => rfl
  | cons p ps ih => simp only [List.cons_append, writePieces, ih, bind_assoc]

theorem writePieces_singleton (p : Piece) :
    writePieces debug size [p] = writePiece debug size p := by
  simp [writePieces]

theorem listToBinary1Recursive_eq_writePieces :
    ∀ t : Term, listToBinary1Recursive debug size t = writePieces debug size (pieces t)
  | .cons _ elem tl => by
      have hlast : listToBinary1Recursive debug size tl = writePieces debug size (pieces tl) →
          (match tl with
            | .cons .. => listToBinary1Recursive debug size tl
            | _ => pure ()) = writePieces debug size (match tl with
              | .cons .. => pieces tl
              | _ => [.last tl]) := by
        intro htl
        cases tl with
        | cons => exact htl
        | _ => rfl
      have hend := hlast (listToBinary1Recursive_eq_writePieces tl)
      have helem := listToBinary1Recursive_eq_writePieces elem
      rw [listToBinary1Recursive.eq_def, pieces.eq_def]
      dsimp only
      rw [writePieces_append]
      cases elem with
      | cons =>
          rw [helem]
          exact bind_congr fun _ => hend
      | small value =>
          rw [writePieces_singleton, writePiece, bind_assoc]
          exact bind_congr fun _ => bind_congr fun _ => hend
      | emptyBinary =>
          rw [writePieces_singleton, writePiece, pure_bind]
          exact hend
      | _ =>
          rw [writePieces_singleton]
          exact bind_congr fun _ => hend
  | .small _ | .atom _ | .localPid _ | .emptyTuple | .nil | .emptyBinary | .emptyMap
  | .tuple .. | .binary .. | .boxed .. => rfl

theorem pieceBits_append (ps qs : List Piece) :
    pieceBits (ps ++ qs) = (do return (← pieceBits ps) ++ (← pieceBits qs)) := by
  induction ps with
  | nil => simp [pieceBits]
  | cons p ps ih =>
      rw [List.cons_append, pieceBits, pieceBits, ih]
      cases p.bits <;> cases pieceBits ps <;> cases pieceBits qs <;> simp

theorem ioBits_eq_pieceBits : ∀ (t : Term) (atEnd : Bool),
    (∃ addr elem tl, t = .cons addr elem tl) → ioBits atEnd t = pieceBits (pieces t)
  | .cons _ elem tl, _, _ => by
      have helem := ioBits_eq_pieceBits elem false
      have htl := ioBits_eq_pieceBits tl true
      rw [ioBits.eq_def, pieces.eq_def]
      dsimp only
      rw [pieceBits_append]
      congr 1
      · cases elem with
        | cons => exact helem ⟨_, _, _, rfl⟩
        | _ => simp [pieceBits, Piece.bits]
      · funext bs
        congr 1
        cases tl with
        | cons => exact htl ⟨_, _, _, rfl⟩
        | _ => simp [pieceBits, Piece.bits]
  | .small _, _, h | .atom _, _, h | .localPid _, _, h | .emptyTuple, _, h | .nil, _, h
  | .emptyBinary, _, h | .emptyMap, _, h | .tuple .., _, h | .binary .., _, h
  | .boxed .., _, h => by
      obtain ⟨_, _, _, h⟩ := h
      cases h

/-! ## Writing with enough room -/

section Writing

variable {written : List UInt8}

theorem writeByte_of_room (hroom : written.length < size) (b : UInt8) :
    writeByte debug size b written = .ok ((), written ++ [b]) :=
  if_pos hroom

/-- The bytes of a binary of whole bytes, whichever reader it has. -/
theorem readByte_of_lt {b : TBinary} (hb : b.WellFormed) {i : Nat} (hi : i < b.bitSize / 8) :
    readByte b.reader i = .ok (b.bitReader.read i) := by
  rw [TBinary.reader]
  cases hdata : b.byteReader with
  | none => rfl
  | some data =>
      obtain ⟨haligned, hsize, hprefix⟩ := TBinary.byteReader_eq_some hb hdata
      have hlt : i < data.length := by omega
      have hread : b.bitReader.data[b.bitReader.offset / 8 + i]? = some data[i] := by
        obtain ⟨rest, hrest⟩ := hprefix
        rw [← List.getElem?_drop, ← hrest, List.getElem?_append_left hlt,
          List.getElem?_eq_getElem hlt]
      have hix : (b.bitReader.offset + i * 8) / 8 = b.bitReader.offset / 8 + i := by omega
      have hshift : (b.bitReader.offset + i * 8) % 8 = 0 := by omega
      rw [readByte, DataReader.read, List.getElem?_eq_getElem hlt, BitReader.read, hix, hshift,
        hread]
      rfl

theorem forM_write {reader : DataReader} {f : Nat → UInt8} (is : List Nat)
    (hread : ∀ i ∈ is, readByte reader i = .ok (f i))
    (hroom : written.length + is.length ≤ size) :
    (is.forM fun i => do writeByte debug size (← readByte reader i) : Writing Unit) written =
      .ok ((), written ++ is.map f) := by
  induction is generalizing written with
  | nil =>
      rw [List.map_nil, List.append_nil]
      rfl
  | cons i is ih =>
      rw [List.length_cons] at hroom
      have hfirst : (do writeByte debug size (← readByte reader i) : Writing Unit) written =
          .ok ((), written ++ [f i]) := by
        rw [hread i List.mem_cons_self]
        exact writeByte_of_room (by omega) _
      have hrest := @ih (written ++ [f i]) (fun j hj => hread j (List.mem_cons_of_mem i hj))
        (by simp; omega)
      change ((do writeByte debug size (← readByte reader i) : Writing Unit) >>= fun _ =>
        is.forM fun i => do writeByte debug size (← readByte reader i)) written = _
      rw [bind_eq_of_ok hfirst, hrest, List.map_cons, List.append_assoc]
      rfl

/-- What is written behind the bytes that are there. -/
def appended (written : List UInt8) (bytes : Except NativeErr (List UInt8)) :
    Except NativeErr (Unit × List UInt8) :=
  bytes.map fun bs => ((), written ++ bs)

theorem writeBinary_eq {data : TBinary} (hdata : data.WellFormed)
    (hroom : written.length + byteSizeRoundedUp data.bitSize ≤ size) :
    writeBinary debug size data written =
      if 8 ∣ data.bitSize then
        .ok ((), written ++ (List.range (data.bitSize / 8)).map data.bitReader.read)
      else .error .badarg := by
  have hbits : lastByteBits data.bitSize = data.bitSize % 8 := rfl
  have hbytes : byteSizeRoundedDown data.bitSize = data.bitSize / 8 := rfl
  have hup : byteSizeRoundedUp data.bitSize = (data.bitSize + 8 - 1) / 8 := rfl
  rw [writeBinary, hbits, hbytes]
  by_cases hdvd : 8 ∣ data.bitSize
  · rw [if_pos hdvd, if_neg (by omega)]
    exact forM_write (List.range (data.bitSize / 8))
      (fun i hi => readByte_of_lt hdata (List.mem_range.mp hi)) (by simp; omega)
  · rw [if_neg hdvd, if_pos (by omega)]
    rfl

theorem writePiece_eq {p : Piece} (hroom : written.length + p.count ≤ size) :
    writePiece debug size p written = appended written (p.bytes debug) := by
  cases p with
  | element t =>
      cases t with
      | small value =>
          have hlt : written.length < size := hroom
          rw [writePiece, Piece.bytes]
          cases hbyte : smallByte debug value with
          | error e => rfl
          | ok b => exact writeByte_of_room hlt b
      | emptyBinary =>
          rw [writePiece, Piece.bytes, appended, Except.map, List.append_nil]
          rfl
      | binary addr data =>
          rw [writePiece, Piece.bytes, writeBinary_eq data.property hroom]
          split
          next => rfl
          next => rfl
      | _ => rfl
  | last t =>
      rw [writePiece, Piece.bytes, appended, Except.map, List.append_nil]
      rfl

theorem Piece.length_bytes {p : Piece} {bs : List UInt8} (h : p.bytes debug = .ok bs) :
    bs.length = p.count := by
  cases p with
  | element t =>
      cases t with
      | small value =>
          rw [Piece.bytes] at h
          obtain ⟨b, -, hb⟩ := except_bind_eq_ok_iff.mp h
          cases hb
          rfl
      | emptyBinary =>
          cases h
          rfl
      | binary addr data =>
          rw [Piece.bytes] at h
          split at h
          next hdvd =>
            cases h
            rw [List.length_map, List.length_range, Piece.count, byteSizeRoundedUp]
            omega
          next => cases h
      | _ => cases h
  | last t =>
      cases h
      rfl

theorem length_bytes {ps : List Piece} {bs : List UInt8} (h : bytes debug ps = .ok bs) :
    bs.length = count ps := by
  induction ps generalizing bs with
  | nil =>
      cases h
      rfl
  | cons p ps ih =>
      obtain ⟨first, hfirst, h⟩ := except_bind_eq_ok_iff.mp h
      obtain ⟨rest, hrest, h⟩ := except_bind_eq_ok_iff.mp h
      cases h
      rw [List.length_append, Piece.length_bytes hfirst, ih hrest, count_cons]

/-- With room for the bytes that were counted, the second pass writes them. -/
theorem writePieces_eq {ps : List Piece} (hroom : written.length + count ps ≤ size) :
    writePieces debug size ps written = appended written (bytes debug ps) := by
  induction ps generalizing written with
  | nil =>
      rw [bytes, appended, Except.map, List.append_nil]
      rfl
  | cons p ps ih =>
      rw [count_cons] at hroom
      have hfirst : writePiece debug size p written = appended written (p.bytes debug) :=
        writePiece_eq (by omega)
      rw [writePieces, bytes]
      cases hbytes : p.bytes debug with
      | error e =>
          rw [hbytes] at hfirst
          rw [bind_eq_of_error hfirst]
          rfl
      | ok first =>
          rw [hbytes] at hfirst
          have hlength := Piece.length_bytes hbytes
          rw [bind_eq_of_ok hfirst, ih (by rw [List.length_append]; omega)]
          cases hrest : bytes debug ps with
          | error e => rfl
          | ok rest =>
              simp only [appended, Except.map, List.append_assoc]
              rfl

end Writing

/-! ## What is written against what should be -/

section Pieces

variable {p : Piece} {ps : List Piece} {bs : List Bool}

/-- The bytes of a binary are its bits. -/
theorem bits_read {b : TBinary} (hb : b.WellFormed) (hdvd : 8 ∣ b.bitSize) :
    BitString.bits ((List.range (b.bitSize / 8)).map b.bitReader.read) = b.bits := by
  refine List.ext_getElem? fun i => ?_
  rw [getElem?_bits, List.getElem?_map]
  by_cases hi : i < b.bitSize
  · have hplace : i = 0 + 8 * (i / 8) + i % 8 := by omega
    have hbit : b.bits[0 + 8 * (i / 8) + i % 8]? =
        some (byteBit ((b.bitReader.addBitOffset 0).read (i / 8)) (i % 8)) :=
      TBinary.getElem?_bits_of_lt hb (by omega) (by omega)
    rw [← hplace] at hbit
    rw [List.getElem?_range (by omega), hbit]
    rfl
  · rw [List.getElem?_eq_none (by rw [List.length_range]; omega),
      List.getElem?_eq_none (by rw [TBinary.length_bits hb]; omega)]
    rfl

/-- A piece has as many bits as are counted, and what a list ends with has some more. -/
theorem Piece.length_bits (h : p.bits = some bs) :
    8 * p.count ≤ bs.length ∧ (bs.length = 8 * p.count ↔ p.EndsEmpty) := by
  have hup (n : Nat) : byteSizeRoundedUp n = (n + 8 - 1) / 8 := rfl
  cases p with
  | element t =>
      suffices hlength : bs.length = 8 * (Piece.element t).count from
        ⟨hlength.ge, iff_of_true hlength trivial⟩
      cases t with
      | small value =>
          dsimp only [Piece.bits, ioBits] at h
          split at h
          next =>
            cases h
            exact length_intBits value 8
          next => cases h
      | binary addr data =>
          dsimp only [Piece.bits, ioBits] at h
          split at h
          next hdvd =>
            cases h
            rw [TBinary.length_bits data.property, Piece.count, hup]
            omega
          next => cases h
      | nil | emptyBinary =>
          cases h
          rfl
      | _ => cases h
  | last t =>
      cases t with
      | nil =>
          cases h
          exact ⟨Nat.le_refl 0, iff_of_true rfl (.inl rfl)⟩
      | emptyBinary =>
          cases h
          exact ⟨Nat.le_refl 0, iff_of_true rfl (.inr rfl)⟩
      | binary addr data =>
          dsimp only [Piece.bits, ioBits] at h
          split at h
          next =>
            cases h
            have hpos := TBinary.bitSize_pos data.property
            have hlength := TBinary.length_bits data.property
            refine ⟨Nat.zero_le _, iff_of_false ?_ ?_⟩
            · rw [hlength]
              exact Nat.ne_of_gt hpos
            · rintro (hnil | hempty)
              · cases hnil
              · cases hempty
          next => cases h
      | small value =>
          dsimp only [Piece.bits, ioBits] at h
          rw [if_neg (by simp)] at h
          cases h
      | _ => cases h

/-- But for the empty list, the second pass writes the pieces of an iolist. -/
theorem Piece.bytes_of_bits (debug : Bool) (h : p.bits = some bs) (hnil : p ≠ .element .nil) :
    ∃ written, p.bytes debug = .ok written ∧ (p.EndsEmpty → BitString.bits written = bs) := by
  cases p with
  | element t =>
      cases t with
      | small value =>
          dsimp only [Piece.bits, ioBits] at h
          split at h
          next hrange =>
            obtain ⟨-, hlow, hhigh⟩ := hrange
            cases h
            have hbyte : smallByte debug value = .ok (lowByte value) := by
              rw [smallByte, getSmallUnsigned, if_neg (by omega)]
              refine congrArg Except.ok (UInt8.toNat_inj.mp ?_)
              rw [toNat_lowByte, Nat.toUInt8, UInt8.toNat_ofNat']
              omega
            rw [Piece.bytes, hbyte]
            refine ⟨[lowByte value], rfl, fun _ => ?_⟩
            rw [bits_cons, bits_nil, List.append_nil, byteBits_lowByte]
          next => cases h
      | binary addr data =>
          dsimp only [Piece.bits, ioBits] at h
          split at h
          next hdvd =>
            cases h
            rw [Piece.bytes, if_pos hdvd]
            exact ⟨_, rfl, fun _ => bits_read data.property hdvd⟩
          next => cases h
      | emptyBinary =>
          cases h
          exact ⟨[], rfl, fun _ => rfl⟩
      | nil => exact absurd rfl hnil
      | _ => cases h
  | last t =>
      refine ⟨[], rfl, ?_⟩
      rintro (rfl | rfl)
      · cases h
        rfl
      · cases h
        rfl

theorem length_pieceBits (h : pieceBits ps = some bs) :
    8 * count ps ≤ bs.length ∧ (bs.length = 8 * count ps ↔ ∀ p ∈ ps, p.EndsEmpty) := by
  induction ps generalizing bs with
  | nil =>
      cases h
      exact ⟨Nat.le_refl 0, iff_of_true rfl fun p hp => absurd hp List.not_mem_nil⟩
  | cons p ps ih =>
      obtain ⟨first, hfirst, h⟩ := Option.bind_eq_some_iff.mp h
      obtain ⟨rest, hrest, h⟩ := Option.bind_eq_some_iff.mp h
      cases h
      obtain ⟨hle, hiff⟩ := Piece.length_bits hfirst
      obtain ⟨hle', hiff'⟩ := ih hrest
      rw [List.forall_mem_cons, ← hiff, ← hiff', List.length_append, count_cons]
      omega

theorem bytes_of_pieceBits (debug : Bool) (h : pieceBits ps = some bs)
    (hnil : ∀ p ∈ ps, p ≠ .element .nil) :
    ∃ written, bytes debug ps = .ok written ∧
      ((∀ p ∈ ps, p.EndsEmpty) → BitString.bits written = bs) := by
  induction ps generalizing bs with
  | nil =>
      cases h
      exact ⟨[], rfl, fun _ => rfl⟩
  | cons p ps ih =>
      obtain ⟨first, hfirst, h⟩ := Option.bind_eq_some_iff.mp h
      obtain ⟨rest, hrest, h⟩ := Option.bind_eq_some_iff.mp h
      cases h
      obtain ⟨hnilFirst, hnilRest⟩ := List.forall_mem_cons.mp hnil
      obtain ⟨written, hwritten, hbits⟩ := Piece.bytes_of_bits debug hfirst hnilFirst
      obtain ⟨written', hwritten', hbits'⟩ := ih hrest hnilRest
      refine ⟨written ++ written', ?_, fun hends => ?_⟩
      · rw [bytes, hwritten, hwritten']
        rfl
      · obtain ⟨hend, hends⟩ := List.forall_mem_cons.mp hends
        rw [bits_append, hbits hend, hbits' hends]

/-- An empty list among the elements is refused. -/
theorem bytes_of_nil (h : pieceBits ps = some bs) (hnil : Piece.element .nil ∈ ps) :
    bytes debug ps = .error .badarg := by
  induction ps generalizing bs with
  | nil => exact absurd hnil List.not_mem_nil
  | cons p ps ih =>
      obtain ⟨first, hfirst, h⟩ := Option.bind_eq_some_iff.mp h
      obtain ⟨rest, hrest, h⟩ := Option.bind_eq_some_iff.mp h
      rw [bytes]
      by_cases hp : p = .element .nil
      · rw [hp]
        rfl
      · obtain ⟨written, hwritten, -⟩ := Piece.bytes_of_bits debug hfirst hp
        have htail := ih hrest ((List.mem_cons.mp hnil).resolve_left (Ne.symm hp))
        rw [hwritten, htail]
        rfl

theorem Piece.bytes_of_refused (h : p.Refused) : p.bytes debug = .error .badarg := by
  cases p with
  | element t =>
      cases t with
      | small value => exact h.elim
      | emptyBinary => exact h.elim
      | binary addr data => exact if_neg h
      | _ => rfl
  | last t => exact h.elim

theorem Piece.bytes_of_negative (h : p.Negative) :
    p.bytes true = .error (.panic .assertion) := by
  cases p with
  | element t =>
      cases t with
      | small value =>
          have hneg : value < 0 := h
          rw [Piece.bytes, smallByte, getSmallUnsigned, if_pos ⟨rfl, hneg⟩]
          rfl
      | _ => exact h.elim
  | last t => exact h.elim

theorem Piece.bytes_of_not (hrefused : ¬ p.Refused) (hneg : debug = true → ¬ p.Negative) :
    ∃ written, p.bytes debug = .ok written := by
  cases p with
  | element t =>
      cases t with
      | small value =>
          have hpos : ¬ (debug = true ∧ value < 0) := fun h => hneg h.1 h.2
          rw [Piece.bytes, smallByte, getSmallUnsigned, if_neg hpos]
          exact ⟨_, rfl⟩
      | emptyBinary => exact ⟨_, rfl⟩
      | binary addr data => exact ⟨_, if_pos (not_not.mp hrefused)⟩
      | _ => exact absurd trivial hrefused
  | last t => exact ⟨_, rfl⟩

theorem refusedFirst_cons :
    RefusedFirst debug (p :: ps) ↔
      p.Refused ∨ (debug = true → ¬ p.Negative) ∧ RefusedFirst debug ps := by
  constructor
  · rintro ⟨before, q, after, hsplit, hrefused, hbefore⟩
    cases before with
    | nil =>
        cases hsplit
        exact .inl hrefused
    | cons first before =>
        cases hsplit
        refine .inr ⟨fun hdebug => hbefore hdebug p List.mem_cons_self,
          before, q, after, rfl, hrefused, fun hdebug r hr => ?_⟩
        exact hbefore hdebug r (List.mem_cons_of_mem p hr)
  · rintro (hrefused | ⟨hfirst, before, q, after, rfl, hrefused, hbefore⟩)
    · exact ⟨[], p, ps, rfl, hrefused, fun _ r hr => absurd hr List.not_mem_nil⟩
    · refine ⟨p :: before, q, after, rfl, hrefused, fun hdebug => ?_⟩
      exact List.forall_mem_cons.mpr ⟨hfirst hdebug, hbefore hdebug⟩

theorem bytes_eq_badarg_iff : bytes debug ps = .error .badarg ↔ RefusedFirst debug ps := by
  induction ps with
  | nil =>
      refine iff_of_false nofun ?_
      rintro ⟨before, p, after, hsplit, -⟩
      exact absurd hsplit (by simp)
  | cons p ps ih =>
      rw [refusedFirst_cons, ← ih, bytes]
      by_cases hrefused : p.Refused
      · rw [Piece.bytes_of_refused hrefused]
        exact iff_of_true rfl (.inl hrefused)
      · by_cases hneg : debug = true → ¬ p.Negative
        · obtain ⟨written, hwritten⟩ := Piece.bytes_of_not hrefused hneg
          rw [hwritten, or_iff_right hrefused, and_iff_right hneg]
          cases bytes debug ps with
          | error e => exact Iff.rfl
          | ok rest => exact iff_of_false nofun nofun
        · obtain ⟨rfl, hnegative⟩ : debug = true ∧ p.Negative := by
            simpa using hneg
          rw [Piece.bytes_of_negative hnegative]
          exact iff_of_false nofun (not_or.mpr ⟨hrefused, fun h => hneg h.1⟩)

end Pieces

/-! ## The function -/

section Function

variable {list : Term} {memory : Nat → UInt8} {heap : Emulator.ProcessHeap}

theorem ioBits_of_isList (h : isList list = true) (atEnd : Bool) :
    ioBits atEnd list = pieceBits (pieces list) := by
  cases list with
  | nil => rfl
  | cons => exact ioBits_eq_pieceBits _ _ ⟨_, _, _, rfl⟩
  | _ => cases h

theorem isIolist_iff (h : isList list = true) {bs : List Bool} :
    IsIolist list bs ↔ pieceBits (pieces list) = some bs := by
  rw [IsIolist, and_iff_right h, ioBits_of_isList h]

theorem createInto_of_room {n : Nat} (hpos : n ≠ 0) (hroom : Room heap n) :
    ∃ heap', createInto (8 * n) heap = .ok ((), heap') := by
  obtain ⟨hn, hheap⟩ := hroom
  have hup : byteSizeRoundedUp (8 * n) = n := by
    rw [byteSizeRoundedUp]
    omega
  have hdown : byteSizeRoundedDown (8 * n) = n := by
    rw [byteSizeRoundedDown]
    omega
  obtain ⟨q, heap', halloc⟩ := native_alloc_of_room hheap
  refine ⟨heap', ?_⟩
  rw [createInto, if_neg (by omega), hup, if_neg (by omega), hdown]
  change (Native.alloc (heap.boxHeader + 3 + (n + 7) / 8) >>= fun _ => pure ()) heap = _
  rw [bind_eq_of_ok halloc]
  rfl

theorem createInto_of_not_room {n : Nat} (hroom : ¬ Room heap n) (hpos : n ≠ 0) :
    ∃ p, createInto (8 * n) heap = .error (.panic p) := by
  have hup : byteSizeRoundedUp (8 * n) = n := by
    rw [byteSizeRoundedUp]
    omega
  have hdown : byteSizeRoundedDown (8 * n) = n := by
    rw [byteSizeRoundedDown]
    omega
  rw [createInto, if_neg (by omega), hup]
  by_cases hn : n ≤ 64
  · have hfull : heap.stackTop ≤ heap.heapTop + (heap.boxHeader + 3 + (n + 7) / 8) := by
      by_contra hless
      exact hroom ⟨hn, by omega⟩
    refine ⟨.heapIsFull, ?_⟩
    rw [if_neg (by omega), hdown]
    change (Native.alloc (heap.boxHeader + 3 + (n + 7) / 8) >>= fun _ => pure ()) heap = _
    rw [bind_eq_of_error (native_alloc_of_full hfull)]
  · refine ⟨.unimplemented "create binary on the binary heap", ?_⟩
    rw [if_pos (by omega)]
    rfl

theorem listToBinary1_of_not_list (h : isList list = false) :
    listToBinary1 debug memory list heap = .error .badarg := by
  rw [listToBinary1, h]
  rfl

theorem listToBinary1_of_zero (h : isList list = true) (hzero : count (pieces list) = 0) :
    listToBinary1 debug memory list heap = .ok (.empty, heap) := by
  rw [listToBinary1, h, getIolistSize_eq_count, hzero]
  rfl

theorem listToBinary1_of_not_room (debug : Bool) (memory : Nat → UInt8)
    (h : isList list = true) (hpos : count (pieces list) ≠ 0)
    (hroom : ¬ Room heap (count (pieces list))) :
    ∃ p, listToBinary1 debug memory list heap = .error (.panic p) := by
  obtain ⟨p, hcreate⟩ := createInto_of_not_room hroom hpos
  refine ⟨p, ?_⟩
  rw [listToBinary1, h, getIolistSize_eq_count]
  simp only [Bool.not_true, Bool.false_eq_true, if_false, hpos]
  exact bind_eq_of_error hcreate

theorem listToBinary1_of_room (debug : Bool) (memory : Nat → UInt8)
    (h : isList list = true) (hpos : count (pieces list) ≠ 0)
    (hroom : Room heap (count (pieces list))) :
    ∃ heap', listToBinary1 debug memory list heap =
      (bytes debug (pieces list)).map fun written =>
        (.boxed (.processHeap (8 * count (pieces list)) written), heap') := by
  obtain ⟨heap', hcreate⟩ := createInto_of_room hpos hroom
  refine ⟨heap', ?_⟩
  have hwrite : writePieces debug (count (pieces list)) (pieces list) [] =
      appended [] (bytes debug (pieces list)) := writePieces_eq (by simp)
  rw [listToBinary1, h, getIolistSize_eq_count]
  simp only [Bool.not_true, Bool.false_eq_true, if_false, hpos]
  refine (bind_eq_of_ok hcreate).trans ?_
  rw [listToBinary1Recursive_eq_writePieces, hwrite]
  cases hbytes : bytes debug (pieces list) with
  | error e => rfl
  | ok written =>
      have hnone : (List.range (count (pieces list))).drop written.length = [] := by
        rw [length_bytes hbytes, List.drop_eq_nil_of_le (by simp)]
      change Except.ok (BinaryTerm.boxed (.processHeap (8 * count (pieces list)) (written ++
        ((List.range (count (pieces list))).drop written.length).map _)), heap') = _
      rw [hnone, List.map_nil, List.append_nil]
      rfl

theorem bits_processHeap {n : Nat} {written : List UInt8} (h : written.length = n) :
    (BinaryTerm.boxed (.processHeap (8 * n) written)).bits = BitString.bits written := by
  rw [BinaryTerm.bits, TBinary.bits, List.take_of_length_le]
  rw [BitString.length_bits, h]

/-- As many bytes are written as were counted, whatever the elements are. -/
theorem length_written {written : List UInt8}
    (h : listToBinary1Recursive debug (getIolistSize list) list [] = .ok ((), written)) :
    written.length = getIolistSize list := by
  rw [listToBinary1Recursive_eq_writePieces, getIolistSize_eq_count,
    writePieces_eq (by simp)] at h
  rw [getIolistSize_eq_count]
  cases hbytes : bytes debug (pieces list) with
  | error e =>
      rw [hbytes] at h
      cases h
  | ok bs =>
      rw [hbytes] at h
      cases h
      exact length_bytes hbytes

/-- An iolist is returned as a binary of its bits. -/
theorem returns_iff (debug : Bool) (memory : Nat → UInt8) {bs : List Bool} (h : isList list = true)
    (hbs : pieceBits (pieces list) = some bs) :
    (∃ result heap', listToBinary1 debug memory list heap = .ok (result, heap') ∧
      result.bits = bs ∧ 8 * getIolistSize list = bs.length) ↔
      (∀ p ∈ pieces list, p.EndsEmpty) ∧ (count (pieces list) = 0 ∨
        (∀ p ∈ pieces list, p ≠ .element .nil) ∧ Room heap (count (pieces list))) := by
  obtain ⟨-, hends⟩ := length_pieceBits hbs
  rw [getIolistSize_eq_count]
  constructor
  · rintro ⟨result, heap', hrun, -, hsize⟩
    refine ⟨hends.mp hsize.symm, or_iff_not_imp_left.mpr fun hpos => ?_⟩
    have hroom : Room heap (count (pieces list)) := by
      by_contra hroom
      obtain ⟨p, hpanic⟩ := listToBinary1_of_not_room debug memory h hpos
        hroom
      rw [hpanic] at hrun
      cases hrun
    refine ⟨fun p hp hnil => ?_, hroom⟩
    obtain ⟨heap'', hwrite⟩ := listToBinary1_of_room debug memory h hpos
      hroom
    rw [hwrite, bytes_of_nil hbs (hnil ▸ hp)] at hrun
    cases hrun
  · rintro ⟨hempty, hcases⟩
    have hlength := hends.mpr hempty
    by_cases hzero : count (pieces list) = 0
    · refine ⟨.empty, heap, listToBinary1_of_zero h hzero, ?_, hlength.symm⟩
      rw [hzero] at hlength
      exact (List.eq_nil_of_length_eq_zero hlength).symm
    · obtain ⟨hnil, hroom⟩ := hcases.resolve_left hzero
      obtain ⟨written, hbytes, hbits⟩ := bytes_of_pieceBits debug hbs hnil
      obtain ⟨heap', hwrite⟩ := listToBinary1_of_room debug memory h hzero
        hroom
      rw [hbytes] at hwrite
      refine ⟨_, heap', hwrite, ?_, hlength.symm⟩
      rw [bits_processHeap (length_bytes hbytes), hbits hempty]

theorem refuses_iff (debug : Bool) (memory : Nat → UInt8) (h : isList list = true) :
    listToBinary1 debug memory list heap = .error .badarg ↔
      count (pieces list) ≠ 0 ∧ Room heap (count (pieces list)) ∧
        RefusedFirst debug (pieces list) := by
  by_cases hzero : count (pieces list) = 0
  · rw [listToBinary1_of_zero h hzero]
    exact iff_of_false nofun fun hrefuse => hrefuse.1 hzero
  · by_cases hroom : Room heap (count (pieces list))
    · obtain ⟨heap', hwrite⟩ := listToBinary1_of_room debug memory h hzero
        hroom
      rw [hwrite, ← bytes_eq_badarg_iff, and_iff_right hzero, and_iff_right hroom]
      cases bytes debug (pieces list) with
      | error e => simp [Except.map]
      | ok written => exact iff_of_false nofun nofun
    · obtain ⟨p, hpanic⟩ := listToBinary1_of_not_room debug memory h hzero
        hroom
      rw [hpanic]
      exact iff_of_false nofun fun hrefuse => hroom hrefuse.2.1

end Function

end Passes

section Instance

private def roomyHeap : Emulator.ProcessHeap where
  base := 0
  boxHeader := 2
  heapTop := 0
  stackTop := 20
  capacity := 20
  heapTop_le := by decide
  stackTop_le := by decide

/-- The empty list, and a byte. -/
private def nilAndByte : Term := .cons 0 .nil (.cons 2 (.small 1) .nil)

end Instance

end Iolist

end Zeptobeam
