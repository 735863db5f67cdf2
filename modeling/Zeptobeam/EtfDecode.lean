/-
The decoder on an encoding: it reads exactly the encoding's bytes and builds what the
encoding stands for, or panics where something does not fit.
-/
import Zeptobeam.EtfBuild
import Zeptobeam.EtfParse
import Zeptobeam.LoadingRules
import Zeptobeam.TermFuel

namespace Zeptobeam

open Fuelled ExtTermFormat Loading BinaryReader

/-! ## The heap after a term -/

/-- The heap after so many more words were allotted. -/
structure Heap.Grown (nWords : Nat) (heap heap' : Heap) : Prop where
  boxHeader : heap'.boxHeader = heap.boxHeader
  stackTop : heap'.stackTop = heap.stackTop
  heapTop : heap'.heapTop = heap.heapTop + nWords

namespace Heap.Grown

theorem refl (heap : Heap) : Grown 0 heap heap :=
  ⟨rfl, rfl, rfl⟩

theorem allotted (nWords : Nat) (heap : Heap) : Grown nWords heap (heap.allotted nWords) :=
  ⟨rfl, rfl, rfl⟩

theorem trans {m n : Nat} {heap heap' heap'' : Heap} (h : Grown m heap heap')
    (h' : Grown n heap' heap'') : Grown (m + n) heap heap'' :=
  ⟨h'.boxHeader.trans h.boxHeader, h'.stackTop.trans h.stackTop, by
    rw [h'.heapTop, h.heapTop, Nat.add_assoc]⟩

theorem reaching {n : Nat} {heap heap' : Heap} (h : Grown n heap heap') (nWords : Nat) :
    Grown n heap (heap'.reaching nWords) :=
  ⟨h.boxHeader, h.stackTop, h.heapTop⟩

theorem past {n : Nat} {heap heap' : Heap} (h : Grown n heap heap') (objectEnd : Nat) :
    Grown n heap (heap'.past objectEnd) := by
  unfold Heap.past
  split
  next => exact h.reaching 1
  next => exact ⟨h.boxHeader, h.stackTop, h.heapTop⟩

end Heap.Grown

namespace Etf

theorem foldl_allotted_grown (bytes : List UInt8) (heap : Heap) :
    Heap.Grown (2 * bytes.length) heap
      (bytes.foldl (fun heap _ => heap.allotted 2) heap) := by
  induction bytes generalizing heap with
  | nil => exact .refl heap
  | cons b bytes ih =>
      have h := (Heap.Grown.allotted 2 heap).trans (ih (heap.allotted 2))
      rwa [List.length_cons, Nat.mul_succ, Nat.add_comm]

mutual

theorem after_grown (t : Etf) (heap : Heap) :
    Heap.Grown (words heap.boxHeader t) heap (after t heap) := by
  cases t with
  | smallInteger | integer | atomLatin1 | atomUtf8 | nil | noList => exact .refl heap
  | string bytes => exact foldl_allotted_grown bytes heap
  | list elements tail =>
      have hcells := afterCells_grown elements heap
      have htail := after_grown tail (afterCells elements heap)
      rw [hcells.boxHeader] at htail
      exact hcells.trans htail
  | tuple wide elements =>
      simp only [words, after]
      split
      next => exact .refl heap
      next =>
        exact (Heap.Grown.allotted (heap.boxHeader + elements.length) heap).trans
          (afterAll_grown elements (heap.allotted (heap.boxHeader + elements.length)))
  | binary data =>
      simp only [words, after]
      split
      next => exact .refl heap
      next => exact .allotted _ heap
  | big wide sign digits => exact (Heap.Grown.allotted _ heap).reaching _
  | map pairs =>
      have hfilled := afterAll_grown pairs
        (heap.allotted (FlatMap.storageSize heap.boxHeader (pairs.length / 2)))
      replace hfilled := (Heap.Grown.allotted _ heap).trans hfilled
      simp only [words, after]
      split
      next => exact hfilled.past _
      next => exact hfilled

theorem afterAll_grown (ts : List Etf) (heap : Heap) :
    Heap.Grown (wordsOfAll heap.boxHeader ts) heap (afterAll ts heap) := by
  cases ts with
  | nil => exact .refl heap
  | cons t rest =>
      have hfirst := after_grown t heap
      have hrest := afterAll_grown rest (after t heap)
      rw [hfirst.boxHeader] at hrest
      exact hfirst.trans hrest

theorem afterCells_grown (ts : List Etf) (heap : Heap) :
    Heap.Grown (wordsOfAll heap.boxHeader ts + 2 * ts.length) heap (afterCells ts heap) := by
  cases ts with
  | nil => exact .refl heap
  | cons t rest =>
      have hcell := (after_grown t heap).trans (Heap.Grown.allotted 2 (after t heap))
      have hrest := afterCells_grown rest ((after t heap).allotted 2)
      rw [hcell.boxHeader] at hrest
      have hboth := hcell.trans hrest
      refine ⟨hboth.boxHeader, hboth.stackTop, ?_⟩
      rw [show (afterCells (t :: rest) heap) = afterCells rest ((after t heap).allotted 2)
        from rfl, hboth.heapTop, wordsOfAll, List.length_cons]
      omega

end

end Etf

/-! ## Reads -/

section Reads

variable {α : Type} {heap : Heap} {bytes rest : List UInt8}

/-- A read that takes these bytes and nothing else into account. -/
theorem builds_reading {x : Reading α} {a : α}
    (h : ∀ r : BinaryReader, r.Reads bytes rest → x r = .ok (a, r.advance bytes.length)) :
    Builds (fun _ => reading x) heap bytes rest True a heap := by
  refine ⟨fun _ => ⟨0, fun _ _ s hheap hreads => ?_⟩, fun hnot => absurd trivial hnot⟩
  subst hheap
  simp only [Outcome.Holds, reading, h s.reader hreads]

theorem builds_readU8 (b : UInt8) :
    Builds (fun _ => reading readU8) heap [b] rest True b heap :=
  builds_reading fun _ => readU8_of_reads

theorem builds_readBytes (data : List UInt8) :
    Builds (fun _ => reading (readBytes data.length)) heap data rest True data heap :=
  builds_reading fun _ => readBytes_of_reads

theorem slice_bigEndianBytes {width n : Nat} {r : BinaryReader}
    (hreads : r.Reads (bigEndianBytes width n) rest) :
    slice width r = .ok (bigEndianBytes width n, r.advance width) := by
  have h := slice_of_reads hreads
  rwa [length_bigEndianBytes] at h

theorem builds_readU16be {n : Nat} (hn : n < 2 ^ 16) :
    Builds (fun _ => reading readU16be) heap (bigEndianBytes 2 n) rest True n heap := by
  refine builds_reading fun r hreads => ?_
  rw [readU16be, StateExcept.bind_eq_of_ok (slice_bigEndianBytes hreads),
    bigEndian_bigEndianBytes_of_lt hn, length_bigEndianBytes]
  rfl

theorem builds_readU32be {n : Nat} (hn : n < 2 ^ 32) :
    Builds (fun _ => reading readU32be) heap (bigEndianBytes 4 n) rest True n heap := by
  refine builds_reading fun r hreads => ?_
  rw [readU32be, StateExcept.bind_eq_of_ok (slice_bigEndianBytes hreads),
    bigEndian_bigEndianBytes_of_lt hn, length_bigEndianBytes]
  rfl

theorem builds_size8 {f : Nat → Nat → Loading α} {n : Nat} {more : List UInt8} {fits : Prop}
    {a : α} {heap' : Heap} (hn : n < 2 ^ 8)
    (h : Builds (fun fuel => f fuel n) heap more rest fits a heap') :
    Builds (fun fuel => reading readU8 >>= fun size => f fuel size.toNat) heap
      (bigEndianBytes 1 n ++ more) rest fits a heap' := by
  have hmod : n % 256 = n := Nat.mod_eq_of_lt hn
  have hbytes : bigEndianBytes 1 n = [UInt8.ofNat n] := by
    simp [bigEndianBytes, hmod]
  rw [hbytes]
  refine (builds_readU8 _).then ?_
  rwa [UInt8.toNat_ofNat_of_lt' hn]

end Reads

/-! ## What is allotted and written -/

section Heap

variable {heap : Heap} {rest : List UInt8}

theorem builds_alloc (nWords : Nat) :
    Builds (fun _ => Heap.alloc nWords) heap [] rest (heap.heapTop + nWords < heap.stackTop) ()
      (heap.allotted nWords) := by
  refine ⟨fun hfits => ⟨0, fun _ _ s hheap _ => ?_⟩,
    fun hfits => ⟨0, fun _ _ s hheap _ => ⟨.heapIsFull, ?_⟩⟩⟩
  · subst hheap
    exact if_neg (Nat.not_le.mpr hfits)
  · subst hheap
    exact if_pos (Nat.not_lt.mp hfits)

theorem builds_allocate (nWords : Nat) :
    Builds (fun _ => allocate nWords) heap [] rest (heap.heapTop + nWords < heap.stackTop)
      heap.heapTop (heap.allotted nWords) := by
  have halloc : Builds (fun _ => Heap.alloc nWords >>= fun _ => pure heap.heapTop) heap [] rest
      _ _ _ := (builds_alloc nWords).making fun _ => rfl
  refine halloc.get_bind fun _ s hs => ?_
  rw [hs]

theorem builds_writeBehind (nWords : Nat) :
    Builds (fun _ => Heap.writeBehind nWords) heap [] rest
      (heap.heapTop + nWords ≤ heap.stackTop) () (heap.reaching nWords) := by
  refine ⟨fun hfits => ⟨0, fun _ _ s hheap _ => ?_⟩,
    fun hfits => ⟨0, fun _ _ s hheap _ => ⟨.outsideAllocation, ?_⟩⟩⟩
  · subst hheap
    exact if_neg (Nat.not_lt.mpr hfits)
  · subst hheap
    exact if_pos (Nat.not_le.mp hfits)

theorem builds_writePast (objectEnd : Nat) (hroom : objectEnd < heap.stackTop) :
    Builds (fun _ => writePast objectEnd) heap [] rest True () (heap.past objectEnd) := by
  refine ⟨fun _ => ⟨0, fun _ _ s hheap _ => ?_⟩, fun hnot => absurd trivial hnot⟩
  subst hheap
  by_cases hend : s.heap.heapTop = objectEnd
  · have hbehind : Heap.writeBehind 1 s = .ok ((), { s with heap := s.heap.reaching 1 }) :=
      if_neg (by omega)
    simp only [Outcome.Holds, writePast, Heap.past, hend, ↓reduceIte, hbehind]
    rfl
  · simp only [Outcome.Holds, writePast, Heap.past, hend, ↓reduceIte]
    rfl

theorem builds_fromStr (name : String) :
    Builds (fun _ => fromStr name) heap [] rest ((nameBytes name).length ≤ 65535)
      (.atom name) heap := by
  refine ⟨fun hfits => ⟨0, fun _ _ s hheap _ => ?_⟩,
    fun hfits => ⟨0, fun _ _ s hheap _ => ⟨.assertion, ?_⟩⟩⟩
  · subst hheap
    simp only [Outcome.Holds, fromStr, if_neg (Nat.not_lt.mpr hfits)]
    rfl
  · simp only [fromStr, if_pos (Nat.not_le.mp hfits)]
    rfl

end Heap

/-! ## The decoders of the tags -/

section Tags

variable {heap : Heap} {rest : List UInt8}

theorem builds_decodeU8 (value : UInt8) :
    Builds (fun _ => decodeU8) heap [value] rest True (.small value.toNat) heap :=
  (builds_readU8 value).making fun _ => rfl

theorem builds_decodeS32 {value : Int} (hlow : -2 ^ 31 ≤ value) (hhigh : value < 2 ^ 31) :
    Builds (fun _ => decodeS32) heap (bigEndianBytes 4 (value % 2 ^ 32).toNat) rest True
      (.small value) heap := by
  have hvalue : Int.bmod ((value % 2 ^ 32).toNat : Int) (2 ^ 32) = value := by
    rw [Int.bmod_def]
    omega
  refine (builds_readU32be (by omega)).making fun _ => ?_
  rw [hvalue]

theorem builds_decodeAtomLatin1 {name : List UInt8} (hsize : name.length < 2 ^ 16) :
    Builds (fun _ => decodeAtomLatin1) heap (bigEndianBytes 2 name.length ++ name) rest
      ((nameBytes (latin1Text name)).length ≤ 65535) (.atom (latin1Text name)) heap := by
  refine (builds_readU16be hsize).then ?_
  have hread : Builds (fun _ => reading (unwrap (readStrLatin1 name.length))) heap name rest
      True (latin1Text name) heap := by
    refine builds_reading fun r hreads => ?_
    have hstr : readStrLatin1 name.length r = .ok (latin1Text name, r.advance name.length) :=
      StateExcept.bind_eq_of_ok (readBytes_of_reads hreads)
    simp only [unwrap, hstr]
  exact (hread.bind_nil fun _ => builds_fromStr _).iff (iff_of_eq (true_and _))

theorem readStrUtf8_of_reads {name : String} {r : BinaryReader}
    (hreads : r.Reads (nameBytes name) rest) :
    readStrUtf8 (nameBytes name).length r
      = .ok (name, r.advance (nameBytes name).length) := by
  have hname := nameBytes_of_decode (LineFile.decode_encode name.toList)
  rw [String.ofList_toList] at hname
  rw [readStrUtf8, StateExcept.bind_eq_of_ok (readBytes_of_reads hreads)]
  simp only [hname, LineFile.decode_encode, String.ofList_toList]
  rfl

theorem builds_mapReadErr (what : String) {name : String} :
    Builds (fun _ => mapReadErr what (readStrUtf8 (nameBytes name).length)) heap
      (nameBytes name) rest True name heap := by
  refine ⟨fun _ => ⟨0, fun _ _ s hheap hreads => ?_⟩, fun hnot => absurd trivial hnot⟩
  subst hheap
  simp only [Outcome.Holds, mapReadErr, reading, readStrUtf8_of_reads hreads]

theorem builds_decodeAtomUtf8 {name : String} (hsize : (nameBytes name).length < 2 ^ 16) :
    Builds (fun _ => decodeAtomUtf8) heap
      (bigEndianBytes 2 (nameBytes name).length ++ nameBytes name) rest True (.atom name)
      heap := by
  refine (builds_readU16be hsize).then ?_
  exact ((builds_mapReadErr "AtomUtf8").bind_nil fun _ => builds_fromStr name).iff
    (iff_of_true ⟨trivial, by omega⟩ trivial)

theorem builds_decodeSmallAtomUtf8 {name : String}
    (hsize : (nameBytes name).length < 2 ^ 8) :
    Builds (fun _ => decodeSmallAtomUtf8) heap
      (bigEndianBytes 1 (nameBytes name).length ++ nameBytes name) rest True (.atom name)
      heap := by
  refine builds_size8 (f := fun _ size =>
    mapReadErr "SmallAtomUtf8" (readStrUtf8 size) >>= fromStr) hsize ?_
  exact ((builds_mapReadErr "SmallAtomUtf8").bind_nil fun _ => builds_fromStr name).iff
    (iff_of_true ⟨trivial, by omega⟩ trivial)

theorem builds_stringCell (b : UInt8) (heap : Heap) (rest : List UInt8) :
    Builds (fun _ => do
        let elem ← reading readU8
        let addr ← allocate 2
        return (addr, Built.small elem.toNat)) heap [b] rest
      (heap.heapTop + 2 < heap.stackTop) (heap.heapTop, Built.small b.toNat)
      (heap.allotted 2) := by
  refine ((builds_readU8 b).bind_nil fun _ => ?_).iff (iff_of_eq (true_and _))
  exact (builds_allocate 2).making fun _ => rfl

theorem builds_stringCells (bytes : List UInt8) (heap : Heap) :
    Builds (fun _ => times bytes.length do
        let elem ← reading readU8
        let addr ← allocate 2
        return (addr, Built.small elem.toNat)) heap bytes rest
      (bytes.length = 0 ∨ heap.heapTop + 2 * bytes.length < heap.stackTop)
      (cellsFrom heap.heapTop (bytes.map fun b => .small b.toNat))
      (bytes.foldl (fun heap _ => heap.allotted 2) heap) := by
  induction bytes generalizing heap with
  | nil => exact (Builds.pure _ heap rest).iff (iff_of_true trivial (.inl rfl))
  | cons b bytes ih =>
      refine ((builds_stringCell b heap _).bind fun _ =>
        (ih (heap.allotted 2)).making fun _ => ?_).iff ?_
      · rfl
      · simp only [List.length_cons, Heap.allotted]
        omega

theorem builds_decodeString {bytes : List UInt8} (hsize : bytes.length < 2 ^ 16) :
    Builds (fun _ => decodeString) heap (bigEndianBytes 2 bytes.length ++ bytes) rest
      (bytes.length = 0 ∨ heap.heapTop + 2 * bytes.length < heap.stackTop)
      (linkCells (cellsFrom heap.heapTop (bytes.map fun b => .small b.toNat)) .nil)
      (bytes.foldl (fun heap _ => heap.allotted 2) heap) := by
  refine (builds_readU16be hsize).then ?_
  cases bytes with
  | nil => exact (Builds.pure _ heap rest).iff (iff_of_true trivial (.inl rfl))
  | cons b bytes =>
      refine (builds_stringCells (b :: bytes) heap).making fun _ => ?_
      rfl

theorem builds_decodeBinary {data : List UInt8} (hsize : data.length < 2 ^ 32) :
    Builds (fun _ => decodeBinary) heap (bigEndianBytes 4 data.length ++ data) rest
      (data.length = 0 ∨ data.length ≤ onheapThreshold ∧
        heap.heapTop + binaryWords heap.boxHeader data.length < heap.stackTop)
      (if data.length = 0 then .emptyBinary else .binary heap.heapTop data)
      (if data.length = 0 then heap
        else heap.allotted (binaryWords heap.boxHeader data.length)) := by
  refine (builds_readU32be hsize).then ?_
  by_cases hzero : data.length = 0
  · obtain rfl := List.eq_nil_of_length_eq_zero hzero
    exact (Builds.pure _ heap rest).iff (iff_of_true trivial (.inl rfl))
  · simp only [hzero, ↓reduceIte, false_or]
    refine ((builds_readBytes data).bind_nil fun _ => ?_).iff (iff_of_eq (true_and _))
    by_cases hlarge : onheapThreshold < data.length
    · simp only [hlarge, ↓reduceIte]
      exact Builds.panic_bind fun h => absurd h.1 (Nat.not_le.mpr hlarge)
    · simp only [hlarge, ↓reduceIte]
      have halloc : Builds (fun _ => allocate (binaryWords heap.boxHeader data.length)
          >>= fun addr => pure (Built.binary addr data)) heap [] rest _ _ _ :=
        (builds_allocate _).making fun _ => rfl
      refine (halloc.get_bind fun _ s hs => ?_).iff (iff_of_eq (by simp [Nat.not_lt.mp hlarge]))
      rw [hs]

@[simp]
theorem length_wordsOf (n : Nat) (bytes : List UInt8) : (wordsOf n bytes).length = n := by
  induction n generalizing bytes with
  | zero => rfl
  | succ n ih => rw [wordsOf, List.length_cons, ih]

theorem makeLimbsFromBytes_of_le {digits : List UInt8} (h : digits.length % 64 ≤ 8) :
    ∃ limbs, makeLimbsFromBytes .little digits = .ok limbs ∧
      limbs.length = (digits.length + 7) / 8 := by
  simp only [makeLimbsFromBytes, Endianness.default, ne_eq, not_true_eq_false, ↓reduceIte]
  split
  next hleft =>
    rw [if_neg (by omega)]
    exact ⟨_, rfl, by rw [length_wordsOf]; rfl⟩
  next => exact ⟨_, rfl, by rw [length_wordsOf]; rfl⟩

theorem makeLimbsFromBytes_of_lt {digits : List UInt8} (h : 8 < digits.length % 64) :
    makeLimbsFromBytes .little digits = .error .outsideAllocation := by
  simp only [makeLimbsFromBytes, Endianness.default, ne_eq, not_true_eq_false, ↓reduceIte]
  rw [if_pos (by omega), if_pos (by omega)]

theorem builds_createBignum {limbs : List Nat} :
    Builds (fun _ => createBignum limbs) heap [] rest
      (heap.heapTop + (heap.boxHeader + 2) < heap.stackTop ∧
        heap.heapTop + (heap.boxHeader + 2) + (limbs.length - 1) ≤ heap.stackTop)
      () ((heap.allotted (heap.boxHeader + 2)).reaching (limbs.length - 1)) := by
  have hcreate : Builds (fun _ => Heap.alloc (heap.boxHeader + 2) >>= fun _ =>
      if 1 < limbs.length then Heap.writeBehind (limbs.length - 1) else pure ()) heap [] rest
      (heap.heapTop + (heap.boxHeader + 2) < heap.stackTop ∧
        heap.heapTop + (heap.boxHeader + 2) + (limbs.length - 1) ≤ heap.stackTop)
      () ((heap.allotted (heap.boxHeader + 2)).reaching (limbs.length - 1)) := by
    refine (builds_alloc _).bind_nil fun hfits => ?_
    by_cases hmany : 1 < limbs.length
    · simp only [hmany, ↓reduceIte]
      exact builds_writeBehind _
    · have hone : limbs.length - 1 = 0 := by omega
      simp only [hmany, ↓reduceIte, hone]
      exact (Builds.pure () _ rest).iff (iff_of_true trivial (Nat.le_of_lt hfits))
  refine hcreate.get_bind fun _ s hs => ?_
  rw [hs]

theorem builds_decodeBig (sign : UInt8) (digits : List UInt8) :
    Builds (fun _ => decodeBig digits.length) heap (sign :: digits) rest
      (digits.length % 64 ≤ 8 ∧ heap.heapTop + (heap.boxHeader + 2) < heap.stackTop ∧
        heap.heapTop + (heap.boxHeader + 2) + ((digits.length + 7) / 8 - 1) ≤ heap.stackTop)
      (.bignum heap.heapTop (if sign = 0 then .positive else .negative) (limbsOf digits))
      ((heap.allotted (heap.boxHeader + 2)).reaching ((digits.length + 7) / 8 - 1)) := by
  refine (builds_readU8 sign).then ?_
  refine ((builds_readBytes digits).bind_nil fun _ => ?_).iff (iff_of_eq (true_and _))
  by_cases hlength : digits.length % 64 ≤ 8
  · obtain ⟨limbs, hlimbs, hlimbsLength⟩ := makeLimbsFromBytes_of_le hlength
    simp only [limbsOf, hlimbs, ← hlimbsLength]
    have hcreate : Builds (fun _ => createBignum limbs >>= fun _ =>
        pure (Built.bignum heap.heapTop (if sign = 0 then .positive else .negative) limbs))
        heap [] rest _ _ _ := builds_createBignum.making fun _ => rfl
    refine (hcreate.get_bind fun _ s hs => ?_).iff (iff_of_eq (by simp [hlength]))
    rw [hs]
  · simp only [makeLimbsFromBytes_of_lt (Nat.not_le.mp hlength)]
    exact Builds.panic fun h => hlength h.1

end Tags

/-! ## Terms inside of terms -/

/-- The decoder builds what the encoding stands for. -/
def Etf.Decoded (t : Etf) : Prop :=
  ∀ heap rest, Builds decodeNaked heap t.bytes rest
    (t.Fits heap.boxHeader heap.stackTop heap.heapTop) (t.place heap.boxHeader heap.heapTop)
    (t.after heap)

section Inside

variable {ts : List Etf}

open Etf

theorem builds_elements (hts : ∀ t ∈ ts, t.Decoded) (heap : Heap) (rest : List UInt8) :
    Builds (fun fuel => times ts.length (decodeNaked fuel)) heap (bytesOfAll ts) rest
      (FitsAll heap.boxHeader heap.stackTop heap.heapTop ts)
      (placeAll heap.boxHeader heap.heapTop ts) (afterAll ts heap) := by
  induction ts generalizing heap with
  | nil => exact Builds.pure _ heap rest
  | cons t ts ih =>
      obtain ⟨ht, hts⟩ := List.forall_mem_cons.mp hts
      have hgrown := after_grown t heap
      have hrest := ih hts (after t heap)
      simp only [hgrown.boxHeader, hgrown.stackTop, hgrown.heapTop] at hrest
      exact (ht heap _).bind fun _ => hrest.making fun _ => rfl

theorem builds_cell {t : Etf} (ht : t.Decoded) (heap : Heap) (rest : List UInt8) :
    Builds (fun fuel => do
        let another ← decodeNaked fuel
        let addr ← allocate 2
        return (addr, another)) heap t.bytes rest
      (t.Fits heap.boxHeader heap.stackTop heap.heapTop ∧
        heap.heapTop + words heap.boxHeader t + 2 < heap.stackTop)
      (heap.heapTop + words heap.boxHeader t, place heap.boxHeader heap.heapTop t)
      ((after t heap).allotted 2) := by
  have hgrown := after_grown t heap
  have halloc : Builds _ (after t heap) [] rest _ _ _ := builds_allocate 2
  rw [hgrown.stackTop, hgrown.heapTop] at halloc
  exact (ht heap _).bind_nil fun _ => halloc.making fun _ => rfl

theorem cell_grown (t : Etf) (heap : Heap) :
    Heap.Grown (words heap.boxHeader t + 2) heap ((after t heap).allotted 2) :=
  (after_grown t heap).trans (Heap.Grown.allotted 2 (after t heap))

theorem builds_cells (hts : ∀ t ∈ ts, t.Decoded) (heap : Heap) (rest : List UInt8) :
    Builds (fun fuel => times ts.length do
        let another ← decodeNaked fuel
        let addr ← allocate 2
        return (addr, another)) heap (bytesOfAll ts) rest
      (FitsCells heap.boxHeader heap.stackTop heap.heapTop ts)
      (placeCells heap.boxHeader heap.heapTop ts) (afterCells ts heap) := by
  induction ts generalizing heap with
  | nil => exact Builds.pure _ heap rest
  | cons t ts ih =>
      obtain ⟨ht, hts⟩ := List.forall_mem_cons.mp hts
      have hgrown := cell_grown t heap
      have hrest := ih hts ((after t heap).allotted 2)
      simp only [hgrown.boxHeader, hgrown.stackTop, hgrown.heapTop, ← Nat.add_assoc] at hrest
      refine ((builds_cell ht heap _).bind fun _ => hrest.making fun _ => ?_).iff and_assoc
      rfl

theorem builds_decodeTuple (hts : ∀ t ∈ ts, t.Decoded) (heap : Heap)
    (rest : List UInt8) :
    Builds (fun fuel => decodeTuple (decodeNaked fuel) ts.length) heap (bytesOfAll ts) rest
      (ts.length = 0 ∨ heap.heapTop + (heap.boxHeader + ts.length) < heap.stackTop ∧
        FitsAll heap.boxHeader heap.stackTop
          (heap.heapTop + (heap.boxHeader + ts.length)) ts)
      (if ts.length = 0 then .emptyTuple
        else .tuple heap.heapTop
          (placeAll heap.boxHeader (heap.heapTop + (heap.boxHeader + ts.length)) ts))
      (if ts.length = 0 then heap
        else afterAll ts (heap.allotted (heap.boxHeader + ts.length))) := by
  by_cases hzero : ts.length = 0
  · obtain rfl := List.eq_nil_of_length_eq_zero hzero
    exact (Builds.pure _ heap rest).iff (iff_of_true trivial (.inl rfl))
  · simp only [decodeTuple, hzero, ↓reduceIte, false_or]
    have hbuilt : Builds (fun fuel => allocate (heap.boxHeader + ts.length) >>= fun addr =>
        times ts.length (decodeNaked fuel) >>= fun elements =>
          pure (Built.tuple addr elements)) heap (bytesOfAll ts) rest _ _ _ :=
      (builds_allocate _).bind fun _ => (builds_elements hts _ rest).making fun _ => rfl
    refine hbuilt.get_bind fun fuel s hs => ?_
    rw [hs]

theorem builds_decodeList {tail : Etf} (hne : ts ≠ []) (hsize : ts.length < 2 ^ 32)
    (hts : ∀ t ∈ ts, t.Decoded) (htail : tail.Decoded) (heap : Heap) (rest : List UInt8) :
    Builds (fun fuel => decodeList (decodeNaked fuel)) heap
      (bigEndianBytes 4 ts.length ++ (bytesOfAll ts ++ tail.bytes)) rest
      (Fits heap.boxHeader heap.stackTop heap.heapTop (.list ts tail))
      (place heap.boxHeader heap.heapTop (.list ts tail)) (after (.list ts tail) heap) := by
  have hzero : ts.length ≠ 0 := fun h => hne (List.eq_nil_of_length_eq_zero h)
  refine (builds_readU32be hsize).then ?_
  simp only [hzero, ↓reduceIte]
  have hgrown := afterCells_grown ts heap
  have htl := htail (afterCells ts heap) rest
  simp only [hgrown.boxHeader, hgrown.stackTop, hgrown.heapTop, ← Nat.add_assoc] at htl
  refine (builds_cells hts heap _).bind fun _ => htl.making fun _ => ?_
  rfl

section AddThen

variable {α : Type}

/-- What is done with the pairs that a pair was added to, or else a panic. -/
def addThen (capacity : Nat) (built : List (Built × Built)) (key value : Built) (fuel : Nat)
    (f : List (Built × Built) → Loading α) : Loading α :=
  match addToMap fuel capacity built key value with
  | .error p => panic p
  | .ok pairs => f pairs

theorem decodePairs_succ (x : Loading Built) (fuel capacity n : Nat)
    (built : List (Built × Built)) :
    decodePairs x fuel capacity (n + 1) built = (do
      let key ← x
      let value ← x
      addThen capacity built key value fuel (decodePairs x fuel capacity n)) := rfl

variable {capacity : Nat} {built built' : List (Built × Built)} {key value : Built}
  {f : Nat → List (Built × Built) → Loading α}

theorem addThen_of_some
    (h : settled (fun fuel => addToMap fuel capacity built key value) = some built') :
    ∃ least, ∀ fuel, least ≤ fuel →
      addThen capacity built key value fuel (f fuel) = f fuel built' := by
  obtain ⟨least, hleast⟩ := settled_eq_some_iff.mp h
  exact ⟨least, fun fuel hfuel => by
    simp only [addThen, hleast fuel hfuel]⟩

theorem addThen_of_none
    (h : settled (fun fuel => addToMap fuel capacity built key value) = none) (fuel : Nat) :
    ∃ p, addThen capacity built key value fuel (f fuel) = panic p := by
  obtain ⟨p, hp⟩ := (addToMap_keeps capacity built key value).error_of_settled_eq_none h fuel
  exact ⟨p, by simp only [addThen, hp]⟩

variable {heap heap' : Heap} {bytes rest : List UInt8} {fits reported : Prop} {a : α}

theorem builds_addThen
    (hsome : ∀ built', settled (fun fuel => addToMap fuel capacity built key value) = some built' →
      Builds (fun fuel => f fuel built') heap bytes rest fits a heap')
    (hnone : settled (fun fuel => addToMap fuel capacity built key value) = none → ¬ fits) :
    Builds (fun fuel => addThen capacity built key value fuel (f fuel)) heap bytes rest fits a
      heap' := by
  cases hsettled : settled fun fuel => addToMap fuel capacity built key value with
  | none =>
      exact ⟨fun h => absurd h (hnone hsettled),
        fun _ => .of_panics (addThen_of_none hsettled)⟩
  | some built' =>
      have hbuilds := hsome built' hsettled
      exact ⟨fun h => (hbuilds.returns h).congr (addThen_of_some hsettled),
        fun h => (hbuilds.panics h).congr (addThen_of_some hsettled)⟩

theorem stops_addThen
    (hsome : ∀ built', settled (fun fuel => addToMap fuel capacity built key value) = some built' →
      Stops (fun fuel => f fuel built') heap bytes rest reported)
    (hnone : settled (fun fuel => addToMap fuel capacity built key value) = none →
      ¬ reported) :
    Stops (fun fuel => addThen capacity built key value fuel (f fuel)) heap bytes rest
      reported := by
  cases hsettled : settled fun fuel => addToMap fuel capacity built key value with
  | none =>
      exact ⟨fun h => absurd h (hnone hsettled),
        fun _ => .of_panics (addThen_of_none hsettled)⟩
  | some built' =>
      have hstops := hsome built' hsettled
      exact ⟨fun h => (hstops.reports h).congr (addThen_of_some hsettled),
        fun h => (hstops.panics h).congr (addThen_of_some hsettled)⟩

end AddThen

theorem builds_decodePairs (capacity n : Nat) (built : List (Built × Built)) {ts : List Etf}
    (hlength : ts.length = 2 * n) (hts : ∀ t ∈ ts, t.Decoded) (heap : Heap)
    (rest : List UInt8) :
    Builds (fun fuel => decodePairs (decodeNaked fuel) fuel capacity n built) heap
      (bytesOfAll ts) rest
      (FitsAll heap.boxHeader heap.stackTop heap.heapTop ts ∧
        (addAll capacity built (pairUp (placeAll heap.boxHeader heap.heapTop ts))).isSome)
      ((addAll capacity built (pairUp (placeAll heap.boxHeader heap.heapTop ts))).getD [])
      (afterAll ts heap) := by
  induction n generalizing ts built heap with
  | zero =>
      obtain rfl := List.eq_nil_of_length_eq_zero hlength
      exact (Builds.pure built heap rest).iff (iff_of_true trivial ⟨trivial, rfl⟩)
  | succ n ih =>
      obtain ⟨key, value, ts, rfl⟩ : ∃ key value others, ts = key :: value :: others := by
        match ts, hlength with
        | key :: value :: others, _ => exact ⟨key, value, others, rfl⟩
      obtain ⟨hkey, hts⟩ := List.forall_mem_cons.mp hts
      obtain ⟨hvalue, hts⟩ := List.forall_mem_cons.mp hts
      have hgrownKey := after_grown key heap
      have hgrownValue := after_grown value (after key heap)
      have hlength' : ts.length = 2 * n := by
        rw [List.length_cons, List.length_cons] at hlength
        omega
      have hpairs := fun built => ih built hlength' hts (after value (after key heap))
      have hvalues := hvalue (after key heap) (bytesOfAll ts ++ rest)
      simp only [hgrownKey.boxHeader, hgrownKey.stackTop, hgrownKey.heapTop,
        hgrownValue.boxHeader, hgrownValue.stackTop, hgrownValue.heapTop] at hpairs hvalues
      have hbuilt : Builds (fun fuel =>
          decodePairs (decodeNaked fuel) fuel capacity (n + 1) built) heap
          (bytesOfAll (key :: value :: ts)) rest
          (Fits heap.boxHeader heap.stackTop heap.heapTop key ∧
            Fits heap.boxHeader heap.stackTop (heap.heapTop + words heap.boxHeader key) value ∧
            FitsAll heap.boxHeader heap.stackTop
              (heap.heapTop + words heap.boxHeader key + words heap.boxHeader value) ts ∧
            (addAll capacity built (pairUp (placeAll heap.boxHeader heap.heapTop
              (key :: value :: ts)))).isSome)
          ((addAll capacity built (pairUp (placeAll heap.boxHeader heap.heapTop
            (key :: value :: ts)))).getD [])
          (afterAll (key :: value :: ts) heap) := by
        simp only [decodePairs_succ]
        refine (hkey heap _).bind fun _ => hvalues.bind fun _ =>
          builds_addThen (fun built' hsettled => ?_) (fun hsettled h => ?_)
        · simp only [placeAll, pairUp, addAll, hsettled, Option.bind_some]
          exact hpairs built'
        · simp [placeAll, pairUp, addAll, hsettled] at h
      exact hbuilt.iff (iff_of_eq (by simp only [FitsAll, and_assoc]))

theorem builds_decodeMap {ts : List Etf} (heven : ts.length % 2 = 0)
    (hsize : ts.length / 2 < 2 ^ 32) (hts : ∀ t ∈ ts, t.Decoded) (heap : Heap)
    (rest : List UInt8) :
    Builds (fun fuel => reading readU32be >>= decodeMap (decodeNaked fuel) fuel) heap
      (bigEndianBytes 4 (ts.length / 2) ++ bytesOfAll ts) rest
      (Fits heap.boxHeader heap.stackTop heap.heapTop (.map ts))
      (place heap.boxHeader heap.heapTop (.map ts)) (after (.map ts) heap) := by
  refine (builds_readU32be hsize).then ?_
  have hfilled : Builds (fun fuel => do
      let addr ← allocate (FlatMap.storageSize heap.boxHeader (ts.length / 2))
      let pairs ← decodePairs (decodeNaked fuel) fuel
        (FlatMap.storageSize heap.boxHeader (ts.length / 2)) (ts.length / 2) []
      if pairs.length = ts.length / 2 then
        writePast (addr + FlatMap.storageSize heap.boxHeader (ts.length / 2))
      return Built.map addr pairs) heap (bytesOfAll ts) rest
      (Fits heap.boxHeader heap.stackTop heap.heapTop (.map ts))
      (place heap.boxHeader heap.heapTop (.map ts)) (after (.map ts) heap) := by
    refine (builds_allocate _).bind fun hfits => ?_
    have hgrown := afterAll_grown ts
      (heap.allotted (FlatMap.storageSize heap.boxHeader (ts.length / 2)))
    have hpairs : Builds _ _ _ _ _ ((pairsAt heap.boxHeader heap.heapTop ts).getD []) _ :=
      builds_decodePairs (FlatMap.storageSize heap.boxHeader (ts.length / 2)) (ts.length / 2) []
        (by omega) hts
        (heap.allotted (FlatMap.storageSize heap.boxHeader (ts.length / 2))) rest
    refine hpairs.followed fun _ => ?_
    change Builds _ _ _ _ _
      (Built.map heap.heapTop ((pairsAt heap.boxHeader heap.heapTop ts).getD [])) _
    simp only [after]
    split
    next hfull =>
      refine (builds_writePast _ ?_).making fun _ => rfl
      rwa [hgrown.stackTop]
    next hnot => exact Builds.pure _ _ rest
  refine hfilled.get_bind fun fuel s hs => ?_
  rw [hs]

end Inside

namespace Etf

theorem decoded_tuple {wide : Bool} {elements : List Etf}
    (hsize : elements.length < sizeLimit wide) (helements : ∀ t ∈ elements, t.Decoded) :
    (tuple wide elements).Decoded := by
  intro heap rest
  cases wide with
  | true =>
      exact .succ ((builds_readU8 105).then
        ((builds_readU32be hsize).then (builds_decodeTuple helements heap rest)))
  | false =>
      exact .succ ((builds_readU8 104).then
        (builds_size8 hsize (builds_decodeTuple helements heap rest)))

theorem decoded_big {wide : Bool} {sign : UInt8} {digits : List UInt8}
    (hsize : digits.length < sizeLimit wide) : (big wide sign digits).Decoded := by
  intro heap rest
  cases wide with
  | true =>
      exact .succ ((builds_readU8 111).then
        ((builds_readU32be hsize).then (builds_decodeBig sign digits)))
  | false =>
      exact .succ ((builds_readU8 110).then
        (builds_size8 hsize (builds_decodeBig sign digits)))

/-- The decoder builds from every encoding what it stands for. -/
theorem decoded {t : Etf} (ht : t.WellFormed) : t.Decoded := by
  induction ht with
  | smallInteger value =>
      intro heap rest
      exact .succ ((builds_readU8 97).then (builds_decodeU8 value))
  | integer hlow hhigh =>
      intro heap rest
      exact .succ ((builds_readU8 98).then (builds_decodeS32 hlow hhigh))
  | atomLatin1 hsize =>
      intro heap rest
      exact .succ ((builds_readU8 100).then (builds_decodeAtomLatin1 hsize))
  | @atomUtf8 wide name hsize =>
      intro heap rest
      cases wide with
      | true => exact .succ ((builds_readU8 118).then (builds_decodeAtomUtf8 hsize))
      | false => exact .succ ((builds_readU8 119).then (builds_decodeSmallAtomUtf8 hsize))
  | nil =>
      intro heap rest
      exact .succ ((builds_readU8 106).then (Builds.pure Built.nil heap rest))
  | string hsize =>
      intro heap rest
      exact .succ ((builds_readU8 107).then (builds_decodeString hsize))
  | list hne hsize _ _ helements htail =>
      intro heap rest
      exact .succ ((builds_readU8 108).then
        (builds_decodeList hne hsize helements htail heap rest))
  | noList =>
      intro heap rest
      exact .succ ((builds_readU8 108).then
        (((builds_readU32be (by decide)).then (Builds.pure Built.nil heap rest))))
  | tuple hsize _ helements => exact decoded_tuple hsize helements
  | binary hsize =>
      intro heap rest
      exact .succ ((builds_readU8 109).then (builds_decodeBinary hsize))
  | big hsize => exact decoded_big hsize
  | map heven hsize _ hpairs =>
      intro heap rest
      exact .succ ((builds_readU8 116).then (builds_decodeMap heven hsize hpairs heap rest))

end Etf

end Zeptobeam
