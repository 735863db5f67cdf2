/-
Which byte strings the decoder answers.  It answers an encoding that fits on the heap, and
a broken one where the place at which it breaks off is one that the decoder looks out for:
an unknown tag, or bytes of a size that was read.  Everywhere else it panics.
-/
import Zeptobeam.EtfDecode

namespace Zeptobeam

open Fuelled ExtTermFormat Loading BinaryReader

namespace Broken

section

variable (boxHeader limit : Nat)

/-- All that comes before the break fits, and the break is reported. -/
noncomputable def Reported (addr : Nat) : Broken → Prop
  | here at_ => at_.Reported
  | inList _ before next =>
      Etf.FitsCells boxHeader limit addr before ∧
        Reported (addr + Etf.wordsOfAll boxHeader before + 2 * before.length) next
  | inTail elements next =>
      Etf.FitsCells boxHeader limit addr elements ∧
        Reported (addr + Etf.wordsOfAll boxHeader elements + 2 * elements.length) next
  | inTuple _ size before next =>
      addr + (boxHeader + size) < limit ∧
        Etf.FitsAll boxHeader limit (addr + (boxHeader + size)) before ∧
        Reported (addr + (boxHeader + size) + Etf.wordsOfAll boxHeader before) next
  | inKey size before next =>
      let capacity := FlatMap.storageSize boxHeader size
      addr + capacity < limit ∧ Etf.FitsAll boxHeader limit (addr + capacity) before ∧
        (addAll capacity []
          (pairUp (Etf.placeAll boxHeader (addr + capacity) before))).isSome ∧
        Reported (addr + capacity + Etf.wordsOfAll boxHeader before) next
  | inValue size before key next =>
      let capacity := FlatMap.storageSize boxHeader size
      let keyAddr := addr + capacity + Etf.wordsOfAll boxHeader before
      addr + capacity < limit ∧ Etf.FitsAll boxHeader limit (addr + capacity) before ∧
        (addAll capacity []
          (pairUp (Etf.placeAll boxHeader (addr + capacity) before))).isSome ∧
        Etf.Fits boxHeader limit keyAddr key ∧
        Reported (keyAddr + Etf.words boxHeader key) next

end

end Broken

/-! ## Reads that break off -/

section Breaks

variable {α β : Type} {heap : Heap} {bytes : List UInt8}

theorem stops_readU8 : Stops (fun _ => reading readU8) heap [] [] False := by
  refine ⟨False.elim, fun _ => ⟨0, fun _ _ s _ hreads => ⟨.indexOutOfBounds, ?_⟩⟩⟩
  have hend : s.reader.buf[s.reader.pos]? = none := by
    have hlength := congrArg List.length hreads.2
    rw [length_rest] at hlength
    exact List.getElem?_eq_none (Nat.le_of_sub_eq_zero hlength)
  simp only [reading, readU8, hend]

theorem length_of_reads {r : BinaryReader} (h : r.Reads bytes []) :
    r.buf.length = r.pos + bytes.length := by
  have hlength := congrArg List.length h.2
  have hle := h.pos_add_le
  rw [length_rest, List.append_nil] at hlength
  omega

theorem stops_slice {width : Nat} {f : List UInt8 → Reading α} (hcut : bytes.length < width) :
    Stops (fun _ => reading (slice width >>= f)) heap bytes [] False := by
  refine ⟨False.elim, fun _ => ⟨0, fun _ _ s _ hreads => ⟨.indexOutOfBounds, ?_⟩⟩⟩
  have hlength := length_of_reads hreads
  have hslice : slice width s.reader = .error (.panic .indexOutOfBounds) :=
    if_neg (by omega)
  simp only [reading, StateExcept.bind_eq_of_error hslice]

theorem readBytes_of_cut {size : Nat} {r : BinaryReader} (hreads : r.Reads bytes [])
    (hcut : bytes.length < size) : readBytes size r = .error (.err (.readError .prematureEOF)) := by
  have hlength := length_of_reads hreads
  exact if_pos (by omega)

theorem stops_readBytes {size : Nat} (hcut : bytes.length < size) :
    Stops (fun _ => reading (readBytes size)) heap bytes [] True := by
  refine ⟨fun _ => ⟨0, fun _ _ s _ hreads => ⟨.readError .prematureEOF, ?_⟩⟩,
    fun hnot => absurd trivial hnot⟩
  simp only [reading, readBytes_of_cut hreads hcut]

theorem stops_readStrLatin1 {size : Nat} (hcut : bytes.length < size) :
    Stops (fun _ => reading (unwrap (readStrLatin1 size))) heap bytes [] False := by
  refine ⟨False.elim, fun _ => ⟨0, fun _ _ s _ hreads => ⟨.unwrap, ?_⟩⟩⟩
  have hread : readStrLatin1 size s.reader = .error (.err (.readError .prematureEOF)) :=
    StateExcept.bind_eq_of_error (readBytes_of_cut hreads hcut)
  simp only [reading, unwrap, hread]

/-- A name that is cut, or is not UTF-8. -/
theorem stops_mapReadErr (what : String) {size : Nat} {rest : List UInt8}
    (h : ∀ r : BinaryReader, r.Reads bytes rest →
      ∃ e, readStrUtf8 size r = .error (.err (.readError e))) :
    Stops (fun _ => mapReadErr what (readStrUtf8 size)) heap bytes rest True := by
  refine ⟨fun _ => ⟨0, fun _ _ s _ hreads => ?_⟩, fun hnot => absurd trivial hnot⟩
  obtain ⟨e, he⟩ := h s.reader hreads
  simp only [mapReadErr, reading, he]
  exact ⟨_, rfl⟩

/-- A string of bytes panics where it ends, or before, where the heap does. -/
theorem stops_stringCells {size : Nat} (hcut : bytes.length < size) (heap : Heap) :
    Stops (fun _ => times size do
        let elem ← reading readU8
        let addr ← allocate 2
        return (addr, Built.small elem.toNat)) heap bytes [] False := by
  induction bytes generalizing size heap with
  | nil =>
      obtain ⟨size, rfl⟩ := Nat.exists_eq_add_of_le' (Nat.zero_lt_of_lt hcut)
      exact stops_readU8.bind.bind
  | cons b bytes ih =>
      obtain ⟨size, rfl⟩ := Nat.exists_eq_add_of_le' (Nat.zero_lt_of_lt hcut)
      have hcut' : bytes.length < size := by simpa using hcut
      exact ((builds_stringCell b heap _).stops fun _ =>
        (ih hcut' (heap.allotted 2)).bind).iff (iff_of_eq (and_false _))

end Breaks

/-! ## Break points -/

section BreakPoint

variable {heap : Heap}

theorem tag_of_toNat {tag : UInt8} (n : UInt8) (h : tag.toNat = n.toNat) : tag = n :=
  UInt8.toNat_inj.mp h

theorem stops_fail (msg : String) {bytes rest : List UInt8} :
    Stops (fun _ => (fail msg : Loading Built)) heap bytes rest True :=
  ⟨fun _ => ⟨0, fun _ _ _ _ _ => ⟨_, rfl⟩⟩, fun hnot => absurd trivial hnot⟩

theorem stops_unknownTag {tag : UInt8} {rest : List UInt8} (htag : tagField tag.toNat = none) :
    Stops decodeNaked heap (tag :: rest) [] True := by
  refine .succ ((builds_readU8 tag).then_stops ?_)
  split
  case h_15 => exact stops_fail _
  all_goals
    next h =>
      rw [h] at htag
      cases htag

theorem stops_cutField {tag : UInt8} {width : Nat} {given : List UInt8}
    (htag : tagField tag.toNat = some width) (hcut : given.length < width) :
    Stops decodeNaked heap (tag :: given) [] False := by
  refine .succ ((builds_readU8 tag).then_stops ?_)
  have hnil : given.length < 1 → given = [] := fun h =>
    List.eq_nil_of_length_eq_zero (Nat.lt_one_iff.mp h)
  unfold tagField at htag
  split at htag <;> simp only [Option.some.injEq, reduceCtorEq] at htag
  all_goals subst htag
  case h_1 h => rw [tag_of_toNat 97 h, hnil hcut]; exact stops_readU8.bind
  case h_2 h => rw [tag_of_toNat 98 h]; exact (stops_slice hcut).bind
  case h_3 h => rw [tag_of_toNat 100 h]; exact (stops_slice hcut).bind
  case h_4 h => rw [tag_of_toNat 104 h, hnil hcut]; exact stops_readU8.bind
  case h_5 h => rw [tag_of_toNat 105 h]; exact (stops_slice hcut).bind
  case h_6 h => exact absurd hcut (Nat.not_lt_zero _)
  case h_7 h => rw [tag_of_toNat 107 h]; exact (stops_slice hcut).bind
  case h_8 h => rw [tag_of_toNat 108 h]; exact (stops_slice hcut).bind
  case h_9 h => rw [tag_of_toNat 109 h]; exact (stops_slice hcut).bind
  case h_10 h => rw [tag_of_toNat 110 h, hnil hcut]; exact stops_readU8.bind
  case h_11 h => rw [tag_of_toNat 111 h]; exact (stops_slice hcut).bind
  case h_12 h => rw [tag_of_toNat 116 h]; exact (stops_slice hcut).bind
  case h_13 h => rw [tag_of_toNat 118 h]; exact (stops_slice hcut).bind
  case h_14 h => rw [tag_of_toNat 119 h, hnil hcut]; exact stops_readU8.bind

theorem stops_cutString {size : Nat} {given : List UInt8} (hcut : given.length < size)
    (hsize : size < 2 ^ 16) :
    Stops decodeNaked heap (107 :: bigEndianBytes 2 size ++ given) [] False := by
  have hzero : size ≠ 0 := by omega
  have hstring : Stops (fun _ => decodeString) heap (bigEndianBytes 2 size ++ given) []
      False := by
    refine (builds_readU16be hsize).then_stops ?_
    simp only [hzero, ↓reduceIte]
    exact (stops_stringCells hcut heap).bind
  exact .succ ((builds_readU8 107).then_stops hstring)

theorem stops_cutLatin1 {size : Nat} {given : List UInt8} (hcut : given.length < size)
    (hsize : size < 2 ^ 16) :
    Stops decodeNaked heap (100 :: bigEndianBytes 2 size ++ given) [] False := by
  have hname : Stops (fun _ => decodeAtomLatin1) heap (bigEndianBytes 2 size ++ given) []
      False :=
    (builds_readU16be hsize).then_stops (stops_readStrLatin1 hcut).bind
  exact .succ ((builds_readU8 100).then_stops hname)

theorem stops_cutBinary {size : Nat} {given : List UInt8} (hcut : given.length < size)
    (hsize : size < 2 ^ 32) :
    Stops decodeNaked heap (109 :: bigEndianBytes 4 size ++ given) [] True := by
  have hzero : size ≠ 0 := by omega
  have hbinary : Stops (fun _ => decodeBinary) heap (bigEndianBytes 4 size ++ given) []
      True := by
    refine (builds_readU32be hsize).then_stops ?_
    simp only [hzero, ↓reduceIte]
    exact (stops_readBytes hcut).bind
  exact .succ ((builds_readU8 109).then_stops hbinary)

theorem stops_size8 {α : Type} {f : Nat → Nat → Loading α} {n : Nat} {more : List UInt8}
    {reported : Prop} (hn : n < 2 ^ 8)
    (h : Stops (fun fuel => f fuel n) heap more [] reported) :
    Stops (fun fuel => reading readU8 >>= fun size => f fuel size.toNat) heap
      (bigEndianBytes 1 n ++ more) [] reported := by
  have hmod : n % 256 = n := Nat.mod_eq_of_lt hn
  have hbytes : bigEndianBytes 1 n = [UInt8.ofNat n] := by
    simp [bigEndianBytes, hmod]
  rw [hbytes]
  refine (builds_readU8 _).then_stops ?_
  rwa [UInt8.toNat_ofNat_of_lt' hn]

theorem stops_utf8 (wide : Bool) {size : Nat} {data : List UInt8}
    (hsize : size < if wide then 2 ^ 16 else 2 ^ 8)
    (h : ∀ r : BinaryReader, r.Reads data [] →
      ∃ e, readStrUtf8 size r = .error (.err (.readError e))) :
    Stops decodeNaked heap
      ((if wide then 118 :: bigEndianBytes 2 size else 119 :: bigEndianBytes 1 size) ++ data)
      [] True := by
  cases wide with
  | true =>
      have hname : Stops (fun _ => decodeAtomUtf8) heap (bigEndianBytes 2 size ++ data) []
          True :=
        (builds_readU16be hsize).then_stops (stops_mapReadErr "AtomUtf8" h).bind
      exact .succ ((builds_readU8 118).then_stops hname)
  | false =>
      have hname : Stops (fun _ => decodeSmallAtomUtf8) heap (bigEndianBytes 1 size ++ data) []
          True :=
        stops_size8 (f := fun _ size =>
          mapReadErr "SmallAtomUtf8" (readStrUtf8 size) >>= fromStr) hsize
          (stops_mapReadErr "SmallAtomUtf8" h).bind
      exact .succ ((builds_readU8 119).then_stops hname)

theorem readStrUtf8_of_cut {size : Nat} {given : List UInt8} (hcut : given.length < size)
    (r : BinaryReader) (hreads : r.Reads given []) :
    ∃ e, readStrUtf8 size r = .error (.err (.readError e)) :=
  ⟨_, StateExcept.bind_eq_of_error (readBytes_of_cut hreads hcut)⟩

theorem readStrUtf8_of_invalid {name rest : List UInt8} (hdecode : LineFile.decode name = none)
    (r : BinaryReader) (hreads : r.Reads (name ++ rest) []) :
    ∃ e, readStrUtf8 name.length r = .error (.err (.readError e)) := by
  refine ⟨.invalidUtf8, ?_⟩
  rw [readStrUtf8, StateExcept.bind_eq_of_ok (readBytes_of_reads hreads.assoc)]
  simp only [hdecode]
  rfl

/-- A big integer whose sign or digits stop. -/
theorem stops_big (wide : Bool) {size : Nat} {data : List UInt8} {reported : Prop}
    (hsize : size < Etf.sizeLimit wide)
    (h : Stops (fun _ => decodeBig size) heap data [] reported) :
    Stops decodeNaked heap (Etf.sized wide 111 110 size ++ data) [] reported := by
  cases wide with
  | true => exact .succ ((builds_readU8 111).then_stops ((builds_readU32be hsize).then_stops h))
  | false => exact .succ ((builds_readU8 110).then_stops (stops_size8 hsize h))

/-- What is reported, and what panics, where a byte string breaks off. -/
theorem stops_breakPoint {p : BreakPoint} (hp : p.WellFormed) (heap : Heap) :
    Stops decodeNaked heap p.bytes [] p.Reported := by
  cases p with
  | ended => exact .succ (stops_readU8.bind)
  | unknownTag tag rest => exact stops_unknownTag hp
  | cutField tag given =>
      obtain ⟨width, htag, hcut⟩ := hp
      exact stops_cutField htag hcut
  | cutString size given => exact stops_cutString hp.1 hp.2
  | cutLatin1 size given => exact stops_cutLatin1 hp.1 hp.2
  | cutUtf8 wide size given =>
      have h : Stops decodeNaked heap _ [] True := stops_utf8 wide hp.2 (readStrUtf8_of_cut hp.1)
      cases wide <;> exact h
  | invalidUtf8 wide name rest =>
      have h : Stops decodeNaked heap (_ ++ (name ++ rest)) [] True :=
        stops_utf8 wide hp.2 (readStrUtf8_of_invalid hp.1)
      cases wide <;> exact h
  | cutBinary size given => exact stops_cutBinary hp.1 hp.2
  | cutSign wide size =>
      have h : Stops decodeNaked heap (_ ++ []) [] False := stops_big wide hp stops_readU8.bind
      rwa [List.append_nil] at h
  | cutBig wide size sign given =>
      exact stops_big wide hp.2 ((builds_readU8 sign).then_stops (stops_readBytes hp.1).bind)

end BreakPoint

/-! ## Terms that break off inside -/

/-- The decoder reports the break, if what comes before it fits. -/
def Broken.Stopped (b : Broken) : Prop :=
  ∀ heap, Stops decodeNaked heap b.bytes []
    (b.Reported heap.boxHeader heap.stackTop heap.heapTop)

section Inside

open Etf

variable {before : List Etf} {next : Broken}

theorem stops_elements {size : Nat} (hlength : before.length < size)
    (hbefore : ∀ t ∈ before, t.Decoded) (hnext : next.Stopped) (heap : Heap) :
    Stops (fun fuel => times size (decodeNaked fuel)) heap (bytesOfAll before ++ next.bytes) []
      (FitsAll heap.boxHeader heap.stackTop heap.heapTop before ∧
        next.Reported heap.boxHeader heap.stackTop
          (heap.heapTop + wordsOfAll heap.boxHeader before)) := by
  obtain ⟨size, rfl⟩ := Nat.exists_eq_add_of_le' (Nat.zero_lt_of_lt hlength)
  induction before generalizing size heap with
  | nil => exact (hnext heap).bind.iff (iff_of_eq (true_and _).symm)
  | cons t ts ih =>
      obtain ⟨ht, hts⟩ := List.forall_mem_cons.mp hbefore
      have hlength' : ts.length < size := by simpa using hlength
      have hgrown := after_grown t heap
      obtain ⟨size, rfl⟩ := Nat.exists_eq_add_of_le' (Nat.zero_lt_of_lt hlength')
      have hrest := ih hts (after t heap) size hlength'
      simp only [hgrown.boxHeader, hgrown.stackTop, hgrown.heapTop] at hrest
      rw [bytesOfAll, List.append_assoc]
      refine ((ht heap _).stops fun _ => hrest.bind).iff ?_
      rw [FitsAll, wordsOfAll, and_assoc, Nat.add_assoc]

theorem stops_cells {size : Nat} (hlength : before.length < size)
    (hbefore : ∀ t ∈ before, t.Decoded) (hnext : next.Stopped) (heap : Heap) :
    Stops (fun fuel => times size do
        let another ← decodeNaked fuel
        let addr ← allocate 2
        return (addr, another)) heap (bytesOfAll before ++ next.bytes) []
      (FitsCells heap.boxHeader heap.stackTop heap.heapTop before ∧
        next.Reported heap.boxHeader heap.stackTop
          (heap.heapTop + wordsOfAll heap.boxHeader before + 2 * before.length)) := by
  obtain ⟨size, rfl⟩ := Nat.exists_eq_add_of_le' (Nat.zero_lt_of_lt hlength)
  induction before generalizing size heap with
  | nil => exact (hnext heap).bind.bind.iff (iff_of_eq (true_and _).symm)
  | cons t ts ih =>
      obtain ⟨ht, hts⟩ := List.forall_mem_cons.mp hbefore
      have hlength' : ts.length < size := by simpa using hlength
      obtain ⟨size, rfl⟩ := Nat.exists_eq_add_of_le' (Nat.zero_lt_of_lt hlength')
      have hgrown := cell_grown t heap
      have hrest := ih hts ((after t heap).allotted 2) size hlength'
      simp only [hgrown.boxHeader, hgrown.stackTop, hgrown.heapTop] at hrest
      rw [bytesOfAll, List.append_assoc]
      refine ((builds_cell ht heap _).stops fun _ => hrest.bind).iff ?_
      rw [FitsCells, wordsOfAll, List.length_cons, and_assoc, and_assoc, and_assoc]
      have hsum : heap.heapTop + (words heap.boxHeader t + wordsOfAll heap.boxHeader ts)
          + 2 * (ts.length + 1) = heap.heapTop + (words heap.boxHeader t + 2)
          + wordsOfAll heap.boxHeader ts + 2 * ts.length := by omega
      rw [hsum, Nat.add_assoc heap.heapTop]

/-- The pairs before the break are added. -/
theorem stops_pairs {capacity n m : Nat} {tail : List UInt8} {reported : Prop}
    (built : List (Built × Built)) (hlength : before.length = 2 * m) (hbefore : ∀ t ∈ before, t.Decoded)
    (heap : Heap)
    (hnext : ∀ built, Stops (fun fuel =>
      decodePairs (decodeNaked fuel) fuel capacity (n + 1) built) (afterAll before heap) tail []
      reported) :
    Stops (fun fuel => decodePairs (decodeNaked fuel) fuel capacity (n + 1 + m) built) heap
      (bytesOfAll before ++ tail) []
      (FitsAll heap.boxHeader heap.stackTop heap.heapTop before ∧
        (addAll capacity built
          (pairUp (placeAll heap.boxHeader heap.heapTop before))).isSome ∧ reported) := by
  induction m generalizing before built heap with
  | zero =>
      obtain rfl := List.eq_nil_of_length_eq_zero hlength
      exact (hnext built).iff (by simp [FitsAll, placeAll, pairUp, addAll])
  | succ m ih =>
      have htwo : before.length = 2 * m + 1 + 1 := hlength
      obtain ⟨key, others, rfl⟩ := List.exists_cons_of_length_eq_add_one htwo
      obtain ⟨value, ts, rfl⟩ := List.exists_cons_of_length_eq_add_one (Nat.succ.inj htwo)
      obtain ⟨hkey, hts⟩ := List.forall_mem_cons.mp hbefore
      obtain ⟨hvalue, hts⟩ := List.forall_mem_cons.mp hts
      have hlength' : ts.length = 2 * m := by
        rw [List.length_cons, List.length_cons] at hlength
        omega
      have hgrownKey := after_grown key heap
      have hgrownValue := after_grown value (after key heap)
      have hpairs := fun built' =>
        ih built' hlength' hts (after value (after key heap)) hnext
      have hvalues := hvalue (after key heap) (bytesOfAll ts ++ tail ++ [])
      simp only [hgrownKey.boxHeader, hgrownKey.stackTop, hgrownKey.heapTop,
        hgrownValue.boxHeader, hgrownValue.stackTop, hgrownValue.heapTop] at hpairs hvalues
      have hadd : Stops (fun fuel => addThen capacity built
          (place heap.boxHeader heap.heapTop key)
          (place heap.boxHeader (heap.heapTop + words heap.boxHeader key) value) fuel
          (decodePairs (decodeNaked fuel) fuel capacity (n + 1 + m)))
          (after value (after key heap)) (bytesOfAll ts ++ tail) []
          (FitsAll heap.boxHeader heap.stackTop
              (heap.heapTop + words heap.boxHeader key + words heap.boxHeader value) ts ∧
            (addAll capacity built (pairUp (placeAll heap.boxHeader heap.heapTop
              (key :: value :: ts)))).isSome ∧ reported) := by
        refine stops_addThen (fun built' hsettled => ?_) (fun hsettled h => ?_)
        · simp only [placeAll, pairUp, addAll, hsettled, Option.bind_some]
          exact hpairs built'
        · simp [placeAll, pairUp, addAll, hsettled] at h
      have hbytes : bytesOfAll (key :: value :: ts) ++ tail
          = key.bytes ++ (value.bytes ++ (bytesOfAll ts ++ tail)) := by
        simp [bytesOfAll]
      rw [hbytes]
      have hwhole : Stops (fun fuel =>
          decodePairs (decodeNaked fuel) fuel capacity (n + 1 + (m + 1)) built) heap
          (key.bytes ++ (value.bytes ++ (bytesOfAll ts ++ tail))) [] _ :=
        (hkey heap _).stops fun _ => hvalues.stops fun _ => hadd
      exact hwhole.iff (by simp only [FitsAll, and_assoc])

theorem stops_key (capacity n : Nat) (built : List (Built × Built)) (hnext : next.Stopped)
    (heap : Heap) :
    Stops (fun fuel => decodePairs (decodeNaked fuel) fuel capacity (n + 1) built) heap
      next.bytes [] (next.Reported heap.boxHeader heap.stackTop heap.heapTop) :=
  (hnext heap).bind

theorem stops_value (capacity n : Nat) (built : List (Built × Built)) {key : Etf}
    (hkey : key.Decoded) (hnext : next.Stopped) (heap : Heap) :
    Stops (fun fuel => decodePairs (decodeNaked fuel) fuel capacity (n + 1) built) heap
      (key.bytes ++ next.bytes) []
      (key.Fits heap.boxHeader heap.stackTop heap.heapTop ∧
        next.Reported heap.boxHeader heap.stackTop
          (heap.heapTop + words heap.boxHeader key)) := by
  have hgrown := after_grown key heap
  have hvalue := hnext (after key heap)
  simp only [hgrown.boxHeader, hgrown.stackTop, hgrown.heapTop] at hvalue
  exact (hkey heap _).stops fun _ => hvalue.bind

theorem stops_inList {size : Nat} (hsize : size < 2 ^ 32) (hlength : before.length < size)
    (hbefore : ∀ t ∈ before, t.Decoded) (hnext : next.Stopped) :
    (Broken.inList size before next).Stopped := by
  intro heap
  have hzero : size ≠ 0 := by omega
  refine .succ ((builds_readU8 108).then_stops ((builds_readU32be hsize).then_stops ?_))
  simp only [hzero, ↓reduceIte]
  exact (stops_cells hlength hbefore hnext heap).bind

theorem stops_inTail (hne : before ≠ []) (hsize : before.length < 2 ^ 32)
    (hbefore : ∀ t ∈ before, t.Decoded) (hnext : next.Stopped) :
    (Broken.inTail before next).Stopped := by
  intro heap
  have hzero : before.length ≠ 0 := fun h => hne (List.eq_nil_of_length_eq_zero h)
  have hgrown := afterCells_grown before heap
  have htail := hnext (afterCells before heap)
  simp only [hgrown.boxHeader, hgrown.stackTop, hgrown.heapTop, ← Nat.add_assoc] at htail
  refine .succ ((builds_readU8 108).then_stops ((builds_readU32be hsize).then_stops ?_))
  simp only [hzero, ↓reduceIte]
  exact (builds_cells hbefore heap _).stops fun _ => htail.bind

theorem stops_inTuple {wide : Bool} {size : Nat} (hsize : size < sizeLimit wide)
    (hlength : before.length < size) (hbefore : ∀ t ∈ before, t.Decoded)
    (hnext : next.Stopped) : (Broken.inTuple wide size before next).Stopped := by
  intro heap
  have hzero : size ≠ 0 := by omega
  have htuple : Stops (fun fuel => decodeTuple (decodeNaked fuel) size) heap
      (bytesOfAll before ++ next.bytes) []
      ((Broken.inTuple wide size before next).Reported heap.boxHeader heap.stackTop
        heap.heapTop) := by
    simp only [decodeTuple, hzero, ↓reduceIte]
    have hbuilt : Stops (fun fuel => allocate (heap.boxHeader + size) >>= fun addr =>
        times size (decodeNaked fuel) >>= fun elements =>
          pure (Built.tuple addr elements)) heap (bytesOfAll before ++ next.bytes) [] _ :=
      (builds_allocate _).stops fun _ =>
        (stops_elements hlength hbefore hnext (heap.allotted (heap.boxHeader + size))).bind
    refine hbuilt.get_bind fun fuel s hs => ?_
    rw [hs]
  cases wide with
  | true =>
      exact .succ ((builds_readU8 105).then_stops ((builds_readU32be hsize).then_stops htuple))
  | false => exact .succ ((builds_readU8 104).then_stops (stops_size8 hsize htuple))

theorem stops_map {size : Nat} (hsize : size < 2 ^ 32) {tail : List UInt8} {reported : Prop}
    (heap : Heap)
    (h : Stops (fun fuel => decodePairs (decodeNaked fuel) fuel
        (FlatMap.storageSize heap.boxHeader size) size [])
      (heap.allotted (FlatMap.storageSize heap.boxHeader size)) tail [] reported) :
    Stops decodeNaked heap (116 :: bigEndianBytes 4 size ++ tail) []
      (heap.heapTop + FlatMap.storageSize heap.boxHeader size < heap.stackTop ∧ reported) := by
  refine .succ ((builds_readU8 116).then_stops ((builds_readU32be hsize).then_stops ?_))
  have hfilled : Stops (fun fuel => do
      let addr ← allocate (FlatMap.storageSize heap.boxHeader size)
      let pairs ← decodePairs (decodeNaked fuel) fuel
        (FlatMap.storageSize heap.boxHeader size) size []
      if pairs.length = size then
        writePast (addr + FlatMap.storageSize heap.boxHeader size)
      return Built.map addr pairs) heap tail [] _ :=
    (builds_allocate _).stops fun _ => h.bind
  refine hfilled.get_bind fun fuel s hs => ?_
  rw [hs]

theorem exists_pairs_left {size : Nat} (hlength : before.length / 2 < size) :
    ∃ n, size = n + 1 + before.length / 2 :=
  ⟨size - before.length / 2 - 1, by omega⟩

theorem stops_inKey {size : Nat} (hsize : size < 2 ^ 32) (heven : before.length % 2 = 0)
    (hlength : before.length / 2 < size) (hbefore : ∀ t ∈ before, t.Decoded)
    (hnext : next.Stopped) : (Broken.inKey size before next).Stopped := by
  intro heap
  obtain ⟨n, hn⟩ := exists_pairs_left hlength
  generalize hcapacity : FlatMap.storageSize heap.boxHeader size = capacity
  have hgrown := afterAll_grown before (heap.allotted capacity)
  have hkey := fun built => stops_key capacity n built hnext
    (afterAll before (heap.allotted capacity))
  simp only [hgrown.boxHeader, hgrown.stackTop, hgrown.heapTop] at hkey
  have hpairs := stops_pairs [] (show before.length = 2 * (before.length / 2) by omega) hbefore
    (heap.allotted capacity) hkey
  rw [← hn] at hpairs
  rw [← hcapacity] at hpairs
  exact stops_map hsize heap hpairs

theorem stops_inValue {size : Nat} {key : Etf} (hsize : size < 2 ^ 32)
    (heven : before.length % 2 = 0) (hlength : before.length / 2 < size)
    (hbefore : ∀ t ∈ before, t.Decoded) (hkey : key.Decoded) (hnext : next.Stopped) :
    (Broken.inValue size before key next).Stopped := by
  intro heap
  obtain ⟨n, hn⟩ := exists_pairs_left hlength
  generalize hcapacity : FlatMap.storageSize heap.boxHeader size = capacity
  have hgrown := afterAll_grown before (heap.allotted capacity)
  have hvalue := fun built => stops_value capacity n built hkey hnext
    (afterAll before (heap.allotted capacity))
  simp only [hgrown.boxHeader, hgrown.stackTop, hgrown.heapTop] at hvalue
  have hpairs := stops_pairs [] (show before.length = 2 * (before.length / 2) by omega) hbefore
    (heap.allotted capacity) hvalue
  rw [← hn] at hpairs
  rw [← hcapacity] at hpairs
  exact stops_map hsize heap hpairs

end Inside

/-- Every broken byte string is reported where what comes before the break fits and the
break is one that the decoder looks out for, and else the decoder panics. -/
theorem Broken.stopped {b : Broken} (hb : b.WellFormed) : b.Stopped := by
  have hdecoded : ∀ {ts : List Etf}, (∀ t ∈ ts, t.WellFormed) → ∀ t ∈ ts, t.Decoded :=
    fun h t ht => Etf.decoded (h t ht)
  induction hb with
  | here h => exact fun heap => stops_breakPoint h heap
  | inList hsize hlength hbefore _ ih =>
      exact stops_inList hsize hlength (hdecoded hbefore) ih
  | inTail hne hsize helements _ ih => exact stops_inTail hne hsize (hdecoded helements) ih
  | inTuple hsize hlength hbefore _ ih =>
      exact stops_inTuple hsize hlength (hdecoded hbefore) ih
  | inKey hsize heven hlength hbefore _ ih =>
      exact stops_inKey hsize heven hlength (hdecoded hbefore) ih
  | inValue hsize heven hlength hbefore hkey _ ih =>
      exact stops_inValue hsize heven hlength (hdecoded hbefore) (Etf.decoded hkey) ih

/-! ## Which byte strings are answered -/

namespace ExtTermFormat

/-- The decoder, on the input that lies behind other bytes. -/
def start (before input : List UInt8) (heap : Heap) : LoadState :=
  ⟨⟨before ++ input, before.length⟩, heap⟩

/-- The decoder returns `Ok` or `Err`: whatever bounds its rounds, if that is not too low. -/
def Answers (s : LoadState) : Prop :=
  ∃ least, ∀ fuel, least ≤ fuel →
    (∃ t s', decode fuel s = .ok (t, s')) ∨ ∃ e, decode fuel s = .error (.err e)

/-- The input does not begin with the byte of the format, or is an encoding that fits on
the heap, or breaks off where the decoder looks out for it. -/
def Answerable (input : List UInt8) (heap : Heap) : Prop :=
  ∃ tag rest, input = tag :: rest ∧
    (tag ≠ 131 ∨
      (∃ t : Etf, ∃ more, t.WellFormed ∧ rest = t.bytes ++ more ∧
        t.Fits heap.boxHeader heap.stackTop heap.heapTop) ∨
      ∃ b : Broken, b.WellFormed ∧ rest = b.bytes ∧
        b.Reported heap.boxHeader heap.stackTop heap.heapTop)

section Answers

variable (before : List UInt8) {bytes rest : List UInt8} {heap heap' : Heap} {t : Built}

theorem reads_start (bytes rest : List UInt8) (heap : Heap) :
    (start before (bytes ++ rest) heap).reader.Reads bytes rest := by
  refine ⟨?_, ?_⟩
  · simp [start]
  · simp [start, BinaryReader.rest]

theorem answers_of_returns (h : Loading.Ends decode heap bytes rest (.returns t heap')) :
    Answers (start before (bytes ++ rest) heap) := by
  obtain ⟨least, h⟩ := h
  exact ⟨least, fun fuel hfuel =>
    .inl ⟨_, _, h fuel hfuel _ rfl (reads_start before bytes rest heap)⟩⟩

theorem answers_of_reports (h : Loading.Ends decode heap bytes [] .reports) :
    Answers (start before bytes heap) := by
  obtain ⟨least, h⟩ := h
  have hreads := reads_start before bytes [] heap
  rw [List.append_nil] at hreads
  exact ⟨least, fun fuel hfuel => .inr (h fuel hfuel _ rfl hreads)⟩

theorem not_answers_of_panics (h : Loading.Ends decode heap bytes rest .panics) :
    ¬ Answers (start before (bytes ++ rest) heap) := by
  rintro ⟨least', hanswers⟩
  obtain ⟨least, h⟩ := h
  obtain ⟨p, hp⟩ := h (max least least') (by omega) _ rfl (reads_start before bytes rest heap)
  rcases hanswers (max least least') (by omega) with ⟨t, s', hok⟩ | ⟨e, he⟩
  · rw [hok] at hp
    cases hp
  · rw [he] at hp
    cases hp

end Answers

theorem stops_otherFormat {heap : Heap} {tag : UInt8} {rest : List UInt8} (htag : tag ≠ 131) :
    Stops decode heap (tag :: rest) [] True := by
  refine (builds_readU8 tag).then_stops ?_
  have hn : tag.toNat ≠ 131 := fun h => htag (tag_of_toNat 131 h)
  simp only [hn, ne_eq, not_false_eq_true, ↓reduceIte]
  exact stops_fail _

theorem builds_decode {t : Etf} (ht : t.WellFormed) (heap : Heap) (rest : List UInt8) :
    Builds decode heap (131 :: t.bytes) rest
      (t.Fits heap.boxHeader heap.stackTop heap.heapTop)
      (t.place heap.boxHeader heap.heapTop) (t.after heap) :=
  (builds_readU8 131).then (Etf.decoded ht heap rest)

theorem stops_decode {b : Broken} (hb : b.WellFormed) (heap : Heap) :
    Stops decode heap (131 :: b.bytes) []
      (b.Reported heap.boxHeader heap.stackTop heap.heapTop) :=
  (builds_readU8 131).then_stops (Broken.stopped hb heap)

end ExtTermFormat

end Zeptobeam
