/-
The comparison of two binaries against the order of their bits.  The readers of the two may
have less than the binary, or more: a sub-binary that has a byte reader has only its whole
bytes, and a bit reader has all that follows in the buffer.
-/
import Zeptobeam.BitReading
import Zeptobeam.ErlangOrder
import Zeptobeam.Lib.FirstDifference

namespace Zeptobeam

open SideBySide BitString

/-- Bit strings by their lengths, then by their bits. -/
def bitOrder (l l' : List Bool) : Ordering :=
  if l.length ≠ l'.length then compare l.length l'.length else compare l l'

namespace DataReader

/-- Bytes whose bits differ at a place that both readers have are compared as their bits. -/
theorem cmpReaderVsReader_of_firstDifference {r r' : DataReader} {k : Nat}
    (h : FirstDifference (BitString.bits r.contents) (BitString.bits r'.contents) k) :
    r.cmpReaderVsReader r' =
      .ok (compare (BitString.bits r.contents) (BitString.bits r'.contents)) := by
  obtain ⟨hbytes, hcompare⟩ := firstDifference_bytes h
  have hleft := hbytes.left
  have hright := hbytes.right
  have hfront := hbytes.take (Nat.lt_succ_self (k / 8))
  have hsight : r.sight r' = .ofOrdering (compare r.contents r'.contents) := by
    rw [sight]
    conv_lhs =>
      rw [← List.take_append_drop (k / 8).succ r.contents,
        ← List.take_append_drop (k / 8).succ r'.contents]
    rw [sightBytes_append _ _ (by simp; omega) hfront.ne]
    rw [hfront.compare_eq (List.getElem?_eq_getElem hfront.left)
        (List.getElem?_eq_getElem hfront.right),
      hbytes.compare_eq (List.getElem?_eq_getElem hleft) (List.getElem?_eq_getElem hright),
      List.getElem_take, List.getElem_take]
  have hforward := toOption_cmpReaderVsReader r r'
  rw [hsight, forward_ofOrdering, hcompare] at hforward
  cases hcmp : r.cmpReaderVsReader r' with
  | error fault => simp [hcmp, Except.toOption] at hforward
  | ok order =>
      rw [hcmp] at hforward
      simpa [Except.toOption] using hforward

/-- A reader that ends in front of the other one is read out of bounds. -/
theorem forward_sightBytes_cut {r r' : DataReader} (hr' : ¬ r'.Padded) {xs ys : List UInt8}
    (hys : ys ≠ []) : forward [sightBytes r r' (xs ++ ys) xs] = none := by
  induction xs with
  | nil =>
      cases ys with
      | nil => exact absurd rfl hys
      | cons y ys => simp [sightBytes, hr', forward]
  | cons x xs ih => rwa [List.cons_append, sightBytes, if_pos rfl]

end DataReader

namespace TBinary

/-- The reader of the binary has the bit. -/
def Covers (b : TBinary) (k : Nat) : Prop :=
  k < 8 * b.reader.contents.length

/-- What the first reader has behind the whole bytes is read from the second one as well. -/
def SameBehind (a b : TBinary) : Prop :=
  ∀ i, a.bitSize / 8 ≤ i → i < a.reader.contents.length → b.reader.read i = a.reader.read i

/-- Where two binaries of one size first differ both readers have the bit, and if they do not
differ the readers go on alike. -/
structure ReadersAgree (a b : TBinary) : Prop where
  differ : a.bitSize = b.bitSize → ∀ k, FirstDifference a.bits b.bits k →
    a.Covers k ∧ b.Covers k
  same : a.bits = b.bits → a.SameBehind b

variable {a b : TBinary} {k : Nat}

/-! ## What the readers have -/

theorem lt_bitSize (hb : b.WellFormed) {other : List Bool} (h : FirstDifference b.bits other k) :
    k < b.bitSize := by
  rw [← length_bits hb]
  exact h.left

theorem length_contents_ge (hb : b.WellFormed) : b.bitSize / 8 ≤ b.reader.contents.length := by
  rw [← length_byteList]
  exact List.IsPrefix.length_le <| byteList_prefix hb

/-- A reader that goes on with zeros has the whole binary. -/
theorem covers_of_padded (hb : b.WellFormed) (hpadded : b.reader.Padded) (hk : k < b.bitSize) :
    b.Covers k := by
  rw [reader] at hpadded
  cases hdata : b.byteReader with
  | some data =>
      rw [hdata] at hpadded
      exact hpadded.elim
  | none =>
      have hinside := inside_buffer hb
      rw [Covers, reader, hdata, DataReader.length_contents, DataReader.bitSize,
        byteSizeRoundedUp, BitReader.bitSize]
      omega

/-- The bits that the reader has are those of the binary, as far as both go. -/
theorem getElem?_contents (hb : b.WellFormed) (hk : k < b.bitSize) (hcovers : b.Covers k) :
    (BitString.bits b.reader.contents)[k]? = b.bits[k]? := by
  have hplace : k = 0 + 8 * (k / 8) + k % 8 := by omega
  have hbit : k % 8 < 8 := by omega
  rw [Covers, reader] at hcovers
  rw [getElem?_bits, reader]
  cases hdata : b.byteReader with
  | none =>
      rw [hdata] at hcovers
      have hlength : k / 8 < byteSizeRoundedUp b.bitReader.bitSize := by
        simp only [DataReader.length_contents, DataReader.bitSize] at hcovers
        omega
      have hread : b.bits[0 + 8 * (k / 8) + k % 8]? =
          some (byteBit ((b.bitReader.addBitOffset 0).read (k / 8)) (k % 8)) :=
        getElem?_bits_of_lt hb hbit (by omega)
      rw [← hplace] at hread
      simp only [DataReader.contents, List.getElem?_map, List.getElem?_range hlength,
        Option.map_some]
      exact hread.symm
  | some data =>
      rw [hdata] at hcovers
      simp only [DataReader.contents] at hcovers ⊢
      obtain ⟨haligned, -, more, hmore⟩ := byteReader_eq_some hb hdata
      have hbyte : data[k / 8]? = b.bitReader.data[b.bitReader.offset / 8 + k / 8]? := by
        rw [← List.getElem?_drop, ← hmore, List.getElem?_append_left (by omega)]
      have hdivide : (b.bitReader.offset + k) / 8 = b.bitReader.offset / 8 + k / 8 := by omega
      have hmodulo : (b.bitReader.offset + k) % 8 = k % 8 := by omega
      rw [← getElem?_bitReader hb hk, getElem?_bits, hdivide, hmodulo, hbyte]

/-! ## What the comparison finds -/

variable (ha : a.WellFormed) (hb : b.WellFormed) (hsize : a.bitSize = b.bitSize)
include ha hb hsize

theorem length_bits_eq : a.bits.length = b.bits.length := by
  rw [length_bits ha, length_bits hb, hsize]

/-- Where both readers have the first bit that differs, it is the first that the readers have. -/
theorem firstDifference_contents (h : FirstDifference a.bits b.bits k) (hacovers : a.Covers k)
    (hbcovers : b.Covers k) :
    FirstDifference (BitString.bits a.reader.contents) (BitString.bits b.reader.contents) k := by
  have hak := lt_bitSize ha h
  have hcovers : ∀ i ≤ k, a.Covers i ∧ b.Covers i := by
    intro i hi
    exact ⟨Nat.lt_of_le_of_lt hi hacovers, Nat.lt_of_le_of_lt hi hbcovers⟩
  refine ⟨fun i hi => ?_, ?_, ?_, fun heq => h.differ ?_⟩
  · rw [getElem?_contents ha (by omega) (hcovers i hi.le).1,
      getElem?_contents hb (by omega) (hcovers i hi.le).2]
    exact h.same i hi
  · rwa [BitString.length_bits]
  · rwa [BitString.length_bits]
  · rwa [getElem?_contents ha hak hacovers, getElem?_contents hb (by omega) hbcovers] at heq

/-- What both readers have in front of a place up to which the binaries are the same. -/
theorem read_eq_of_lt (h : ∀ i < k, a.bits[i]? = b.bits[i]?) (hk : k ≤ a.bitSize) {i : Nat}
    (hi : i < k / 8) : b.reader.read i = a.reader.read i := by
  have hia : i < a.reader.contents.length :=
    Nat.lt_of_lt_of_le (show i < a.bitSize / 8 by omega) (length_contents_ge ha)
  have hib : i < b.reader.contents.length :=
    Nat.lt_of_lt_of_le (show i < b.bitSize / 8 by omega) (length_contents_ge hb)
  have hbyte : b.reader.contents[i] = a.reader.contents[i] := by
    apply byte_ext
    intro j hj
    have hbit := h (8 * i + j) (by omega)
    rw [← getElem?_contents ha (show 8 * i + j < a.bitSize by omega)
        (show 8 * i + j < 8 * a.reader.contents.length by omega),
      ← getElem?_contents hb (show 8 * i + j < b.bitSize by omega)
        (show 8 * i + j < 8 * b.reader.contents.length by omega),
      BitString.getElem?_bits_of_lt hj hia, BitString.getElem?_bits_of_lt hj hib] at hbit
    exact (Option.some.inj hbit).symm
  rw [DataReader.read_of_getElem? (List.getElem?_eq_getElem hia),
    DataReader.read_of_getElem? (List.getElem?_eq_getElem hib), hbyte]

/-- Binaries with the same bits are found equal when their readers go on alike. -/
theorem cmpBinary_eq_eq_iff (hbits : a.bits = b.bits) :
    a.cmpBinary b = .ok .eq ↔ a.SameBehind b := by
  rw [cmpBinary, if_neg (not_not.mpr hsize), DataReader.cmpReaderVsReader_eq_eq_iff]
  constructor
  · exact fun hsame i _ hi => hsame i hi
  · intro hbehind i hi
    by_cases hwhole : i < a.bitSize / 8
    · exact read_eq_of_lt ha hb hsize (fun j _ => by rw [hbits]) (Nat.le_refl _) hwhole
    · exact hbehind i (by omega) hi

theorem cmpBinary_of_covers (h : FirstDifference a.bits b.bits k) (hacovers : a.Covers k)
    (hbcovers : b.Covers k) : a.cmpBinary b = .ok (compare a.bits b.bits) := by
  have hcontents := firstDifference_contents ha hb hsize h hacovers hbcovers
  have hak := lt_bitSize ha h
  have hcompare : compare (BitString.bits a.reader.contents) (BitString.bits b.reader.contents)
      = compare a.bits b.bits := by
    have hx := getElem?_contents ha hak hacovers
    have hy := getElem?_contents hb (by omega) hbcovers
    rw [List.getElem?_eq_getElem h.left] at hx
    rw [List.getElem?_eq_getElem h.right] at hy
    rw [hcontents.compare_eq hx hy, h.compare_eq (List.getElem?_eq_getElem h.left)
      (List.getElem?_eq_getElem h.right)]
  rw [cmpBinary, if_neg (not_not.mpr hsize), ← hcompare]
  exact DataReader.cmpReaderVsReader_of_firstDifference hcontents

/-- A place that the first reader does not have is overlooked. -/
theorem cmpBinary_of_not_covers_left (h : FirstDifference a.bits b.bits k)
    (hcovers : ¬ a.Covers k) : a.cmpBinary b = .ok .eq := by
  have hak := lt_bitSize ha h
  rw [cmpBinary, if_neg (not_not.mpr hsize), DataReader.cmpReaderVsReader_eq_eq_iff]
  intro i hi
  refine read_eq_of_lt ha hb hsize h.same hak.le ?_
  rw [Covers] at hcovers
  omega

/-- Of a place that only the first reader has the second one is read out of bounds. -/
theorem cmpBinary_of_not_covers_right (h : FirstDifference a.bits b.bits k)
    (hacovers : a.Covers k) (hbcovers : ¬ b.Covers k) : (a.cmpBinary b).toOption = none := by
  have hak := lt_bitSize ha h
  have hpadded : ¬ b.reader.Padded :=
    fun hpadded => hbcovers (covers_of_padded hb hpadded (by omega))
  have hend : b.reader.contents.length = k / 8 := by
    have hge := length_contents_ge hb
    rw [Covers] at hbcovers
    omega
  rw [Covers] at hacovers
  have hfront : a.reader.contents.take (k / 8) = b.reader.contents := by
    apply List.ext_getElem?
    intro i
    by_cases hi : i < k / 8
    · have hia : i < a.reader.contents.length := by omega
      have hib : i < b.reader.contents.length := by omega
      have hread := read_eq_of_lt ha hb hsize h.same hak.le hi
      rw [DataReader.read_of_getElem? (List.getElem?_eq_getElem hia),
        DataReader.read_of_getElem? (List.getElem?_eq_getElem hib)] at hread
      rw [List.getElem?_take_of_lt hi, List.getElem?_eq_getElem hia,
        List.getElem?_eq_getElem hib]
      exact congrArg some (Except.ok.inj hread).symm
    · rw [List.getElem?_take_eq_none (by omega), List.getElem?_eq_none (by omega)]
  rw [cmpBinary, if_neg (not_not.mpr hsize), DataReader.toOption_cmpReaderVsReader,
    DataReader.sight, ← List.take_append_drop (k / 8) a.reader.contents, hfront]
  exact DataReader.forward_sightBytes_cut hpadded (by simp; omega)

/-- The comparison of two binaries of one size ends in the order of their bits exactly when
the readers agree. -/
theorem cmpBinary_eq_compare_iff :
    a.cmpBinary b = .ok (compare a.bits b.bits) ↔ a.ReadersAgree b := by
  rcases FirstDifference.eq_or_exists (length_bits_eq ha hb hsize) with hbits | ⟨k, hk⟩
  · have hnone : ∀ k, ¬ FirstDifference a.bits b.bits k := fun k h => h.ne hbits
    rw [hbits, Std.compare_self, cmpBinary_eq_eq_iff ha hb hsize hbits]
    exact ⟨fun h => ⟨fun _ k hk => absurd hk (hnone k), fun _ => h⟩, fun h => h.same hbits⟩
  · by_cases hacovers : a.Covers k
    · by_cases hbcovers : b.Covers k
      · refine iff_of_true (cmpBinary_of_covers ha hb hsize hk hacovers hbcovers) ?_
        refine ⟨fun _ i hi => ?_, fun hbits => absurd hbits hk.ne⟩
        rw [hi.unique hk]
        exact ⟨hacovers, hbcovers⟩
      · refine iff_of_false (fun h => ?_) fun h => hbcovers (h.differ hsize k hk).2
        have hcut := cmpBinary_of_not_covers_right ha hb hsize hk hacovers hbcovers
        rw [h] at hcut
        simp [Except.toOption] at hcut
    · refine iff_of_false (fun h => ?_) fun h => hacovers (h.differ hsize k hk).1
      rw [cmpBinary_of_not_covers_left ha hb hsize hk hacovers, Except.ok.injEq] at h
      exact hk.compare_ne_eq h.symm

omit hsize

/-- Two binaries are compared by their bits alone exactly when their readers agree. -/
theorem cmpBinary_eq_bitOrder_iff :
    a.cmpBinary b = .ok (bitOrder a.bits b.bits) ↔ a.ReadersAgree b := by
  rw [bitOrder, length_bits ha, length_bits hb]
  by_cases hsize : a.bitSize = b.bitSize
  · rw [if_neg (not_not.mpr hsize)]
    exact cmpBinary_eq_compare_iff ha hb hsize
  · rw [if_pos hsize, cmpBinary, if_pos hsize]
    refine iff_of_true rfl ⟨fun h => absurd h hsize, fun hbits => absurd ?_ hsize⟩
    rw [← length_bits ha, ← length_bits hb, hbits]

omit ha hb

/-- The bytes 1 and 2 at the end of a binary are before the bytes 1 and 3. -/
theorem cmpBinary_eq_bitOrder_iff_tail :
    (slice (processHeap 24 [0, 1, 2]) 8 16).cmpBinary (processHeap 16 [1, 3]) = .ok .lt ∧
      (slice (processHeap 24 [0, 1, 2]) 8 16).ReadersAgree (processHeap 16 [1, 3]) :=
  ⟨by decide, (cmpBinary_eq_bitOrder_iff (by decide) (by decide)).mp (by decide)⟩

/-- The byte reader of a slice of twelve bits ends after the first eight, where the reader of
the same bits as a binary of their own goes on; and the bit readers of two slices of the same
eight bits go on with what follows. -/
theorem not_cmpBinary_eq_bitOrder_twelve :
    ((processHeap 12 [0xAB, 0xC0]).WellFormed ∧
      (slice (processHeap 24 [0, 0xAB, 0xC0]) 8 12).WellFormed ∧
      (processHeap 12 [0xAB, 0xC0]).bits = (slice (processHeap 24 [0, 0xAB, 0xC0]) 8 12).bits ∧
      (processHeap 12 [0xAB, 0xC0]).cmpBinary (slice (processHeap 24 [0, 0xAB, 0xC0]) 8 12) =
        .error .indexOutOfBounds) ∧
    ((slice (processHeap 16 [0xAB, 0xCD]) 4 8).WellFormed ∧
      (slice (processHeap 16 [0x0B, 0xC0]) 4 8).WellFormed ∧
      (slice (processHeap 16 [0xAB, 0xCD]) 4 8).bits =
        (slice (processHeap 16 [0x0B, 0xC0]) 4 8).bits ∧
      (slice (processHeap 16 [0xAB, 0xCD]) 4 8).cmpBinary
        (slice (processHeap 16 [0x0B, 0xC0]) 4 8) = .ok .gt) := by
  decide

end TBinary

end Zeptobeam
