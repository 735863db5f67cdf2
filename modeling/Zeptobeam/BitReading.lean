/-
The bits of a binary.  A sub-binary has those of its binary from its offset on, and the bit
reader of a binary reads them, eight at a time; what it reads behind them is whatever
follows in the data.
-/
import Zeptobeam.Lib.BitString
import Zeptobeam.BinaryReaders

namespace Zeptobeam

open BitString

/-- A byte that is read has the eight bits at its place; zeros follow the data. -/
theorem BitReader.byteBit_read (reader : BitReader) (n : Nat) {i : Nat} (hi : i < 8) :
    byteBit (reader.read n) i =
      ((bits reader.data)[reader.offset + 8 * n + i]?).getD false := by
  have hplace : reader.offset + 8 * n + i
      = 8 * ((reader.offset + n * 8) / 8) + ((reader.offset + n * 8) % 8 + i) := by omega
  generalize hbyte : (reader.offset + n * 8) / 8 = byteIx at hplace
  generalize hshift : (reader.offset + n * 8) % 8 = shift at hplace
  have hlt : shift < 8 := by omega
  rw [BitReader.read, hplace, getElem?_bits]
  simp only [hbyte, hshift]
  have hhere : shift + i < 8 → (8 * byteIx + (shift + i)) / 8 = byteIx ∧
      (8 * byteIx + (shift + i)) % 8 = shift + i := by omega
  have hnext : ¬ shift + i < 8 → (8 * byteIx + (shift + i)) / 8 = byteIx + 1 ∧
      (8 * byteIx + (shift + i)) % 8 = shift + i - 8 := by omega
  cases hdata : reader.data[byteIx]? with
  | none =>
      have hout := List.getElem?_eq_none_iff.mp hdata
      have hnone : reader.data[(8 * byteIx + (shift + i)) / 8]? = none :=
        List.getElem?_eq_none (by omega)
      rw [hnone]
      simp [byteBit]
  | some b0 =>
      dsimp only
      by_cases hzero : shift = 0
      · obtain ⟨hdiv, hmod⟩ := hhere (by omega)
        rw [if_pos hzero, hdiv, hmod, hdata, hzero, Nat.zero_add]
        rfl
      · rw [if_neg hzero, byteBit_across (by omega) hlt hi]
        by_cases hlow : shift + i < 8
        · obtain ⟨hdiv, hmod⟩ := hhere hlow
          rw [if_pos hlow, hdiv, hmod, hdata]
          rfl
        · obtain ⟨hdiv, hmod⟩ := hnext hlow
          rw [if_neg hlow, hdiv, hmod]
          cases reader.data[byteIx + 1]? with
          | none => simp [byteBit]
          | some b1 => rfl

namespace BitReader

/-- The sum of two words: a debug build stops at an overflow, a release build wraps. -/
def addOffsets (debug : Bool) (a b : Nat) : Option Nat :=
  if debug ∧ 2 ^ 64 ≤ a + b then none else some ((a + b) % 2 ^ 64)

/-- `add_bit_offset` of a word. -/
def addBitOffsetIn (debug : Bool) (reader : BitReader) (offs : Nat) : Option BitReader :=
  (addOffsets debug reader.offset offs).map fun offset => { reader with offset }

theorem addOffsets_comm (debug : Bool) (a b : Nat) :
    addOffsets debug a b = addOffsets debug b a := by
  rw [addOffsets, Nat.add_comm a b, addOffsets]

theorem bind_addOffsets (debug : Bool) (a b c : Nat) :
    (addOffsets debug a b).bind (addOffsets debug · c) =
      if debug ∧ 2 ^ 64 ≤ a + b + c then none else some ((a + b + c) % 2 ^ 64) := by
  by_cases hover : debug = true ∧ 2 ^ 64 ≤ a + b
  · have htotal : debug = true ∧ 2 ^ 64 ≤ a + b + c :=
      ⟨hover.1, Nat.le_add_right_of_le hover.2⟩
    rw [addOffsets, if_pos hover, if_pos htotal, Option.bind_none]
  · rw [addOffsets, if_neg hover, Option.bind_some, addOffsets, Nat.mod_add_mod]
    cases debug with
    | false => rfl
    | true =>
        have hfits : (a + b) % 2 ^ 64 = a + b := Nat.mod_eq_of_lt (by simpa using hover)
        rw [hfits]

/-- A byte that is read has the eight bits at its place, with zeros behind the data, and two
offsets are added like their sum. -/
theorem reads_at_any_offset (reader : BitReader) :
    (∀ n, byteBits (reader.read n) =
      ((bits reader.data).drop (reader.offset + 8 * n) ++ List.replicate 8 false).take 8) ∧
    (∀ o₁ o₂, (reader.addBitOffset o₁).addBitOffset o₂ = reader.addBitOffset (o₁ + o₂)) ∧
    ∀ debug o₁ o₂, ((reader.addBitOffsetIn debug o₁).bind fun r => r.addBitOffsetIn debug o₂) =
      (addOffsets debug o₁ o₂).bind fun offs => reader.addBitOffsetIn debug offs := by
  refine ⟨fun n => ?_, fun o₁ o₂ => ?_, fun debug o₁ o₂ => ?_⟩
  · apply List.ext_getElem?
    intro i
    by_cases hi : i < 8
    · rw [getElem?_byteBits hi, byteBit_read reader n hi, List.getElem?_take, if_pos hi]
      by_cases hin : reader.offset + 8 * n + i < (bits reader.data).length
      · rw [List.getElem?_append_left (by rw [List.length_drop]; omega), List.getElem?_drop,
          List.getElem?_eq_getElem hin]
        rfl
      · have hout := Nat.le_of_not_lt hin
        rw [List.getElem?_append_right (by rw [List.length_drop]; omega),
          List.getElem?_eq_none hout, List.getElem?_replicate, if_pos (by omega)]
        rfl
    · have hout := Nat.le_of_not_lt hi
      rw [List.getElem?_eq_none (by rwa [length_byteBits]), List.getElem?_take, if_neg hi]
  · simp only [addBitOffset, Nat.add_assoc]
  · have hleft := bind_addOffsets debug reader.offset o₁ o₂
    have hright := bind_addOffsets debug o₁ o₂ reader.offset
    rw [Nat.add_comm, ← Nat.add_assoc, ← hleft] at hright
    have hsame := congrArg (Option.map fun offset => { reader with offset }) hright
    simp only [addOffsets_comm debug _ reader.offset] at hsame
    simp only [addBitOffsetIn, Option.bind_map, Function.comp_def]
    simpa only [Option.map_bind, Function.comp_def] using hsame.symm

end BitReader

namespace TBinary

/-- The bits that a binary stands for. -/
def bits : TBinary → List Bool
  | processHeap size data => (BitString.bits data).take size
  | slice orig offset size => (orig.bits.drop offset).take size

theorem length_bits {b : TBinary} (hb : b.WellFormed) : b.bits.length = b.bitSize := by
  induction b with
  | processHeap size data =>
      obtain ⟨_, hdata⟩ := hb
      rw [bits, List.length_take, BitString.length_bits, hdata, byteSizeRoundedUp, bitSize]
      omega
  | slice orig offset size ih =>
      obtain ⟨horig, _, hsize⟩ := hb
      rw [bits, List.length_take, List.length_drop, ih horig, bitSize]
      omega

/-- The bit reader has the bits of the binary from its offset on. -/
theorem getElem?_bitReader {b : TBinary} (hb : b.WellFormed) {i : Nat} (hi : i < b.bitSize) :
    (BitString.bits b.bitReader.data)[b.bitReader.offset + i]? = b.bits[i]? := by
  induction b generalizing i with
  | processHeap size data =>
      rw [bits, bitReader, List.getElem?_take, if_pos (by exact hi), Nat.zero_add]
  | slice orig offset size ih =>
      obtain ⟨horig, _, hsize⟩ := hb
      have hi' : i < size := hi
      have horigBit := ih horig (i := offset + i) (by omega)
      rw [bits, List.getElem?_take, if_pos hi', List.getElem?_drop, ← horigBit]
      simp only [bitReader, BitReader.addBitOffset, Nat.add_assoc]

/-- A byte that is read at a bit offset, as far as it lies in the binary. -/
theorem byteBit_read {b : TBinary} (hb : b.WellFormed) {offset n i : Nat} (hi : i < 8)
    (hin : offset + 8 * n + i < b.bitSize) :
    byteBit ((b.bitReader.addBitOffset offset).read n) i =
      (b.bits[offset + 8 * n + i]?).getD false := by
  rw [BitReader.byteBit_read _ _ hi, ← getElem?_bitReader hb hin]
  simp only [BitReader.addBitOffset, Nat.add_assoc]

theorem getElem?_bits_of_lt {b : TBinary} (hb : b.WellFormed) {offset n i : Nat} (hi : i < 8)
    (hin : offset + 8 * n + i < b.bitSize) :
    b.bits[offset + 8 * n + i]? =
      some (byteBit ((b.bitReader.addBitOffset offset).read n) i) := by
  have hlt : offset + 8 * n + i < b.bits.length := by rwa [length_bits hb]
  rw [byteBit_read hb hi hin, List.getElem?_eq_getElem hlt, Option.getD_some]

/-- Two binaries have the same bytes from their offsets on when they have the same bits. -/
theorem read_eq_iff {a b : TBinary} (ha : a.WellFormed) (hb : b.WellFormed)
    {aOffset bOffset n : Nat} (haIn : aOffset + 8 * n ≤ a.bitSize)
    (hbIn : bOffset + 8 * n ≤ b.bitSize) :
    (∀ i < n, (a.bitReader.addBitOffset aOffset).read i =
        (b.bitReader.addBitOffset bOffset).read i) ↔
      (a.bits.drop aOffset).take (8 * n) = (b.bits.drop bOffset).take (8 * n) := by
  constructor
  · intro hread
    apply List.ext_getElem?
    intro j
    rw [List.getElem?_take, List.getElem?_take, List.getElem?_drop, List.getElem?_drop]
    by_cases hj : j < 8 * n
    · have hplace : j = 8 * (j / 8) + j % 8 := by omega
      have hbit : j % 8 < 8 := by omega
      rw [if_pos hj, if_pos hj, hplace, ← Nat.add_assoc, ← Nat.add_assoc,
        getElem?_bits_of_lt ha hbit (by omega), getElem?_bits_of_lt hb hbit (by omega),
        hread (j / 8) (by omega)]
    · rw [if_neg hj, if_neg hj]
  · intro hbits i hi
    apply byte_ext
    intro k hk
    have hbit := congrArg (fun l => l[8 * i + k]?) hbits
    simp only [List.getElem?_take, List.getElem?_drop, if_pos (show 8 * i + k < 8 * n by omega),
      ← Nat.add_assoc] at hbit
    rw [getElem?_bits_of_lt ha hk (by omega), getElem?_bits_of_lt hb hk (by omega)] at hbit
    exact Option.some.inj hbit

end TBinary

end Zeptobeam
