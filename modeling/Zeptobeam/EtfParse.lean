/-
Every byte string begins with an encoding of the external term format, or breaks off one or
leaves the format, by induction on its length.
-/
import Mathlib.Data.List.Induction
import Zeptobeam.EtfGrammar

namespace Zeptobeam

/-! ## Fields -/

theorem bigEndianBytes_append (k n : Nat) (b : UInt8) :
    bigEndianBytes (k + 1) (n * 256 + b.toNat) = bigEndianBytes k n ++ [b] := by
  have hb := UInt8.toNat_lt b
  have hdiv : (n * 256 + b.toNat) / 256 = n := by omega
  have hmod : (n * 256 + b.toNat) % 256 = b.toNat := by omega
  rw [bigEndianBytes, hdiv, hmod, UInt8.ofNat_toNat]

/-- Bytes are the digits of the number that they are. -/
theorem bigEndianBytes_bigEndian (bytes : List UInt8) :
    bigEndianBytes bytes.length (bigEndian bytes) = bytes := by
  induction bytes using List.reverseRecOn with
  | nil => rfl
  | append_singleton bytes b ih =>
      rw [List.length_append, List.length_singleton, bigEndian_append_singleton,
        bigEndianBytes_append, ih]

theorem bigEndian_lt (bytes : List UInt8) : bigEndian bytes < 256 ^ bytes.length := by
  have h := bigEndian_bigEndianBytes bytes.length (bigEndian bytes)
  rw [bigEndianBytes_bigEndian] at h
  rw [h]
  exact Nat.mod_lt _ (Nat.pow_pos (by decide))

/-- Bytes that are enough for a field begin with one. -/
theorem exists_field {width : Nat} {input : List UInt8} (h : width ≤ input.length) :
    ∃ size rest, size < 256 ^ width ∧ input = bigEndianBytes width size ++ rest := by
  have hlength : (input.take width).length = width := List.length_take_of_le h
  refine ⟨bigEndian (input.take width), input.drop width, ?_, ?_⟩
  · have hlt := bigEndian_lt (input.take width)
    rwa [hlength] at hlt
  · have hbytes := bigEndianBytes_bigEndian (input.take width)
    rw [hlength] at hbytes
    rw [hbytes, List.take_append_drop]

/-- Bytes of a size are there, or are cut. -/
theorem exists_data (size : Nat) (input : List UInt8) :
    (∃ data rest, data.length = size ∧ input = data ++ rest) ∨ input.length < size := by
  by_cases h : size ≤ input.length
  · exact .inl ⟨input.take size, input.drop size, List.length_take_of_le h,
      (List.take_append_drop size input).symm⟩
  · exact .inr (Nat.not_le.mp h)

/-! ## Terms -/

/-- The input begins with an encoding, or is broken. -/
def Parsed (input : List UInt8) : Prop :=
  (∃ t : Etf, ∃ rest, t.WellFormed ∧ input = t.bytes ++ rest) ∨
    ∃ b : Broken, b.WellFormed ∧ input = b.bytes

theorem Parsed.whole {input : List UInt8} (t : Etf) (rest : List UInt8) (ht : t.WellFormed)
    (h : input = t.bytes ++ rest) : Parsed input :=
  .inl ⟨t, rest, ht, h⟩

theorem Parsed.broken {input : List UInt8} (b : Broken) (hb : b.WellFormed)
    (h : input = b.bytes) : Parsed input :=
  .inr ⟨b, hb, h⟩

theorem Parsed.break {input : List UInt8} (p : BreakPoint) (hp : p.WellFormed)
    (h : input = p.bytes) : Parsed input :=
  .broken (.here p) (.here hp) h

/-- So many terms, one after the other, or fewer and a broken one. -/
theorem parsed_many {bound : Nat} (ih : ∀ input, input.length ≤ bound → Parsed input)
    (count : Nat) (input : List UInt8) (hbound : input.length ≤ bound) :
    (∃ ts rest, ts.length = count ∧ (∀ t ∈ ts, t.WellFormed) ∧
        input = Etf.bytesOfAll ts ++ rest) ∨
      ∃ before next, before.length < count ∧ (∀ t ∈ before, Etf.WellFormed t) ∧
        Broken.WellFormed next ∧ input = Etf.bytesOfAll before ++ next.bytes := by
  induction count generalizing input with
  | zero => exact .inl ⟨[], input, rfl, by simp, rfl⟩
  | succ count ihcount =>
      rcases ih input hbound with ⟨t, rest, ht, rfl⟩ | ⟨b, hb, rfl⟩
      · rw [List.length_append] at hbound
        rcases ihcount rest (by omega) with
          ⟨ts, rest, hlength, hts, rfl⟩ | ⟨before, next, hlength, hbefore, hnext, rfl⟩
        · refine .inl ⟨t :: ts, rest, by simp [hlength], ?_, ?_⟩
          · exact List.forall_mem_cons.mpr ⟨ht, hts⟩
          · rw [Etf.bytesOfAll, List.append_assoc]
        · refine .inr ⟨t :: before, next, by simpa using hlength, ?_, hnext, ?_⟩
          · exact List.forall_mem_cons.mpr ⟨ht, hbefore⟩
          · rw [Etf.bytesOfAll, List.append_assoc]
      · exact .inr ⟨[], b, by simp, by simp, hb, rfl⟩

section Tags

variable {size : Nat} {rest : List UInt8}

theorem parsed_integer (hsize : size < 2 ^ 32) :
    Parsed (98 :: bigEndianBytes 4 size ++ rest) := by
  have hvalue : (Int.bmod size (2 ^ 32) % 2 ^ 32).toNat = size := by
    rw [Int.bmod_def]
    omega
  have hrange : -2 ^ 31 ≤ Int.bmod size (2 ^ 32) ∧ Int.bmod size (2 ^ 32) < 2 ^ 31 := by
    rw [Int.bmod_def]
    omega
  refine .whole (.integer (Int.bmod size (2 ^ 32))) rest (.integer hrange.1 hrange.2) ?_
  rw [Etf.bytes, hvalue]

theorem parsed_string (hsize : size < 2 ^ 16) :
    Parsed (107 :: bigEndianBytes 2 size ++ rest) := by
  rcases exists_data size rest with ⟨data, rest, rfl, rfl⟩ | hcut
  · exact .whole (.string data) rest (.string hsize) (by simp [Etf.bytes])
  · exact .break (.cutString size rest) ⟨hcut, hsize⟩ rfl

theorem parsed_latin1 (hsize : size < 2 ^ 16) :
    Parsed (100 :: bigEndianBytes 2 size ++ rest) := by
  rcases exists_data size rest with ⟨data, rest, rfl, rfl⟩ | hcut
  · exact .whole (.atomLatin1 data) rest (.atomLatin1 hsize) (by simp [Etf.bytes])
  · exact .break (.cutLatin1 size rest) ⟨hcut, hsize⟩ rfl

theorem parsed_binary (hsize : size < 2 ^ 32) :
    Parsed (109 :: bigEndianBytes 4 size ++ rest) := by
  rcases exists_data size rest with ⟨data, rest, rfl, rfl⟩ | hcut
  · exact .whole (.binary data) rest (.binary hsize) (by simp [Etf.bytes])
  · exact .break (.cutBinary size rest) ⟨hcut, hsize⟩ rfl

/-- Bytes that are valid UTF-8 are those of their text. -/
theorem nameBytes_of_decode {data : List UInt8} {text : List Char}
    (h : LineFile.decode data = some text) : nameBytes (String.ofList text) = data := by
  rw [LineFile.eq_encode_of_decode h, nameBytes, String.toByteArray_ofList,
    ← LineFile.toByteArray_encode]
  simp

theorem parsed_utf8 (wide : Bool) (hsize : size < if wide then 2 ^ 16 else 2 ^ 8) :
    Parsed ((if wide then 118 :: bigEndianBytes 2 size else 119 :: bigEndianBytes 1 size)
      ++ rest) := by
  rcases exists_data size rest with ⟨data, rest, rfl, rfl⟩ | hcut
  · cases hdecode : LineFile.decode data with
    | none =>
        refine .break (.invalidUtf8 wide data rest) ⟨hdecode, hsize⟩ ?_
        cases wide <;> simp [BreakPoint.bytes]
    | some text =>
        have hname := nameBytes_of_decode hdecode
        refine .whole (.atomUtf8 wide (String.ofList text)) rest (.atomUtf8 ?_) ?_
        · rwa [hname]
        · cases wide <;> simp [Etf.bytes, hname]
  · refine .break (.cutUtf8 wide size rest) ⟨hcut, hsize⟩ ?_
    cases wide <;> simp [BreakPoint.bytes]

theorem parsed_big (wide : Bool) (hsize : size < Etf.sizeLimit wide) :
    Parsed (Etf.sized wide 111 110 size ++ rest) := by
  cases rest with
  | nil => exact .break (.cutSign wide size) hsize (by simp [BreakPoint.bytes])
  | cons sign rest =>
      rcases exists_data size rest with ⟨data, rest, rfl, rfl⟩ | hcut
      · exact .whole (.big wide sign data) rest (.big hsize) (by simp [Etf.bytes])
      · exact .break (.cutBig wide size sign rest) ⟨hcut, hsize⟩ rfl

variable {bound : Nat} (ih : ∀ input, input.length ≤ bound → Parsed input)
  (hbound : rest.length ≤ bound)

include ih hbound

theorem parsed_tuple (wide : Bool) (hsize : size < Etf.sizeLimit wide) :
    Parsed (Etf.sized wide 105 104 size ++ rest) := by
  rcases parsed_many ih size rest hbound with
    ⟨ts, rest, rfl, hts, rfl⟩ | ⟨before, next, hlength, hbefore, hnext, rfl⟩
  · exact .whole (.tuple wide ts) rest (.tuple hsize hts) (by simp [Etf.bytes])
  · exact .broken (.inTuple wide size before next) (.inTuple hsize hlength hbefore hnext) rfl

theorem parsed_list (hsize : size < 2 ^ 32) :
    Parsed (108 :: bigEndianBytes 4 size ++ rest) := by
  by_cases hzero : size = 0
  · rw [hzero]
    exact .whole .noList rest .noList rfl
  · rcases parsed_many ih size rest hbound with
      ⟨ts, rest, rfl, hts, rfl⟩ | ⟨before, next, hlength, hbefore, hnext, rfl⟩
    · have hne : ts ≠ [] := fun h => hzero (by rw [h]; rfl)
      rw [List.length_append] at hbound
      rcases ih rest (by omega) with ⟨tail, rest, htail, rfl⟩ | ⟨b, hb, rfl⟩
      · exact .whole (.list ts tail) rest (.list hne hsize hts htail) (by simp [Etf.bytes])
      · exact .broken (.inTail ts b) (.inTail hne hsize hts hb) rfl
    · exact .broken (.inList size before next) (.inList hsize hlength hbefore hnext) rfl

theorem parsed_map (hsize : size < 2 ^ 32) :
    Parsed (116 :: bigEndianBytes 4 size ++ rest) := by
  rcases parsed_many ih (2 * size) rest hbound with
    ⟨ts, rest, hlength, hts, rfl⟩ | ⟨before, next, hlength, hbefore, hnext, rfl⟩
  · have hhalf : ts.length / 2 = size := by omega
    refine .whole (.map ts) rest (.map (by omega) (by omega) hts) ?_
    simp [Etf.bytes, hhalf]
  · by_cases heven : before.length % 2 = 0
    · exact .broken (.inKey size before next) (.inKey hsize heven (by omega) hbefore hnext) rfl
    · obtain ⟨before, key, rfl⟩ : ∃ front key, before = front ++ [key] := by
        rcases List.eq_nil_or_concat before with rfl | ⟨front, key, rfl⟩
        · simp at heven
        · exact ⟨front, key, by simp⟩
      have hbefore' : ∀ t ∈ before, t.WellFormed := fun t ht =>
        hbefore t (List.mem_append_left _ ht)
      have hkey : key.WellFormed := hbefore key (by simp)
      rw [List.length_append, List.length_singleton] at heven hlength
      refine .broken (.inValue size before key next)
        (.inValue hsize (by omega) (by omega) hbefore' hkey hnext) ?_
      simp [Broken.bytes, Etf.bytesOfAll_append, Etf.bytesOfAll]

end Tags

theorem parsed_of_field {bound : Nat} (ih : ∀ input, input.length ≤ bound → Parsed input)
    (tag : UInt8) {width : Nat} (htag : tagField tag.toNat = some width)
    (input : List UInt8) (hbound : input.length ≤ bound) : Parsed (tag :: input) := by
  by_cases hcut : input.length < width
  · exact .break (.cutField tag input) ⟨width, htag, hcut⟩ rfl
  · obtain ⟨size, rest, hsize, rfl⟩ := exists_field (Nat.not_lt.mp hcut)
    have hrest : rest.length ≤ bound := by
      rw [List.length_append] at hbound
      omega
    have htags : ∀ n : UInt8, tag.toNat = n.toNat → tag = n := fun n => UInt8.toNat_inj.mp
    unfold tagField at htag
    split at htag <;> simp only [Option.some.injEq, reduceCtorEq] at htag
    all_goals subst htag
    case h_1 h => rw [htags 97 h]; exact .whole (.smallInteger _) rest (.smallInteger _) rfl
    case h_2 h => rw [htags 98 h]; exact parsed_integer hsize
    case h_3 h => rw [htags 100 h]; exact parsed_latin1 hsize
    case h_4 h => rw [htags 104 h]; exact parsed_tuple ih hrest false hsize
    case h_5 h => rw [htags 105 h]; exact parsed_tuple ih hrest true hsize
    case h_6 h => rw [htags 106 h]; exact .whole .nil rest .nil rfl
    case h_7 h => rw [htags 107 h]; exact parsed_string hsize
    case h_8 h => rw [htags 108 h]; exact parsed_list ih hrest hsize
    case h_9 h => rw [htags 109 h]; exact parsed_binary hsize
    case h_10 h => rw [htags 110 h]; exact parsed_big false hsize
    case h_11 h => rw [htags 111 h]; exact parsed_big true hsize
    case h_12 h => rw [htags 116 h]; exact parsed_map ih hrest hsize
    case h_13 h => rw [htags 118 h]; exact parsed_utf8 true hsize
    case h_14 h => rw [htags 119 h]; exact parsed_utf8 false hsize

/-- Every byte string begins with an encoding, or is broken. -/
theorem parsed (input : List UInt8) : Parsed input := by
  generalize hbound : input.length = bound
  replace hbound := Nat.le_of_eq hbound
  induction bound generalizing input with
  | zero =>
      rw [List.eq_nil_of_length_eq_zero (Nat.le_zero.mp hbound)]
      exact .break .ended trivial rfl
  | succ bound ih =>
      cases input with
      | nil => exact .break .ended trivial rfl
      | cons tag rest =>
          cases htag : tagField tag.toNat with
          | none => exact .break (.unknownTag tag rest) htag rfl
          | some width => exact parsed_of_field ih tag htag rest (by simpa using hbound)

end Zeptobeam
