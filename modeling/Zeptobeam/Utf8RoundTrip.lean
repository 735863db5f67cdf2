/-
Code points put into a binary, and got back.  The builder writes whole bytes, from the byte
its offset lies in, while the match context reads at the bit; and the code point that is put
is the low 32 bits of a small integer.
-/
import Zeptobeam.LiteralHeap
import Zeptobeam.TermCompare
import Zeptobeam.Utf8

namespace Zeptobeam

open BitString

/-- An instruction goes on, jumps to its fail label, or raises `badarg`. -/
inductive OpResult (α : Type) where
  | next (result : α)
  | jump
  | badarg
deriving DecidableEq, Repr

/-- How an instruction fails, with a fail label and without one. -/
def failure {α : Type} (hasFail : Bool) : OpResult α :=
  if hasFail then .jump else .badarg

/-- `char::from_u32`, of the low 32 bits. -/
def charFromU32 (codepoint : Nat) : Option Char :=
  if h : (codepoint % 2 ^ 32).isValidChar then some (Char.ofNatAux (codepoint % 2 ^ 32) h)
  else none

/-- `bs_utf8_size`: the number of bytes. -/
def bsUtf8Size (debug hasFail : Bool) (src : Term) : Except Panic (OpResult Nat) :=
  match src with
  | .small value => do
      let codepoint ← getSmallUnsigned debug value
      match charFromU32 codepoint with
      | some c => return .next c.utf8Size
      | none => return failure hasFail
  | _ => .ok (failure hasFail)

structure ProcessHeapBinary where
  size : Nat
  data : List UInt8
deriving DecidableEq, Repr

namespace ProcessHeapBinary

def toBinary (bin : ProcessHeapBinary) : TBinary :=
  .processHeap bin.size bin.data

/-- As many bytes as the bits take. -/
def WellFormed (bin : ProcessHeapBinary) : Prop :=
  bin.data.length = byteSizeRoundedUp bin.size

end ProcessHeapBinary

/-- `CurrentBinaryState`: the binary that is built, and the bit that it is at. -/
structure CurrentBinaryState where
  dst : Option ProcessHeapBinary
  offset : Nat
deriving DecidableEq, Repr

/-- The bytes are written from byte `offs` on, as far as there is data. -/
def pasteBytes (data : List UInt8) (offs : Nat) : List UInt8 → List UInt8
  | [] => data
  | b :: bytes => pasteBytes (data.set offs b) (offs + 1) bytes

/-- `bs_put_utf8`. -/
def bsPutUtf8 (debug hasFail : Bool) (src : Term) (currentBin : CurrentBinaryState) :
    Except Panic (OpResult CurrentBinaryState) :=
  if debug ∧ currentBin.dst.isNone then .error .assertion
  else
    match src with
    | .small value => do
        let codepoint ← getSmallUnsigned debug value
        match charFromU32 codepoint with
        | none => return failure hasFail
        | some c =>
            let utf8Bytes := String.utf8EncodeChar c
            match currentBin.dst with
            | none => .error .unwrap
            | some dst =>
                let dst := { dst with
                  data := pasteBytes dst.data (byteSizeRoundedDown currentBin.offset) utf8Bytes }
                return .next ⟨some dst, currentBin.offset + 8 * utf8Bytes.length⟩
    | _ => .ok (failure hasFail)

/-! ## What is written -/

theorem length_pasteBytes (data bytes : List UInt8) (offs : Nat) :
    (pasteBytes data offs bytes).length = data.length := by
  induction bytes generalizing data offs with
  | nil => rfl
  | cons b bytes ih => rw [pasteBytes, ih, List.length_set]

/-- Behind the offset are the bytes, and the data is the same everywhere else. -/
theorem getElem?_pasteBytes (data bytes : List UInt8) (offs i : Nat) :
    (pasteBytes data offs bytes)[i]? =
      if offs ≤ i ∧ i < offs + bytes.length ∧ i < data.length then bytes[i - offs]?
      else data[i]? := by
  induction bytes generalizing data offs with
  | nil =>
      rw [pasteBytes, if_neg]
      simp only [List.length_nil]
      omega
  | cons b bytes ih =>
      rw [pasteBytes, ih, List.length_set, List.length_cons]
      by_cases hhere : offs = i
      · subst hhere
        rw [if_neg (by omega), List.getElem?_set, if_pos rfl]
        by_cases hin : offs < data.length
        · rw [if_pos hin, if_pos ⟨by omega, by omega, hin⟩, Nat.sub_self,
            List.getElem?_cons_zero]
        · rw [if_neg hin, if_neg (by omega), List.getElem?_eq_none (by omega)]
      · rw [List.getElem?_set, if_neg hhere]
        by_cases hin : offs + 1 ≤ i ∧ i < offs + 1 + bytes.length ∧ i < data.length
        · rw [if_pos hin, if_pos (by omega), show i - offs = i - (offs + 1) + 1 by omega,
            List.getElem?_cons_succ]
        · rw [if_neg hin, if_neg (by omega)]

/-! ## Decoding what was encoded -/

variable {reader : BitReader} {remaining charLen codepoint value : Nat}

/-- The reader is at these bytes. -/
def Spells (reader : BitReader) (bytes : List UInt8) : Prop :=
  ∀ i b, bytes[i]? = some b → reader.read i = b

theorem utf8DecodeContinuation_of_addContinuation
    (hadd : addContinuation reader 1 (charLen - 1) codepoint = some value)
    (hlong : overlong charLen value = false) (hvalid : value.isValidChar) :
    utf8DecodeContinuation reader codepoint charLen = some value := by
  unfold Nat.isValidChar at hvalid
  rw [utf8DecodeContinuation, hadd]
  simp only [hlong, Bool.false_eq_true, if_false]
  rw [if_neg (by omega)]

theorem utf8Decode_of_parts
    (hfirst : utf8DecodeFirstByte (reader.read 0) = some (charLen, codepoint))
    (hroom : 8 * charLen ≤ remaining)
    (hadd : addContinuation reader 1 (charLen - 1) codepoint = some value)
    (hlong : overlong charLen value = false) (hvalid : value.isValidChar) :
    utf8Decode reader remaining = some (charLen, value) := by
  unfold utf8Decode
  simp only [hfirst]
  rw [if_neg (by omega), utf8DecodeContinuation_of_addContinuation hadd hlong hvalid]
  rfl

/-- The continuation byte for six bits. -/
theorem continues_of_mod {b : UInt8} {n : Nat} (h : b.toNat = (n % 64 + 0x80) % 2 ^ 8) :
    Continues b := by
  unfold Continues
  omega

/-- A sequence is decoded to the code point that it encodes. -/
theorem utf8Decode_utf8EncodeChar {c : Char} (hbytes : Spells reader (String.utf8EncodeChar c))
    (hroom : 8 * c.utf8Size ≤ remaining) :
    utf8Decode reader remaining = some (c.utf8Size, c.toNat) := by
  have hvalid : c.toNat.isValidChar := c.valid
  have hbound : c.toNat < 0x110000 := by
    unfold Nat.isValidChar at hvalid
    omega
  have hfirst := firstByte_eq (reader.read 0)
  rw [← String.length_utf8EncodeChar] at hroom ⊢
  unfold String.utf8EncodeChar at hbytes hroom ⊢
  simp only [show c.val.toNat = c.toNat from rfl] at hbytes hroom ⊢
  split at hbytes
  next hone =>
    rw [if_pos hone] at hroom ⊢
    have h0 := congrArg UInt8.toNat (hbytes 0 _ rfl)
    simp only [UInt8.toNat_ofNat'] at h0
    refine utf8Decode_of_parts ?_ hroom rfl rfl hvalid
    rw [hfirst, if_pos (by omega), h0, Nat.mod_eq_of_lt (by omega)]
    rfl
  next hone =>
    rw [if_neg hone] at hroom ⊢
    split at hbytes
    next htwo =>
      rw [if_pos htwo] at hroom ⊢
      have h0 := congrArg UInt8.toNat (hbytes 0 _ rfl)
      have h1 := congrArg UInt8.toNat (hbytes 1 _ rfl)
      simp only [UInt8.toNat_ofNat'] at h0 h1
      have hlead : utf8DecodeFirstByte (reader.read 0) = some (2, c.toNat / 64) := by
        have hbits : (reader.read 0).toNat - 0xC0 = c.toNat / 64 := by omega
        rw [hfirst, if_neg (by omega), if_neg (by omega), if_pos (by omega), hbits]
      have hadd : addContinuation reader 1 1 (c.toNat / 64) = some c.toNat := by
        have hbits : c.toNat / 64 * 64 + ((reader.read 1).toNat - 0x80) = c.toNat := by omega
        rw [addContinuation_succ, if_pos (continues_of_mod h1), addContinuation, hbits]
      refine utf8Decode_of_parts hlead hroom hadd ?_ hvalid
      simp only [List.length_cons, List.length_nil, overlong, decide_eq_false_iff_not]
      omega
    next htwo =>
      rw [if_neg htwo] at hroom ⊢
      split at hbytes
      next hthree =>
        rw [if_pos hthree] at hroom ⊢
        have h0 := congrArg UInt8.toNat (hbytes 0 _ rfl)
        have h1 := congrArg UInt8.toNat (hbytes 1 _ rfl)
        have h2 := congrArg UInt8.toNat (hbytes 2 _ rfl)
        simp only [UInt8.toNat_ofNat'] at h0 h1 h2
        have hlead : utf8DecodeFirstByte (reader.read 0) = some (3, c.toNat / 4096) := by
          have hbits : (reader.read 0).toNat - 0xE0 = c.toNat / 4096 := by omega
          rw [hfirst, if_neg (by omega), if_neg (by omega), if_neg (by omega),
            if_pos (by omega), hbits]
        have hadd : addContinuation reader 1 2 (c.toNat / 4096) = some c.toNat := by
          have hbits : (c.toNat / 4096 * 64 + ((reader.read 1).toNat - 0x80)) * 64 +
              ((reader.read 2).toNat - 0x80) = c.toNat := by omega
          rw [addContinuation_succ, if_pos (continues_of_mod h1), addContinuation_succ,
            if_pos (continues_of_mod h2), addContinuation, hbits]
        refine utf8Decode_of_parts hlead hroom hadd ?_ hvalid
        simp only [List.length_cons, List.length_nil, overlong, decide_eq_false_iff_not]
        omega
      next hthree =>
        rw [if_neg hthree] at hroom ⊢
        have h0 := congrArg UInt8.toNat (hbytes 0 _ rfl)
        have h1 := congrArg UInt8.toNat (hbytes 1 _ rfl)
        have h2 := congrArg UInt8.toNat (hbytes 2 _ rfl)
        have h3 := congrArg UInt8.toNat (hbytes 3 _ rfl)
        simp only [UInt8.toNat_ofNat'] at h0 h1 h2 h3
        have hlead : utf8DecodeFirstByte (reader.read 0) = some (4, c.toNat / 262144) := by
          have hbits : (reader.read 0).toNat - 0xF0 = c.toNat / 262144 := by omega
          rw [hfirst, if_neg (by omega), if_neg (by omega), if_neg (by omega),
            if_neg (by omega), if_pos (by omega), hbits]
        have hadd : addContinuation reader 1 3 (c.toNat / 262144) = some c.toNat := by
          apply addContinuation_three.mpr
          refine ⟨⟨continues_of_mod h1, continues_of_mod h2, continues_of_mod h3⟩, ?_⟩
          omega
        refine utf8Decode_of_parts hlead hroom hadd ?_ hvalid
        simp only [List.length_cons, List.length_nil, overlong, decide_eq_false_iff_not]
        omega

/-! ## Round trips -/

/-- What is decoded is odd or even with the last byte of the sequence. -/
theorem addContinuation_mod_two {i count : Nat}
    (h : addContinuation reader i (count + 1) codepoint = some value) :
    value % 2 = (reader.read (i + count)).toNat % 2 := by
  induction count generalizing i codepoint with
  | zero =>
      obtain ⟨hbyte, hrest⟩ := addContinuation_eq_some h
      obtain rfl := Option.some.inj hrest
      unfold Continues at hbyte
      rw [Nat.add_zero]
      omega
  | succ count ih =>
      obtain ⟨_, hrest⟩ := addContinuation_eq_some h
      rw [ih hrest, show i + 1 + count = i + (count + 1) by omega]

theorem utf8Decode_mod_two (h : utf8Decode reader remaining = some (charLen, value)) :
    0 < charLen ∧ value % 2 = (reader.read (charLen - 1)).toNat % 2 := by
  have hfirst := firstByte_eq (reader.read 0)
  unfold utf8Decode at h
  split at h
  next => cases h
  next len codepoint hlead =>
    rw [hlead] at hfirst
    split at h
    next => cases h
    next hroom =>
      obtain ⟨decoded, hdecoded, heq⟩ := Option.map_eq_some_iff.mp h
      obtain ⟨rfl, rfl⟩ := Prod.mk.inj heq
      have hadd := (utf8DecodeContinuation_eq_some hdecoded).1
      have hlen : len = 1 ∧ codepoint = (reader.read 0).toNat ∨ ∃ more, len = more + 2 := by
        split_ifs at hfirst
        · exact Or.inl (Prod.mk.inj (Option.some.inj hfirst))
        · exact Or.inr ⟨0, (Prod.mk.inj (Option.some.inj hfirst)).1⟩
        · exact Or.inr ⟨1, (Prod.mk.inj (Option.some.inj hfirst)).1⟩
        · exact Or.inr ⟨2, (Prod.mk.inj (Option.some.inj hfirst)).1⟩
      rcases hlen with ⟨rfl, rfl⟩ | ⟨more, rfl⟩
      · cases hadd
        exact ⟨by omega, rfl⟩
      · refine ⟨by omega, ?_⟩
        have hparity : decoded % 2 = (reader.read (1 + more)).toNat % 2 :=
          addContinuation_mod_two hadd
        rwa [show 1 + more = more + 2 - 1 by omega] at hparity

/-- The term of an integer: a small one, where it fits. -/
def IntegerTerm (x : Int) (t : Term) : Prop :=
  if smallFits x then t = .small x else ∃ addr, t = .boxed addr .bigInteger

/-- A Unicode scalar value. -/
def IsScalar (x : Int) : Prop :=
  0 ≤ x ∧ x.toNat.isValidChar

/-- A match context of what is built, at a bit of it. -/
def contextAt (bin : ProcessHeapBinary) (offset : Nat) : BinaryMatchState :=
  (BinaryMatchState.new bin.toBinary).setOffset offset

/-- The code point is put into whatever is built, as long as it has room at the offset, and
got back from there; the size is that of both. -/
def RoundTrips (debug : Bool) (src : Term) (x : Int) (offset : Nat) : Prop :=
  ∀ hasFail, ∃ len, bsUtf8Size debug hasFail src = .ok (.next len) ∧
    ∀ dst : ProcessHeapBinary, dst.WellFormed → offset + 8 * len ≤ dst.size →
      ∃ built : ProcessHeapBinary,
        bsPutUtf8 debug hasFail src ⟨some dst, offset⟩ =
          .ok (.next ⟨some built, offset + 8 * len⟩) ∧
        bsGetUtf8 debug (contextAt built offset) =
          .ok (some (x.toNat, contextAt built (offset + 8 * len)))

/-- Both operations fail, whatever is built. -/
def Rejects (debug : Bool) (src : Term) : Prop :=
  ∀ hasFail, bsUtf8Size debug hasFail src = .ok (failure hasFail) ∧
    ∀ currentBin : CurrentBinaryState, currentBin.dst.isSome →
      bsPutUtf8 debug hasFail src currentBin = .ok (failure hasFail)

/-- The segment for an integer, at an offset. -/
def Utf8SegmentWorks (debug : Bool) (x : Int) (offset : Nat) : Prop :=
  ∀ src, IntegerTerm x src →
    (IsScalar x → RoundTrips debug src x offset) ∧ (¬ IsScalar x → Rejects debug src)

/-- The integer is small, and taken for a code point or not taken at all. -/
def Misread (debug : Bool) (x : Int) : Prop :=
  smallFits x ∧ ((debug ∧ x < 0) ∨ (x % 2 ^ 32).toNat.isValidChar)

variable {debug hasFail : Bool} {x : Int} {src : Term}

theorem integerTerm_small (h : smallFits x) : IntegerTerm x (.small x) := by
  rw [IntegerTerm, if_pos h]

theorem smallFits_of_isScalar (h : IsScalar x) : smallFits x := by
  unfold IsScalar Nat.isValidChar at h
  unfold smallFits
  omega

theorem getSmallUnsigned_of_isScalar (h : IsScalar x) :
    getSmallUnsigned debug x = .ok x.toNat := by
  unfold IsScalar Nat.isValidChar at h
  rw [getSmallUnsigned, if_neg (by omega), Int.emod_eq_of_lt (by omega) (by omega)]

theorem charFromU32_of_isValidChar {n : Nat} (h : (n % 2 ^ 32).isValidChar) :
    charFromU32 n = some (Char.ofNatAux (n % 2 ^ 32) h) :=
  dif_pos h

theorem charFromU32_eq_none {n : Nat} (h : ¬ (n % 2 ^ 32).isValidChar) :
    charFromU32 n = none :=
  dif_neg h

/-- A scalar value is the code point of a character. -/
theorem exists_char_of_isScalar (h : IsScalar x) :
    ∃ c, charFromU32 x.toNat = some c ∧ c.toNat = x.toNat := by
  have hlt : x.toNat % 2 ^ 32 = x.toNat := by
    obtain ⟨_, hvalid⟩ := h
    unfold Nat.isValidChar at hvalid
    exact Nat.mod_eq_of_lt (by omega)
  have hvalid : (x.toNat % 2 ^ 32).isValidChar := by
    rw [hlt]
    exact h.2
  refine ⟨_, charFromU32_of_isValidChar hvalid, ?_⟩
  exact hlt

/-- A scalar value is put as the bytes of its character. -/
theorem put_of_isScalar (h : IsScalar x) {c : Char} (hchar : charFromU32 x.toNat = some c)
    (dst : ProcessHeapBinary) (offset : Nat) :
    bsUtf8Size debug hasFail (.small x) = .ok (.next c.utf8Size) ∧
      bsPutUtf8 debug hasFail (.small x) ⟨some dst, offset⟩ =
        .ok (.next ⟨some { dst with
          data := pasteBytes dst.data (byteSizeRoundedDown offset) (String.utf8EncodeChar c) },
          offset + 8 * c.utf8Size⟩) := by
  constructor
  · rw [bsUtf8Size, getSmallUnsigned_of_isScalar h]
    simp only [bind, Except.bind, hchar]
    rfl
  · rw [bsPutUtf8, if_neg (by simp)]
    simp only [getSmallUnsigned_of_isScalar h, bind, Except.bind, hchar,
      String.length_utf8EncodeChar]
    rfl

/-- What is got at a place inside of what is built is what is decoded there. -/
theorem bsGetUtf8_contextAt {bin : ProcessHeapBinary} {offset : Nat}
    (hroom : offset + 8 ≤ bin.size) :
    bsGetUtf8 debug (contextAt bin offset) =
        .ok (some (value, contextAt bin (offset + 8 * charLen))) ↔
      utf8Decode ⟨bin.data, offset⟩ (bin.size - offset) = some (charLen, value) ∧
        value.isValidChar := by
  have hreader : (contextAt bin offset).reader = ⟨bin.data, offset⟩ := by
    simp [contextAt, BinaryMatchState.reader, BinaryMatchState.setOffset, BinaryMatchState.new,
      ProcessHeapBinary.toBinary, TBinary.bitReader, BitReader.addBitOffset]
  have hremaining : (contextAt bin offset).getBitsRemaining debug = .ok (bin.size - offset) :=
    BinaryMatchState.getBitsRemaining_of_le debug (Nat.le_of_add_right_le hroom)
  have hbyte : ¬ bin.size - offset < 8 := by omega
  rw [bsGetUtf8, hremaining, hreader]
  simp only [bind, Except.bind, if_neg hbyte]
  cases utf8Decode ⟨bin.data, offset⟩ (bin.size - offset) with
  | none => simp [pure, Except.pure]
  | some decoded =>
      obtain ⟨len, codepoint⟩ := decoded
      by_cases hvalid : codepoint.isValidChar
      · simp only [hvalid, not_true, if_false, pure, Except.pure, Except.ok.injEq,
          Option.some.injEq, Prod.mk.injEq]
        constructor
        · rintro ⟨rfl, hcontext⟩
          have hposition : offset + len * 8 = offset + 8 * charLen :=
            congrArg BinaryMatchState.readPosition hcontext
          exact ⟨⟨by omega, rfl⟩, hvalid⟩
        · rintro ⟨⟨rfl, rfl⟩, _⟩
          rw [Nat.mul_comm]
          exact ⟨rfl, rfl⟩
      · simp only [hvalid, not_false_eq_true, if_true, pure, Except.pure, Except.ok.injEq,
          Option.some.injEq, Prod.mk.injEq]
        refine iff_of_false (fun hnone => by cases hnone) ?_
        rintro ⟨⟨_, rfl⟩, hchar⟩
        exact hvalid hchar

/-- At a byte, what was put is read. -/
theorem spells_pasteBytes {bin : ProcessHeapBinary} {bytes : List UInt8} {offset : Nat}
    (haligned : offset % 8 = 0) (hbin : bin.WellFormed)
    (hroom : offset + 8 * bytes.length ≤ bin.size) :
    Spells ⟨pasteBytes bin.data (byteSizeRoundedDown offset) bytes, offset⟩ bytes := by
  intro i b hb
  have hi := (List.getElem?_eq_some_iff.mp hb).1
  have hlength : bin.data.length = (bin.size + 8 - 1) / 8 := hbin
  have hplace : (offset + i * 8) / 8 = offset / 8 + i := by omega
  have hbyte : (pasteBytes bin.data (offset / 8) bytes)[offset / 8 + i]? = some b := by
    rw [getElem?_pasteBytes, if_pos (by omega), Nat.add_sub_cancel_left, hb]
  simp only [BitReader.read, byteSizeRoundedDown]
  rw [hplace, hbyte]
  exact if_pos (by omega)

theorem roundTrips_of_aligned (h : IsScalar x) {offset : Nat} (haligned : offset % 8 = 0) :
    RoundTrips debug (.small x) x offset := by
  obtain ⟨c, hchar, htoNat⟩ := exists_char_of_isScalar h
  intro hasFail
  refine ⟨c.utf8Size, (put_of_isScalar h hchar ⟨0, []⟩ 0).1, ?_⟩
  intro dst hdst hroom
  have hpos := c.utf8Size_pos
  refine ⟨_, (put_of_isScalar h hchar dst offset).2, ?_⟩
  have hlength : offset + 8 * (String.utf8EncodeChar c).length ≤ dst.size := by
    rwa [String.length_utf8EncodeChar]
  rw [← htoNat, bsGetUtf8_contextAt (by simp only; omega)]
  exact ⟨utf8Decode_utf8EncodeChar (spells_pasteBytes haligned hdst hlength)
    (by simp only; omega), c.valid⟩

/-- Off the bytes, the last bit of a sequence lies in the byte behind those that were put,
and is what it was before. -/
theorem last_bit_of_roundTrips (h : IsScalar x) {offset : Nat} (hunaligned : offset % 8 ≠ 0)
    (hroundTrips : RoundTrips debug (.small x) x offset) (b : UInt8) :
    decide (x.toNat % 2 = 1) = byteBit b (offset % 8 - 1) := by
  obtain ⟨c, hchar, _⟩ := exists_char_of_isScalar h
  obtain ⟨len, hsize, hput⟩ := hroundTrips true
  rw [(put_of_isScalar h hchar ⟨0, []⟩ 0).1] at hsize
  obtain rfl : c.utf8Size = len := by simpa using hsize
  have hpos := c.utf8Size_pos
  obtain ⟨dst, hdstSize, hdstData⟩ : ∃ dst : ProcessHeapBinary,
      dst.size = offset + 8 * c.utf8Size ∧
        dst.data = List.replicate (offset / 8 + c.utf8Size + 1) b :=
    ⟨⟨_, _⟩, rfl, rfl⟩
  have hdst : dst.WellFormed := by
    rw [ProcessHeapBinary.WellFormed, hdstData, List.length_replicate, byteSizeRoundedUp]
    omega
  obtain ⟨built, hbuilt, hgot⟩ := hput dst hdst (by omega)
  rw [(put_of_isScalar h hchar dst offset).2] at hbuilt
  simp only [Except.ok.injEq, OpResult.next.injEq, CurrentBinaryState.mk.injEq,
    Option.some.injEq, and_true] at hbuilt
  subst hbuilt
  have hdecode := (bsGetUtf8_contextAt (by simp only; omega)).mp hgot
  rw [(utf8Decode_mod_two hdecode.1).2]
  have hlast : byteBit (BitReader.read ⟨pasteBytes dst.data (byteSizeRoundedDown offset)
      (String.utf8EncodeChar c), offset⟩ (c.utf8Size - 1)) 7 = byteBit b (offset % 8 - 1) := by
    have hplace : (offset + 8 * (c.utf8Size - 1) + 7) / 8 = offset / 8 + c.utf8Size := by omega
    have hbit : (offset + 8 * (c.utf8Size - 1) + 7) % 8 = offset % 8 - 1 := by omega
    have hbehind : (pasteBytes dst.data (byteSizeRoundedDown offset)
        (String.utf8EncodeChar c))[offset / 8 + c.utf8Size]? = some b := by
      rw [getElem?_pasteBytes, byteSizeRoundedDown, String.length_utf8EncodeChar,
        if_neg (by omega), hdstData, List.getElem?_replicate, if_pos (by omega)]
    rw [BitReader.byteBit_read _ _ (by decide), getElem?_bits, hplace, hbit, hbehind]
    rfl
  rw [← hlast, byteBit, Nat.testBit_zero]

theorem aligned_of_roundTrips (h : IsScalar x) {offset : Nat}
    (hroundTrips : RoundTrips debug (.small x) x offset) : offset % 8 = 0 := by
  by_contra hunaligned
  have hzeros := last_bit_of_roundTrips h hunaligned hroundTrips 0
  have hones := last_bit_of_roundTrips h hunaligned hroundTrips 255
  have hconstant : ∀ i < 8, byteBit 0 i ≠ byteBit 255 i := by decide
  exact hconstant (offset % 8 - 1) (by omega) (hzeros.symm.trans hones)

/-! ## What is no scalar value -/

/-- The low bits of the word are those of the integer. -/
theorem toNat_emod_mod (x : Int) : (x % 2 ^ 61).toNat % 2 ^ 32 = (x % 2 ^ 32).toNat := by
  omega

theorem rejects_boxed (debug : Bool) (addr : Nat) (object : Boxed) :
    Rejects debug (.boxed addr object) := by
  intro hasFail
  refine ⟨rfl, ?_⟩
  intro currentBin hvalid
  obtain ⟨dst, hdst⟩ := Option.isSome_iff_exists.mp hvalid
  simp [bsPutUtf8, hdst]

/-- A small integer is rejected unless it is misread. -/
theorem rejects_small_iff (hsmall : smallFits x) :
    Rejects debug (.small x) ↔ ¬ Misread debug x := by
  unfold Misread
  by_cases hassert : debug ∧ x < 0
  · refine iff_of_false ?_ (fun h => h ⟨hsmall, Or.inl hassert⟩)
    intro hrejects
    have hsize := (hrejects true).1
    rw [bsUtf8Size, getSmallUnsigned, if_pos hassert] at hsize
    cases hsize
  · have hcodepoint : getSmallUnsigned debug x = .ok (x % 2 ^ 61).toNat := if_neg hassert
    rw [← toNat_emod_mod]
    by_cases hvalid : ((x % 2 ^ 61).toNat % 2 ^ 32).isValidChar
    · refine iff_of_false ?_ (fun h => h ⟨hsmall, Or.inr hvalid⟩)
      intro hrejects
      have hsize := (hrejects true).1
      obtain ⟨c, hchar⟩ : ∃ c, charFromU32 (x % 2 ^ 61).toNat = some c :=
        ⟨_, charFromU32_of_isValidChar hvalid⟩
      rw [bsUtf8Size, hcodepoint] at hsize
      simp only [bind, Except.bind, hchar] at hsize
      cases hsize
    · refine iff_of_true ?_ (fun h => h.2.elim hassert hvalid)
      have hnone := charFromU32_eq_none hvalid
      intro hasFail
      constructor
      · rw [bsUtf8Size, hcodepoint]
        simp only [bind, Except.bind, hnone]
        rfl
      · intro currentBin hdst
        obtain ⟨dst, hdst⟩ := Option.isSome_iff_exists.mp hdst
        rw [bsPutUtf8, if_neg (by simp [hdst])]
        simp only [hcodepoint, bind, Except.bind, hnone]
        rfl

/-- A segment works at the offsets that are whole bytes, for a scalar value, and where it is
not misread, for any other integer. -/
theorem utf8SegmentWorks_iff (debug : Bool) (x : Int) (offset : Nat) :
    Utf8SegmentWorks debug x offset ↔
      (IsScalar x → offset % 8 = 0) ∧ (¬ IsScalar x → ¬ Misread debug x) := by
  by_cases hscalar : IsScalar x
  · have hterm : ∀ src, IntegerTerm x src ↔ src = .small x := by
      intro src
      rw [IntegerTerm, if_pos (smallFits_of_isScalar hscalar)]
    simp only [Utf8SegmentWorks, hterm, forall_eq, hscalar, not_true, forall_true_left,
      false_implies, and_true]
    exact ⟨aligned_of_roundTrips hscalar, roundTrips_of_aligned hscalar⟩
  · simp only [Utf8SegmentWorks, hscalar, not_false_eq_true, forall_true_left, false_implies,
      true_and]
    by_cases hsmall : smallFits x
    · simp only [IntegerTerm, if_pos hsmall, forall_eq]
      exact rejects_small_iff hsmall
    · simp only [IntegerTerm, if_neg hsmall]
      refine iff_of_true ?_ (fun h => hsmall h.1)
      rintro _ ⟨addr, rfl⟩
      exact rejects_boxed debug addr .bigInteger

/-- The letter `A` half a byte further on, and a number with its low bits. -/
theorem not_utf8SegmentWorks_letter :
    ¬ Utf8SegmentWorks true 65 4 ∧ ¬ Utf8SegmentWorks true (2 ^ 32 + 65) 0 := by
  constructor
  · intro hworks
    have hscalar : IsScalar 65 := by
      unfold IsScalar
      decide
    have haligned := aligned_of_roundTrips hscalar
      ((hworks (.small 65) (integerTerm_small (smallFits_of_isScalar hscalar))).1 hscalar)
    cases haligned
  · intro hworks
    have hnot : ¬ IsScalar (2 ^ 32 + 65) := by
      unfold IsScalar
      decide
    have hsmall : smallFits (2 ^ 32 + 65) := by decide
    have hrejects := (hworks (.small (2 ^ 32 + 65)) (integerTerm_small hsmall)).2 hnot
    refine (rejects_small_iff hsmall).mp hrejects ⟨hsmall, Or.inr ?_⟩
    decide

end Zeptobeam
