/-
UTF-8 segments of binaries.  A code point is read byte by byte at the position of a match
context, and validated on the way; skipping one validates the bytes, but not that the code
point is one of Unicode.
-/
import Zeptobeam.BitReading
import Zeptobeam.MatchState

namespace Zeptobeam

/-- The sequence length in bytes, and the bits of the first byte. -/
def utf8DecodeFirstByte (byte : UInt8) : Option (Nat × Nat) :=
  if byte < 0x80 then some (1, byte.toNat)
  else if byte &&& 0xE0 = 0xC0 then some (2, (byte &&& 0x1F).toNat)
  else if byte &&& 0xF0 = 0xE0 then some (3, (byte &&& 0x0F).toNat)
  else if byte &&& 0xF8 = 0xF0 then some (4, (byte &&& 0x07).toNat)
  else none

/-- The bits of `count` continuation bytes from byte `i` on, behind those there are. -/
def addContinuation (reader : BitReader) (i : Nat) : Nat → Nat → Option Nat
  | 0, codepoint => some codepoint
  | count + 1, codepoint =>
      let contByte := reader.read i
      if contByte &&& 0xC0 ≠ 0x80 then none
      else addContinuation reader (i + 1) count
        ((codepoint <<< 6) ||| (contByte &&& 0x3F).toNat)

/-- A sequence that a shorter one could stand for. -/
def overlong (charLen codepoint : Nat) : Bool :=
  match charLen with
  | 1 => false
  | 2 => codepoint < 0x80
  | 3 => codepoint < 0x800
  | 4 => codepoint < 0x10000
  | _ => true

def utf8DecodeContinuation (reader : BitReader) (codepoint charLen : Nat) : Option Nat :=
  match addContinuation reader 1 (charLen - 1) codepoint with
  | none => none
  | some codepoint =>
      if overlong charLen codepoint then none
      -- surrogate pairs
      else if 0xD800 ≤ codepoint ∧ codepoint ≤ 0xDFFF then none
      else some codepoint

/-- Validated bytes: how many there are, and what they stand for. -/
def utf8Decode (reader : BitReader) (remaining : Nat) : Option (Nat × Nat) :=
  match utf8DecodeFirstByte (reader.read 0) with
  | none => none
  | some (charLen, codepoint) =>
      if remaining < charLen * 8 then none
      else (utf8DecodeContinuation reader codepoint charLen).map fun codepoint =>
        (charLen, codepoint)

/-- `bs_get_utf8`: the code point and the match context after it; `none` jumps to the fail
label. -/
def bsGetUtf8 (debug : Bool) (m : BinaryMatchState) :
    Except Panic (Option (Nat × BinaryMatchState)) := do
  let remaining ← m.getBitsRemaining debug
  if remaining < 8 then return none
  match utf8Decode m.reader remaining with
  | none => return none
  | some (charLen, codepoint) =>
      -- `char::from_u32`
      if ¬ codepoint.isValidChar then return none
      return some (codepoint, m.increaseOffset (charLen * 8))

/-- `bs_skip_utf8`. -/
def bsSkipUtf8 (debug : Bool) (m : BinaryMatchState) :
    Except Panic (Option BinaryMatchState) := do
  let remaining ← m.getBitsRemaining debug
  if remaining < 8 then return none
  match utf8Decode m.reader remaining with
  | none => return none
  | some (charLen, _) => return some (m.increaseOffset (charLen * 8))

/-! ## Bytes -/

/-- What holds of 256 numbers holds of every byte. -/
theorem forall_byte {P : UInt8 → Prop} (h : ∀ n < 256, P (UInt8.ofNat n)) (b : UInt8) : P b := by
  have hb := h b.toNat b.toNat_lt
  rwa [UInt8.ofNat_toNat] at hb

/-- A continuation byte. -/
def Continues (b : UInt8) : Prop :=
  0x80 ≤ b.toNat ∧ b.toNat < 0xC0

instance (b : UInt8) : Decidable (Continues b) :=
  inferInstanceAs (Decidable (_ ∧ _))

theorem continues_iff (b : UInt8) : b &&& 0xC0 = 0x80 ↔ Continues b := by
  revert b
  apply forall_byte
  decide +kernel

theorem toNat_and_3F (b : UInt8) : (b &&& 0x3F).toNat = b.toNat % 64 :=
  Nat.and_two_pow_sub_one_eq_mod b.toNat 6

theorem firstByte_eq (b : UInt8) :
    utf8DecodeFirstByte b =
      if b.toNat < 0x80 then some (1, b.toNat)
      else if b.toNat < 0xC0 then none
      else if b.toNat < 0xE0 then some (2, b.toNat - 0xC0)
      else if b.toNat < 0xF0 then some (3, b.toNat - 0xE0)
      else if b.toNat < 0xF8 then some (4, b.toNat - 0xF0)
      else none := by
  revert b
  apply forall_byte
  decide +kernel

theorem addContinuation_succ (reader : BitReader) (i count codepoint : Nat) :
    addContinuation reader i (count + 1) codepoint =
      if Continues (reader.read i) then
        addContinuation reader (i + 1) count
          (codepoint * 64 + ((reader.read i).toNat - 0x80))
      else none := by
  have hcontinuation := continues_iff (reader.read i)
  rw [addContinuation]
  by_cases hbyte : Continues (reader.read i)
  · obtain ⟨hlow, hhigh⟩ := id hbyte
    have hmod : (reader.read i).toNat % 64 = (reader.read i).toNat - 0x80 := by omega
    have hor : codepoint <<< 6 ||| ((reader.read i).toNat - 0x80)
        = codepoint * 64 + ((reader.read i).toNat - 0x80) := by
      rw [← Nat.shiftLeft_add_eq_or_of_lt (by omega), Nat.shiftLeft_eq]
    rw [if_neg (not_not.mpr (hcontinuation.mpr hbyte)), if_pos hbyte, toNat_and_3F, hmod, hor]
  · rw [if_pos (fun heq => hbyte (hcontinuation.mp heq)), if_neg hbyte]

/-- What the validation of a sequence makes sure of. -/
theorem utf8DecodeContinuation_eq_some {reader : BitReader} {codepoint charLen value : Nat}
    (h : utf8DecodeContinuation reader codepoint charLen = some value) :
    addContinuation reader 1 (charLen - 1) codepoint = some value ∧
      overlong charLen value = false ∧ (value < 0xD800 ∨ 0xDFFF < value) := by
  unfold utf8DecodeContinuation at h
  split at h
  next => cases h
  next decoded hdecoded =>
    split at h
    next => cases h
    next hlong =>
      split at h
      next => cases h
      next hsurrogate =>
        cases h
        refine ⟨hdecoded, by simpa using hlong, by omega⟩

/-! ## Skipping -/

/-- A well-formed sequence for a code point behind those of Unicode. -/
def AboveUnicode (reader : BitReader) (remaining : Nat) : Prop :=
  32 ≤ remaining ∧
    ((reader.read 0).toNat = 0xF4 ∧ 0x90 ≤ (reader.read 1).toNat ∨
      0xF5 ≤ (reader.read 0).toNat ∧ (reader.read 0).toNat < 0xF8) ∧
    Continues (reader.read 1) ∧ Continues (reader.read 2) ∧ Continues (reader.read 3)

variable {reader : BitReader} {remaining charLen codepoint value : Nat}

theorem addContinuation_eq_some {i count : Nat}
    (h : addContinuation reader i (count + 1) codepoint = some value) :
    Continues (reader.read i) ∧ addContinuation reader (i + 1) count
      (codepoint * 64 + ((reader.read i).toNat - 0x80)) = some value := by
  rw [addContinuation_succ] at h
  split at h
  next hbyte => exact ⟨hbyte, h⟩
  next => cases h

/-- Three continuation bytes, all together. -/
theorem addContinuation_three :
    addContinuation reader 1 3 codepoint = some value ↔
      (Continues (reader.read 1) ∧ Continues (reader.read 2) ∧ Continues (reader.read 3)) ∧
        value = ((codepoint * 64 + ((reader.read 1).toNat - 0x80)) * 64 +
          ((reader.read 2).toNat - 0x80)) * 64 + ((reader.read 3).toNat - 0x80) := by
  constructor
  · intro h
    obtain ⟨h1, h⟩ := addContinuation_eq_some h
    obtain ⟨h2, h⟩ := addContinuation_eq_some h
    obtain ⟨h3, h⟩ := addContinuation_eq_some h
    rw [addContinuation, Option.some.injEq] at h
    exact ⟨⟨h1, h2, h3⟩, h.symm⟩
  · rintro ⟨⟨h1, h2, h3⟩, hvalue⟩
    rw [addContinuation_succ, if_pos h1, addContinuation_succ, if_pos h2, addContinuation_succ,
      if_pos h3, addContinuation, hvalue]

/-- The bits of the first byte bound what continuation bytes make of them. -/
theorem addContinuation_lt {i count : Nat}
    (h : addContinuation reader i count codepoint = some value) :
    value < (codepoint + 1) * 64 ^ count := by
  induction count generalizing i codepoint with
  | zero =>
      cases h
      omega
  | succ count ih =>
      obtain ⟨hbyte, hrest⟩ := addContinuation_eq_some h
      have hle : codepoint * 64 + ((reader.read i).toNat - 0x80) + 1
          ≤ (codepoint + 1) * 64 := by
        unfold Continues at hbyte
        omega
      have hmul := Nat.mul_le_mul_right (64 ^ count) hle
      rw [Nat.pow_succ', ← Nat.mul_assoc]
      exact Nat.lt_of_lt_of_le (ih hrest) hmul

/-- A sequence that was validated is of Unicode, but for the largest ones. -/
theorem not_isValidChar_iff (h : utf8Decode reader remaining = some (charLen, value)) :
    ¬ value.isValidChar ↔ AboveUnicode reader remaining := by
  have hfirst := firstByte_eq (reader.read 0)
  unfold utf8Decode at h
  split at h
  next => cases h
  next len codepoint hlead =>
    rw [hlead] at hfirst
    split at h
    next => cases h
    next hroom =>
      obtain ⟨decoded, hdecoded, heq⟩ := Option.map_eq_some_iff.mp h
      obtain ⟨rfl, rfl⟩ := Prod.mk.inj heq
      obtain ⟨hadd, hlong, hsurrogate⟩ := utf8DecodeContinuation_eq_some hdecoded
      have hbound := addContinuation_lt hadd
      unfold AboveUnicode Nat.isValidChar
      split at hfirst
      next hone =>
        cases hfirst
        omega
      next =>
        split at hfirst
        next => cases hfirst
        next =>
          split at hfirst
          next htwo =>
            obtain ⟨rfl, hbits⟩ := Prod.mk.inj (Option.some.inj hfirst)
            rw [hbits] at hbound
            simp only [Nat.reduceSub, Nat.reducePow] at hbound
            omega
          next =>
            split at hfirst
            next hthree =>
              obtain ⟨rfl, hbits⟩ := Prod.mk.inj (Option.some.inj hfirst)
              rw [hbits] at hbound
              simp only [Nat.reduceSub, Nat.reducePow] at hbound
              omega
            next =>
              split at hfirst
              next hfour =>
                obtain ⟨rfl, hbits⟩ := Prod.mk.inj (Option.some.inj hfirst)
                obtain ⟨hbytes, hvalue⟩ := addContinuation_three.mp hadd
                simp only [hbytes, and_true]
                rw [hbits] at hvalue
                unfold Continues at hbytes
                simp only [overlong, decide_eq_false_iff_not] at hlong
                omega
              next => cases hfirst

theorem utf8Decode_of_aboveUnicode (h : AboveUnicode reader remaining) :
    ∃ value, utf8Decode reader remaining = some (4, value) := by
  obtain ⟨hroom, hlead, hbytes⟩ := h
  have hfirst : utf8DecodeFirstByte (reader.read 0)
      = some (4, (reader.read 0).toNat - 0xF0) := by
    rw [firstByte_eq, if_neg (by omega), if_neg (by omega), if_neg (by omega),
      if_neg (by omega), if_pos (by omega)]
  obtain ⟨value, hvalue⟩ : ∃ value,
      addContinuation reader 1 3 ((reader.read 0).toNat - 0xF0) = some value :=
    ⟨_, addContinuation_three.mpr ⟨hbytes, rfl⟩⟩
  have hlarge : 0x110000 ≤ value := by
    have heq := (addContinuation_three.mp hvalue).2
    unfold Continues at hbytes
    omega
  have hvalid : utf8DecodeContinuation reader ((reader.read 0).toNat - 0xF0) 4 = some value := by
    have hlong : overlong 4 value = false := by
      simp only [overlong, decide_eq_false_iff_not]
      omega
    rw [utf8DecodeContinuation, hvalue]
    simp only [hlong, Bool.false_eq_true, if_false]
    rw [if_neg (by omega)]
  refine ⟨value, ?_⟩
  unfold utf8Decode
  simp only [hfirst, hvalid]
  rw [if_neg (by omega)]
  rfl

/-- The match context after a code point was got or skipped, if one was. -/
def afterUtf8 (got : Except Panic (Option (Nat × BinaryMatchState))) :
    Except Panic (Option BinaryMatchState) :=
  got.map (Option.map Prod.snd)

/-- A code point is skipped exactly as it is got, but for one behind those of Unicode, which
is skipped all the same. -/
theorem bsSkipUtf8_eq_iff (debug : Bool) (m : BinaryMatchState) :
    bsSkipUtf8 debug m = afterUtf8 (bsGetUtf8 debug m) ↔
      ∀ remaining, m.getBitsRemaining debug = .ok remaining →
        ¬ AboveUnicode m.reader remaining := by
  unfold bsSkipUtf8 bsGetUtf8
  cases m.getBitsRemaining debug with
  | error panic => exact iff_of_true rfl (fun remaining h => by cases h)
  | ok remaining =>
      simp only [Except.ok.injEq, forall_eq', bind, Except.bind]
      by_cases hbyte : remaining < 8
      · rw [if_pos hbyte, if_pos hbyte]
        refine iff_of_true rfl (fun habove => ?_)
        have hroom := habove.1
        omega
      · rw [if_neg hbyte, if_neg hbyte]
        cases hdecode : utf8Decode m.reader remaining with
        | none =>
            refine iff_of_true rfl (fun habove => ?_)
            obtain ⟨value, hvalue⟩ := utf8Decode_of_aboveUnicode habove
            rw [hdecode] at hvalue
            cases hvalue
        | some p =>
            rw [← not_isValidChar_iff hdecode, not_not]
            by_cases hchar : p.2.isValidChar
            · refine iff_of_true ?_ hchar
              simp only [hchar]
              rfl
            · refine iff_of_false ?_ hchar
              simp only [hchar]
              intro heq
              cases heq

/-- Four bytes for the code point 110000 (in hexadecimal). -/
theorem bsSkipUtf8_above :
    let m := BinaryMatchState.new (.processHeap 32 [0xF4, 0x90, 0x80, 0x80])
    bsSkipUtf8 true m = .ok (some (m.increaseOffset 32)) ∧ bsGetUtf8 true m = .ok none ∧
      bsSkipUtf8 true m ≠ afterUtf8 (bsGetUtf8 true m) := by
  decide +kernel

end Zeptobeam
