/-
What is left of the data after an integer was put: which bytes the routines write, where they
lie, and when all of that is the integer at its offset and nothing else.
-/
import Zeptobeam.BitsPlaced

namespace Zeptobeam

namespace BitsPaste

open BitString StateExcept

variable {debug : Bool} {flags : BsFlags} {dst dst' : List UInt8} {val : Int}

/-- The integer is written at the offset, and nothing else changes. -/
def PutsInteger (debug : Bool) (flags : BsFlags) (writeVal : BuildTerm) (v : Int) (size : Nat)
    (dst : List UInt8) (offset : Nat) : Prop :=
  ∃ dst', putInteger debug writeVal size dst offset flags = .ok dst' ∧
    PutsOnly dst dst' offset (integerBits flags v size)

theorem length_of_setAt {i : Int} {b : UInt8} (h : setAt dst i b = .ok dst') :
    (0 ≤ i ∧ i.toNat < dst.length) ∧ dst'.length = dst.length := by
  unfold setAt at h
  split at h
  next hin =>
    cases h
    exact ⟨hin, List.length_set⟩
  next => cases h

/-! ## Inside of one byte -/

/-- What the data has in the byte does not get in the way: it is not masked away at the start of
a byte, and is masked away behind bits that start inside. -/
def FitsByte (val : Int) (size : Nat) (dst : List UInt8) (offset : Nat) : Prop :=
  (offset % 8 = 0 →
    ∀ i < size, (bits dst)[offset + i]? = some true → intBit val (size - 1 - i) = true) ∧
  (offset % 8 ≠ 0 →
    ∀ i < 8, offset % 8 + size ≤ i → (bits dst)[8 * (offset / 8) + i]? = some false)

theorem keepFront_whole (b : UInt8) : keepFront b 8 = b :=
  UInt8.and_neg_one

theorem putsOnly_oneByte_iff {size offset : Nat} {old : UInt8} (hfit : offset % 8 + size < 8)
    (hold : dst[offset / 8]? = some old) :
    PutsOnly dst (dst.set (offset / 8) (keepFront old (8 - offset % 8) |||
        lowByte (val % 2 ^ size * 2 ^ (8 - offset % 8 - size)))) offset (intBits val size) ↔
      FitsByte val size dst offset := by
  have hplace : 8 * (offset / 8) + offset % 8 = offset := by omega
  have hbit (i : Nat) (hi : i < 8) :
      (bits dst)[8 * (offset / 8) + i]? = some (byteBit old i) := by
    rw [getElem?_bits_at _ _ hi, hold, Option.map_some]
  have hlow (i : Nat) (hi : i < 8) := @byteBit_lowByte_mul val _ size (offset % 8) i (by omega) hi
    rfl
  have hput := @putsOnly_set_iff dst (intBits val size) (keepFront old (8 - offset % 8) |||
    lowByte (val % 2 ^ size * 2 ^ (8 - offset % 8 - size))) old (offset / 8) (offset % 8) hold
    (by rw [length_intBits]; omega)
  rw [hplace, length_intBits] at hput
  rw [hput, FitsByte]
  by_cases hstart : offset % 8 = 0
  · have hoffset : offset = 8 * (offset / 8) := by omega
    simp only [hstart, Nat.sub_zero, keepFront_whole, byteBit_or, Nat.zero_add,
      ne_eq, not_true_eq_false, false_implies, and_true, true_implies]
    rw [hstart] at hlow
    constructor
    · rintro ⟨hhere, -⟩ i hi hset
      have hbyte := hhere i hi
      rw [hoffset, hbit i (by omega), Option.some.injEq] at hset
      rwa [getElem?_intBits hi, hset, Bool.true_or, Option.some.injEq] at hbyte
    · intro hclear
      refine ⟨fun i hi => ?_, fun i hi hout => ?_⟩
      · have hset := hclear i hi
        rw [hoffset, hbit i (by omega), Option.some.injEq] at hset
        rw [getElem?_intBits hi, hlow i (by omega), if_neg (by omega), Option.some.injEq,
          show 0 + size - 1 - i = size - 1 - i by omega]
        cases hbyte : byteBit old i with
        | false => rw [Bool.false_or]
        | true => rw [hset hbyte, Bool.true_or]
      · rw [hlow i hi, if_pos (by omega), Bool.or_false]
  · simp only [hstart, false_implies, ne_eq, not_false_eq_true, true_implies, true_and,
      byteBit_or]
    have hfront (i : Nat) (hi : i < 8) :=
      @byteBit_keepFront old (offset % 8) i (by omega) (by omega) hi
    constructor
    · rintro ⟨-, hkeep⟩ i hi hbehind
      have hbyte := hkeep i hi (.inr hbehind)
      rw [hfront i hi, hlow i hi, if_pos (.inr hbehind), Bool.or_false,
        show decide (i < offset % 8) = false by simp; omega, Bool.and_false] at hbyte
      rw [hbit i hi, ← hbyte]
    · intro hclear
      refine ⟨fun i hi => ?_, fun i hi hout => ?_⟩
      · rw [getElem?_intBits hi, hfront _ (by omega), hlow _ (by omega), if_neg (by omega),
          show decide (offset % 8 + i < offset % 8) = false by simp, Bool.and_false,
          Bool.false_or]
        congr 2
        omega
      · rw [hfront i hi, hlow i hi, if_pos hout, Bool.or_false]
        rcases hout with hbefore | hbehind
        · simp [hbefore]
        · have hzero := hclear i hi hbehind
          rw [hbit i hi, Option.some.injEq] at hzero
          rw [hzero, Bool.false_and]

/-! ## Whole bytes, the low one last -/

/-- Every byte that the loop writes is inside. -/
theorem copyAndUpdateLoop_inside {ddir i : Int} {k : Nat} {rest : Int × Int}
    (h : copyAndUpdateLoop ddir dst i val k = .ok (dst', rest)) :
    dst'.length = dst.length ∧ rest.1 = i + ddir * k ∧
      ∀ j < k, 0 ≤ i + ddir * j ∧ (i + ddir * j).toNat < dst.length := by
  induction k generalizing dst i val with
  | zero =>
      cases h
      exact ⟨rfl, by simp, fun _ hj => absurd hj (Nat.not_lt_zero _)⟩
  | succ k ih =>
      rw [copyAndUpdateLoop] at h
      obtain ⟨middle, hset, h⟩ := except_bind_eq_ok_iff.mp h
      obtain ⟨hin, hlength⟩ := length_of_setAt hset
      obtain ⟨hlength', hplace, hinside⟩ := ih h
      refine ⟨hlength'.trans hlength, ?_, fun j hj => ?_⟩
      · rw [hplace]
        push_cast
        ring
      · cases j with
        | zero => simpa using hin
        | succ j =>
            have hnext := hinside j (by omega)
            rw [hlength, show i + ddir + ddir * j = i + ddir * ((j + 1 : Nat) : Int) by
              push_cast; ring] at hnext
            exact hnext

theorem eq_of_decrement {i j : Int} (h : decrement debug i = .ok j) : j = i - 1 := by
  unfold decrement at h
  split at h
  next => cases h
  next =>
    cases h
    rfl

/-- The loop of `copy_and_update_val` ends where the data does, on the way up. -/
theorem copyAndUpdateVal_inside {offset ddir : Int} {rest : Int × Int}
    (h : copyAndUpdateVal debug dst offset ddir val = .ok (dst', rest)) :
    offset ≤ dst.length ∧ dst'.length = dst.length ∧
      rest.1 = offset + ddir * (dst.length - offset) ∧
      ∀ j : Nat, j < (dst.length : Int) - offset →
        0 ≤ offset + ddir * j ∧ (offset + ddir * j).toNat < dst.length := by
  unfold copyAndUpdateVal at h
  dsimp only at h
  split at h
  next => split at h <;> cases h
  next hle =>
    obtain ⟨hlength, hplace, hinside⟩ := copyAndUpdateLoop_inside h
    rw [Int.toNat_of_nonneg (by omega)] at hplace
    exact ⟨by omega, hlength, hplace, fun j hj => hinside j (by omega)⟩

theorem le_of_pasteSmallint {size offset : Nat} (hbig : flags.contains .little = false)
    (h : pasteSmallint debug val size dst offset flags = .ok dst') :
    pastedBytes size ≤ dst.length := by
  rw [pasteSmallint] at h
  simp only [hbig, Bool.false_eq_true, if_false, lastByteBits] at h
  split at h
  next => cases h
  next =>
    obtain ⟨last, hlast, h⟩ := except_bind_eq_ok_iff.mp h
    have hplace := eq_of_decrement hlast
    rw [pastedBytes]
    by_cases hwhole : size % 8 = 0
    · simp only [hwhole, ne_eq, not_true, if_false] at h
      obtain ⟨⟨final, rest⟩, hrun, -⟩ := except_bind_eq_ok_iff.mp h
      obtain ⟨-, -, -, hinside⟩ := copyAndUpdateVal_inside hrun
      have hfirst := hinside 0 (by omega)
      rw [if_pos hwhole]
      omega
    · simp only [hwhole, ne_eq, not_false_eq_true, if_true] at h
      obtain ⟨middle, hset, h⟩ := except_bind_eq_ok_iff.mp h
      obtain ⟨next, hnext, h⟩ := except_bind_eq_ok_iff.mp h
      obtain ⟨⟨final, rest⟩, hrun, -⟩ := except_bind_eq_ok_iff.mp h
      obtain ⟨-, hlength⟩ := length_of_setAt hset
      have hplace' := eq_of_decrement hnext
      obtain ⟨-, -, -, hinside⟩ := copyAndUpdateVal_inside hrun
      have hsecond := hinside 1 (by omega)
      rw [if_neg hwhole]
      omega

/-- With the low byte first the byte behind the data is written. -/
theorem pasteSmallint_little {size offset : Nat} (hlittle : flags.contains .little = true) :
    pasteSmallint debug val size dst offset flags ≠ .ok dst' := by
  intro h
  rw [pasteSmallint] at h
  simp only [hlittle, if_true] at h
  split at h
  next => cases h
  next =>
    obtain ⟨⟨middle, i, v⟩, hrun, h⟩ := except_bind_eq_ok_iff.mp h
    obtain ⟨-, hlength, hplace, -⟩ := copyAndUpdateVal_inside hrun
    dsimp only at h hplace
    split at h
    next =>
      have hin := (length_of_setAt h).1
      omega
    next =>
      have hin := (length_of_setAt h).1
      omega

/-! ## From inside of a byte on -/

/-- The bits of a small integer that its word has no more places for are its sign. -/
theorem shiftRight_of_le {rest : Nat} (hval : smallFits val) (hrest : 64 ≤ rest) :
    val >>> rest = if val < 0 then -1 else 0 := by
  obtain ⟨hlow, hhigh⟩ := hval
  have hpow : (2 : Int) ^ 60 < 2 ^ rest := pow_lt_pow_right₀ (by decide) (by omega)
  have hpos := two_pow_pos rest
  rw [Int.shiftRight_eq_div_pow]
  push_cast
  split
  next hneg =>
    rw [Int.ediv_eq_iff_of_pos hpos]
    omega
  next hnonneg => exact Int.ediv_eq_zero_of_lt (by omega) (by omega)

/-- The bits that come before the whole bytes. -/
def firstBits (val : Int) (size offset : Nat) : List Bool :=
  intBits (val / 2 ^ tailSize offset size) (size - tailSize offset size)

/-- When a small integer that reaches the end of its first byte is written where it belongs: it
ends with that byte; or the bytes at the end of the data are there, each bit that is written to
them belongs there, and the bits of the integer in front of them are in the data already. -/
def FitsWhole (flags : BsFlags) (val : Int) (size : Nat) (dst : List UInt8) (offset : Nat) :
    Prop :=
  let tail := tailSize offset size
  let place := 8 * (dst.length - pastedBytes tail)
  let wanted := integerBits flags val size
  tail = 0 ∨
    pastedBytes tail ≤ dst.length ∧
      (∀ i < 8 * pastedBytes tail,
        (pastedBits val tail)[i]? = (overwrite (bits dst) offset wanted)[place + i]?) ∧
      ∀ i < size, offset + i < place →
        (overwrite (bits dst) offset (firstBits val size offset))[offset + i]? = wanted[i]?

theorem putBitsBigEndian_eq {size offset : Nat} (hval : smallFits val)
    (hinside : offset % 8 ≠ 0) (hover : 8 ≤ offset % 8 + size) (hlt : offset / 8 < dst.length) :
    putBitsBigEndian debug val size (8 - offset % 8) dst (offset / 8) flags =
      let dst := dst.set (offset / 8) (keepFront dst[offset / 8] (8 - offset % 8) |||
        lowByte (val / 2 ^ tailSize offset size % 2 ^ (8 - offset % 8)))
      if tailSize offset size = 0 then .ok dst
      else pasteSmallint debug val (tailSize offset size) dst (offset / 8 + 1) flags := by
  have hrest : size - (8 - offset % 8) = tailSize offset size := by
    rw [tailSize, if_neg hinside]
    omega
  have hends : size = 8 - offset % 8 ↔ tailSize offset size = 0 := by
    rw [tailSize, if_neg hinside]
    omega
  have hbyte : byteAt dst (offset / 8) = .ok dst[offset / 8] := by
    rw [byteAt, List.getElem?_eq_getElem hlt, Option.elim_some]
  have hshift : val / 2 ^ tailSize offset size = val >>> tailSize offset size := by
    rw [Int.shiftRight_eq_div_pow]
    norm_cast
  have hones : ∀ n < 8, lowByte (-1 % 2 ^ n) = (makeMask n).toUInt8 := by decide
  have hfirst (b : UInt8) :
      (if tailSize offset size < 64 then
        b ||| lowByte (val >>> tailSize offset size % 2 ^ (8 - offset % 8))
      else if val < 0 then b ||| (makeMask (8 - offset % 8)).toUInt8
      else b) = b ||| lowByte (val >>> tailSize offset size % 2 ^ (8 - offset % 8)) := by
    split
    next => rfl
    next hlong =>
      rw [shiftRight_of_le hval (by omega)]
      split
      next => rw [hones _ (by omega)]
      next =>
        rw [Int.zero_emod, show lowByte 0 = 0 from rfl, UInt8.or_zero]
  rw [putBitsBigEndian, hbyte]
  simp only [bind, Except.bind, hrest, hfirst, setAt_of_lt hlt, hends, hshift]
  rfl

section Small

variable {size offset : Nat}

theorem putsOnly_pasteSmallint_iff {first : List UInt8} {at' : Nat}
    (hbig : flags.contains .little = false) (htail : tailSize offset size ≠ 0)
    (hroom : offset + size ≤ 8 * dst.length)
    (hfirst : PutsOnly dst first offset (firstBits val size offset)) :
    (∃ dst', pasteSmallint debug val (tailSize offset size) first at' flags = .ok dst' ∧
        PutsOnly dst dst' offset (integerBits flags val size)) ↔
      FitsWhole flags val size dst offset := by
  have hfirstLength : (firstBits val size offset).length = size - tailSize offset size :=
    length_intBits _ _
  have hpasted := length_pastedBits val (tailSize offset size)
  have hwanted := length_integerBits flags val size
  have hbits := length_bits dst
  have hlength := hfirst.length
  rw [putsOnly_iff (by omega)] at hfirst
  -- the data after the bytes at its end are written
  have hsame (hle : pastedBytes (tailSize offset size) ≤ dst.length) :=
    @overwrite_overwrite_eq_iff offset (integerBits flags val size) (bits dst)
      (firstBits val size offset) (pastedBits val (tailSize offset size))
      (8 * (dst.length - pastedBytes (tailSize offset size))) (by omega) (by omega) (by omega)
  rw [← hfirst, hpasted, hwanted] at hsame
  simp only [FitsWhole, or_iff_right htail, ← hfirst]
  constructor
  · rintro ⟨dst', hrun, hputs⟩
    have hle := le_of_pasteSmallint hbig hrun
    obtain ⟨dst'', hrun', hputs'⟩ :=
      @pasteSmallint_writes debug flags first val _ hbig (Nat.pos_of_ne_zero htail) hle at'
    rw [hrun'] at hrun
    cases hrun
    rw [putsOnly_iff (by omega), hlength] at hputs'
    rw [putsOnly_iff (by omega)] at hputs
    exact ⟨by omega, (hsame (by omega)).mp (hputs'.symm.trans hputs)⟩
  · rintro ⟨hle, hbelongs⟩
    obtain ⟨dst', hrun, hputs⟩ := @pasteSmallint_writes debug flags first val _ hbig
      (Nat.pos_of_ne_zero htail) (by omega) at'
    refine ⟨dst', hrun, ?_⟩
    rw [putsOnly_iff (by omega), hlength] at hputs
    rw [putsOnly_iff (by omega)]
    exact hputs.trans ((hsame hle).mpr hbelongs)

/-- When `put_integer` writes a small integer where it belongs, and nothing else. -/
def PutsSmallWhen (flags : BsFlags) (val : Int) (size : Nat) (dst : List UInt8)
    (offset : Nat) : Prop :=
  size = 0 ∨ offset % 8 + size < 8 ∧ FitsByte val size dst offset ∨
    8 ≤ offset % 8 + size ∧ flags.contains .little = false ∧
      FitsWhole flags val size dst offset

theorem putInteger_small_oneByte (hsize : size ≠ 0) (hfit : offset % 8 + size < 8) :
    putInteger debug (.small val) size dst offset flags =
      putBitsOneByte dst (offset / 8) (8 - offset % 8) (offset % 8) val size := by
  have hsum : addWords debug (offset % 8) size = .ok (offset % 8 + size) :=
    addWords_of_lt (by omega)
  rw [putInteger, if_neg hsize]
  simp only [lastByteBits, byteSizeRoundedDown, hsum, bind, Except.bind, if_pos hfit]

theorem putInteger_small_whole (hover : 8 ≤ offset % 8 + size) (hword : offset + size < 2 ^ 64) :
    putInteger debug (.small val) size dst offset flags =
      if offset % 8 = 0 then pasteSmallint debug val size dst (offset / 8) flags
      else if flags.contains .little then panic (.unimplemented "put_bits_unaligned")
      else putBitsBigEndian debug val size (8 - offset % 8) dst (offset / 8) flags := by
  have hsum : addWords debug (offset % 8) size = .ok (offset % 8 + size) :=
    addWords_of_lt (by omega)
  rw [putInteger, if_neg (by omega)]
  simp only [lastByteBits, byteSizeRoundedDown, hsum, bind, Except.bind,
    if_neg (Nat.not_lt.mpr hover), fmtInt]
  rfl

theorem putsInteger_whole_iff (hval : smallFits val) (hover : 8 ≤ offset % 8 + size)
    (hroom : offset + size ≤ 8 * dst.length) (hword : offset + size < 2 ^ 64) :
    PutsInteger debug flags (.small val) val size dst offset ↔
      flags.contains .little = false ∧ FitsWhole flags val size dst offset := by
  rw [PutsInteger, putInteger_small_whole hover hword]
  by_cases hstart : offset % 8 = 0
  · have htail : tailSize offset size = size := if_pos hstart
    simp only [if_pos hstart]
    by_cases hlittle : flags.contains .little = true
    · refine iff_of_false ?_ fun h => ?_
      · rintro ⟨dst', hrun, -⟩
        exact pasteSmallint_little hlittle hrun
      · rw [hlittle] at h
        cases h.1
    · have hbig : flags.contains .little = false := eq_false_of_ne_true hlittle
      rw [and_iff_right hbig]
      have hnone : firstBits val size offset = [] :=
        List.eq_nil_of_length_eq_zero (by rw [firstBits, htail, length_intBits, Nat.sub_self])
      have hfirst : PutsOnly dst dst offset (firstBits val size offset) := by
        rw [hnone]
        exact PutsOnly.nil dst offset
      have hiff := @putsOnly_pasteSmallint_iff debug flags dst val size offset dst (offset / 8)
        hbig (by omega) hroom hfirst
      rwa [htail] at hiff
  · simp only [if_neg hstart]
    by_cases hlittle : flags.contains .little = true
    · simp [hlittle, panic]
    · have hbig : flags.contains .little = false := eq_false_of_ne_true hlittle
      have hlt : offset / 8 < dst.length := by omega
      have hfirstSize : size - tailSize offset size = 8 - offset % 8 := by
        rw [tailSize, if_neg hstart]
        omega
      have hfirst := (puts_behindFront hstart hlt (val / 2 ^ tailSize offset size)).only
        (by rw [length_intBits]; omega)
      rw [← hfirstSize, ← firstBits] at hfirst
      simp only [hbig, Bool.false_eq_true, if_false, true_and,
        putBitsBigEndian_eq hval hstart hover hlt]
      by_cases hends : tailSize offset size = 0
      · simp only [if_pos hends]
        refine iff_of_true ⟨_, rfl, ?_⟩ (.inl hends)
        have hbits : firstBits val size offset = integerBits flags val size := by
          have hsmall : integerBits flags val size = intBits val size := by
            rw [integerBits]
            split
            · exact littleBits_eq_intBits val (by omega)
            · rfl
          rw [hsmall, firstBits, hends, pow_zero, Int.ediv_one, Nat.sub_zero]
        rwa [hbits, hfirstSize] at hfirst
      · simp only [if_neg hends]
        rw [hfirstSize] at hfirst
        exact putsOnly_pasteSmallint_iff hbig hends hroom hfirst

theorem putsInteger_small_iff (debug : Bool) (flags : BsFlags) (val : Int) (size : Nat)
    (dst : List UInt8) (offset : Nat) (hval : smallFits val)
    (hroom : offset + size ≤ 8 * dst.length) (hword : offset + size < 2 ^ 64) :
    PutsInteger debug flags (.small val) val size dst offset ↔
      PutsSmallWhen flags val size dst offset := by
  unfold PutsSmallWhen
  by_cases hzero : size = 0
  · subst hzero
    refine iff_of_true ⟨dst, putInteger_zero _ _, ?_⟩ (.inl rfl)
    rw [integerBits_zero]
    exact PutsOnly.nil dst offset
  · rw [or_iff_right hzero]
    rcases Nat.lt_or_ge (offset % 8 + size) 8 with hfit | hover
    · rw [and_iff_right hfit, or_iff_left (by omega), PutsInteger,
        putInteger_small_oneByte hzero hfit]
      have hold : dst[offset / 8]? = some dst[offset / 8] :=
        List.getElem?_eq_getElem (by omega)
      have hbits : integerBits flags val size = intBits val size := by
        rw [integerBits]
        split
        · exact littleBits_eq_intBits val (by omega)
        · rfl
      rw [putBitsOneByte_eq hfit hold, hbits, ← putsOnly_oneByte_iff hfit hold]
      simp
    · rw [or_iff_right (by omega), and_iff_right hover]
      exact putsInteger_whole_iff hval hover hroom hword

/-- Sixteen bits at the end of the data. -/
theorem putsInteger_small_iff_sixteen :
    smallFits 258 ∧ 0 + 16 ≤ 8 * [(1 : UInt8), 0].length ∧
      (PutsInteger true .empty (.small 258) 258 16 [1, 0] 0 ↔
        PutsSmallWhen .empty 258 16 [1, 0] 0) :=
  ⟨by decide, by decide,
    putsInteger_small_iff true .empty 258 16 [1, 0] 0 (by decide) (by decide) (by decide)⟩

/-- Of an integer of two bytes the first one is not written. -/
theorem not_putsInteger_small_sixteen :
    ¬ ∀ (debug : Bool) (flags : BsFlags) (val : Int) (size : Nat) (dst : List UInt8)
      (offset : Nat), smallFits val → offset + size ≤ 8 * dst.length → offset + size < 2 ^ 64 →
        PutsInteger debug flags (.small val) val size dst offset := by
  intro hall
  obtain ⟨dst', hrun, hputs⟩ :=
    hall false .empty 256 16 [0, 0] 0 (by decide) (by decide) (by decide)
  cases hrun
  exact absurd (hputs.here 7 (by decide)) (by decide)

end Small

end BitsPaste

end Zeptobeam
