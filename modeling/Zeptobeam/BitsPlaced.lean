/-
What the routines that paste do where they work: the bits lie at the offset of the new data,
and the bits before them are those of the old data.
-/
import Zeptobeam.BitsPaste

namespace Zeptobeam

namespace BitsPaste

open BitString

variable {debug : Bool} {flags : BsFlags} {dst src : List UInt8} {val : Int}

/-! ## Small integers -/

theorem setAt_of_lt {i : Nat} (hi : i < dst.length) (b : UInt8) :
    setAt dst i b = .ok (dst.set i b) := by
  have hin : (0 : Int) ≤ (i : Int) ∧ ((i : Int)).toNat < dst.length := ⟨by omega, by omega⟩
  rw [setAt, if_pos hin, Int.toNat_natCast]

theorem decrement_of_pos {i : Nat} (hi : 0 < i) :
    decrement debug i = .ok ((i - 1 : Nat) : Int) := by
  rw [decrement, if_neg (by omega)]
  congr 1
  omega

/-- Bytes of a value, from its low one on, written from a place downwards. -/
theorem copyAndUpdateLoop_down {k i : Nat} (hi : i < dst.length) (hk : k ≤ i + 1) :
    ∃ dst' rest, copyAndUpdateLoop (-1) dst i val k = .ok (dst', rest) ∧
      Puts dst dst' (8 * (i + 1 - k)) (intBits val (8 * k)) := by
  induction k generalizing dst i val with
  | zero => exact ⟨dst, _, rfl, Puts.nil dst _⟩
  | succ k ih =>
      rw [copyAndUpdateLoop, setAt_of_lt hi]
      simp only [bind, Except.bind]
      have hbyte := puts_lowByte hi val
      cases k with
      | zero =>
          refine ⟨_, _, rfl, ?_⟩
          rwa [Nat.add_sub_cancel]
      | succ k =>
          obtain ⟨j, rfl⟩ := Nat.exists_eq_add_of_le' (show 1 ≤ i by omega)
          have hplace : ((j + 1 : Nat) : Int) + -1 = (j : Int) := by omega
          have hj : j < (dst.set (j + 1) (lowByte val)).length := by
            rw [List.length_set]
            omega
          obtain ⟨dst', rest, hrun, hputs⟩ := @ih _ (val >>> (8 : Nat)) _ hj (by omega)
          rw [hplace]
          refine ⟨dst', rest, hrun, ?_⟩
          have hstart : 8 * (j + 1 - (k + 1)) + (intBits (val >>> (8 : Nat)) (8 * (k + 1))).length =
              8 * (j + 1) := by
            rw [length_intBits]
            omega
          have hsplit : intBits val (8 * (k + 1 + 1)) =
              intBits (val >>> (8 : Nat)) (8 * (k + 1)) ++ intBits val 8 := by
            rw [show 8 * (k + 1 + 1) = 8 * (k + 1) + 8 by omega, intBits_append,
              Int.shiftRight_eq_div_pow]
            rfl
          rw [hsplit, show j + 1 + 1 - (k + 1 + 1) = j + 1 - (k + 1) by omega]
          apply Puts.prepend _ hputs
          · rw [hstart]
            omega
          · rwa [hstart]

/-- How many bytes are written, whatever the size: the last one, or three of them where the last
one is not whole. -/
def pastedBytes (size : Nat) : Nat :=
  if size % 8 = 0 then 1 else 3

/-- What these bytes are. -/
def pastedBits (val : Int) (size : Nat) : List Bool :=
  if size % 8 = 0 then intBits val 8 else intBits (val * 2 ^ (8 - size % 8)) 24

@[simp]
theorem length_pastedBits (val : Int) (size : Nat) :
    (pastedBits val size).length = 8 * pastedBytes size := by
  rw [pastedBits, pastedBytes]
  split
  · exact length_intBits val 8
  · exact length_intBits _ 24

section Smallint

variable {size : Nat}

theorem pasteSmallint_of_dvd (hbig : flags.contains .little = false) (hsize : 0 < size)
    (hwhole : size % 8 = 0) (hroom : 0 < dst.length) (offset : Nat) :
    ∃ dst', pasteSmallint debug val size dst offset flags = .ok dst' ∧
      PutsOnly dst dst' (8 * (dst.length - 1)) (intBits val 8) := by
  have hnonzero : ¬ (debug = true ∧ size = 0) := fun h => Nat.ne_of_gt hsize h.2
  have hlast : decrement debug (dst.length : Nat) = .ok ((dst.length - 1 : Nat) : Int) :=
    decrement_of_pos hroom
  have hcount : ((dst.length : Int) - ((dst.length - 1 : Nat) : Int)).toNat = 1 := by omega
  have hsome : ¬ ((dst.length : Int) - ((dst.length - 1 : Nat) : Int)) < 0 := by omega
  obtain ⟨dst', rest, hrun, hputs⟩ :=
    @copyAndUpdateLoop_down dst val 1 (dst.length - 1) (by omega) (by omega)
  refine ⟨dst', ?_, ?_⟩
  · rw [pasteSmallint]
    simp only [if_neg hnonzero, hbig, Bool.false_eq_true, if_false, lastByteBits, hlast, bind,
      Except.bind, hwhole, ne_eq, not_true, copyAndUpdateVal, hcount, if_neg hsome, hrun]
    rfl
  · rw [Nat.sub_add_cancel hroom] at hputs
    refine hputs.only ?_
    rw [length_intBits]
    omega

/-- The last byte gets the bits that do not fill it, and two bytes lie in front of it. -/
theorem pasteSmallint_of_not_dvd (hbig : flags.contains .little = false) (hsize : 0 < size)
    (hwhole : ¬ size % 8 = 0) (hroom : 3 ≤ dst.length) (offset : Nat) :
    ∃ dst', pasteSmallint debug val size dst offset flags = .ok dst' ∧
      PutsOnly dst dst' (8 * (dst.length - 3)) (intBits (val * 2 ^ (8 - size % 8)) 24) := by
  have hnonzero : ¬ (debug = true ∧ size = 0) := fun h => Nat.ne_of_gt hsize h.2
  have hlast : decrement debug (dst.length : Nat) = .ok ((dst.length - 1 : Nat) : Int) :=
    decrement_of_pos (by omega)
  have hnext : decrement debug ((dst.length - 1 : Nat) : Int) =
      .ok ((dst.length - 2 : Nat) : Int) :=
    decrement_of_pos (by omega)
  have hcount : ((dst.length : Int) - ((dst.length - 2 : Nat) : Int)).toNat = 2 := by omega
  have hsome : ¬ ((dst.length : Int) - ((dst.length - 2 : Nat) : Int)) < 0 := by omega
  have hin : dst.length - 1 < dst.length := by omega
  have htail := puts_lowByte hin (val * 2 ^ (8 - size % 8))
  rw [← Int.shiftLeft_eq] at htail
  have hlength := htail.length
  obtain ⟨dst', rest, hrun, hputs⟩ := @copyAndUpdateLoop_down
    (dst.set (dst.length - 1) (lowByte (val <<< (8 - size % 8)))) (val >>> (size % 8)) 2
    (dst.length - 2) (by omega) (by omega)
  have hrest : val >>> (size % 8) = val * 2 ^ (8 - size % 8) / 2 ^ 8 := by
    have hpow : (2 : Int) ^ 8 = 2 ^ (size % 8) * 2 ^ (8 - size % 8) := by
      rw [← pow_add]
      congr 1
      omega
    rw [hpow, Int.mul_ediv_mul_of_pos_left _ _ (two_pow_pos _), Int.shiftRight_eq_div_pow]
    norm_cast
  refine ⟨dst', ?_, ?_⟩
  · rw [pasteSmallint]
    simp only [if_neg hnonzero, hbig, Bool.false_eq_true, if_false, lastByteBits, hlast, bind,
      Except.bind, ne_eq, hwhole, not_false_eq_true, if_true, setAt_of_lt hin, hnext,
      copyAndUpdateVal, hlength, hcount, if_neg hsome, hrun]
    rfl
  · rw [show (24 : Nat) = 16 + 8 by rfl, intBits_append, ← hrest]
    rw [show dst.length - 2 + 1 - 2 = dst.length - 3 by omega] at hputs
    have hstart : 8 * (dst.length - 3) + (intBits (val >>> (size % 8)) 16).length =
        8 * (dst.length - 1) := by
      rw [length_intBits]
      omega
    refine Puts.only (Puts.prepend ?_ hputs ?_) ?_
    · rwa [hstart, ← Int.shiftLeft_eq]
    · rw [hstart]
      omega
    · rw [List.length_append, length_intBits, length_intBits]
      omega

theorem pasteSmallint_writes (hbig : flags.contains .little = false) (hsize : 0 < size)
    (hroom : pastedBytes size ≤ dst.length) (offset : Nat) :
    ∃ dst', pasteSmallint debug val size dst offset flags = .ok dst' ∧
      PutsOnly dst dst' (8 * (dst.length - pastedBytes size)) (pastedBits val size) := by
  rw [pastedBytes] at hroom ⊢
  rw [pastedBits]
  by_cases hwhole : size % 8 = 0
  · simp only [if_pos hwhole] at hroom ⊢
    exact pasteSmallint_of_dvd hbig hsize hwhole hroom offset
  · simp only [if_neg hwhole] at hroom ⊢
    exact pasteSmallint_of_not_dvd hbig hsize hwhole hroom offset

end Smallint

/-- The sizes that `paste_smallint` writes as many bytes for as it should. -/
def PastedWhole (size : Nat) : Prop :=
  size = 8 ∨ 17 ≤ size ∧ size ≤ 23

instance (size : Nat) : Decidable (PastedWhole size) :=
  inferInstanceAs (Decidable (_ ∨ _))

/-- At the end of the data. -/
theorem pasteSmallint_of_whole {size dstOffset : Nat} (hbig : flags.contains .little = false)
    (hwhole : PastedWhole size) (hend : dstOffset + byteSizeRoundedUp size = dst.length)
    (offset : Nat) :
    ∃ dst', pasteSmallint debug val size dst offset flags = .ok dst' ∧
      Puts dst dst' (8 * dstOffset) (intBits val size) := by
  unfold byteSizeRoundedUp at hend
  rcases hwhole with rfl | ⟨hlow, hhigh⟩
  · obtain ⟨dst', hrun, hputs⟩ :=
      @pasteSmallint_of_dvd debug flags dst val 8 hbig (by decide) rfl (by omega) offset
    rw [show dst.length - 1 = dstOffset by omega] at hputs
    exact ⟨dst', hrun, hputs.puts⟩
  · obtain ⟨dst', hrun, hputs⟩ := @pasteSmallint_of_not_dvd debug flags dst val size hbig
      (by omega) (by omega) (by omega) offset
    rw [show dst.length - 3 = dstOffset by omega] at hputs
    refine ⟨dst', hrun, ?_⟩
    -- of the three bytes the first bits are those of the integer
    have hfront : (intBits (val * 2 ^ (8 - size % 8)) 24).take size = intBits val size := by
      rw [show 24 = size + (8 - size % 8) by omega, intBits_append,
        Int.mul_ediv_cancel _ (Int.ne_of_gt (two_pow_pos _)),
        List.take_left' (length_intBits val size)]
    rw [← hfront]
    refine hputs.puts.take_bits fun k hk => ?_
    rw [length_intBits]
    omega

/-! ## Small integers inside of a byte -/

theorem byteBit_keepFront {old : UInt8} {q i : Nat} (hpos : 0 < q) (hq : q < 8) (hi : i < 8) :
    byteBit (keepFront old (8 - q)) i = (byteBit old i && decide (i < q)) := by
  have hmask : ∀ q < 8, 0 < q → ∀ i < 8,
      byteBit (0xff <<< (byteShift (8 - q)).toUInt8) i = decide (i < q) := by
    decide +kernel
  rw [keepFront, byteBit_and, hmask q hq hpos i hi]

/-- Bits behind the front of a byte. -/
theorem byteBit_lowByte_mul {w : Int} {n q i : Nat} (hfit : q + n ≤ 8) (hi : i < 8)
    (hw : w = val % 2 ^ n) :
    byteBit (lowByte (w * 2 ^ (8 - q - n))) i =
      if i < q ∨ q + n ≤ i then false else intBit val (q + n - 1 - i) := by
  rw [byteBit_lowByte _ hi]
  split
  next hout =>
    by_cases hbehind : q + n ≤ i
    · exact intBit_mul_of_lt w (by omega)
    · rw [intBit_mul w (by omega), hw, intBit_emod_of_le val (by omega)]
  next hin =>
    rw [intBit_mul w (by omega), hw, intBit_emod val (by omega)]
    congr 1
    omega

theorem putBitsOneByte_eq {size offset : Nat} {old : UInt8} (hfit : offset % 8 + size < 8)
    (hold : dst[offset / 8]? = some old) :
    putBitsOneByte dst (offset / 8) (8 - offset % 8) (offset % 8) val size =
      .ok (dst.set (offset / 8) (keepFront old (8 - offset % 8) |||
        lowByte (val % 2 ^ size * 2 ^ (8 - offset % 8 - size)))) := by
  have hlt := (List.getElem?_eq_some_iff.mp hold).1
  have hshift : ((8 - (offset % 8 : Nat) - (size : Nat) : Int) % 64).toNat =
      8 - offset % 8 - size := by omega
  have hsmall : size % 64 = size := by omega
  have hread : readPtr dst (offset / 8) = .ok old := by rw [readPtr, hold, Option.elim_some]
  rw [putBitsOneByte, hread]
  simp only [bind, Except.bind, writePtr, if_pos hlt, hshift, hsmall, Int.shiftLeft_eq]

/-- The byte had nothing behind its front, or that is masked away. -/
theorem putBitsOneByte_of_fit {size offset : Nat} {old : UInt8} (hsize : 0 < size)
    (hfit : offset % 8 + size < 8) (hold : dst[offset / 8]? = some old)
    (hclear : offset % 8 = 0 → old = 0) :
    ∃ dst', putBitsOneByte dst (offset / 8) (8 - offset % 8) (offset % 8) val size = .ok dst' ∧
      Puts dst dst' offset (intBits val size) := by
  refine ⟨_, putBitsOneByte_eq hfit hold, ?_⟩
  · apply puts_set hold
    · apply List.ne_nil_of_length_pos
      rwa [length_intBits]
    · rw [length_intBits]
      omega
    · intro i hi
      rw [byteBit_or, byteBit_keepFront (by omega) (by omega) (by omega),
        byteBit_lowByte_mul (by omega) (by omega) rfl, if_pos (Or.inl hi)]
      simp [hi]
    · intro i hi
      rw [length_intBits] at hi
      have hfront : byteBit (keepFront old (8 - offset % 8)) (offset % 8 + i) = false := by
        by_cases hzero : offset % 8 = 0
        · rw [hclear hzero, keepFront, UInt8.zero_and]
          simp [byteBit]
        · rw [byteBit_keepFront (by omega) (by omega) (by omega)]
          simp
      rw [getElem?_intBits hi, byteBit_or, hfront, Bool.false_or,
        byteBit_lowByte_mul (by omega) (by omega) rfl, if_neg (by omega)]
      congr 2
      omega

/-! ## Small integers from inside of a byte on -/

/-- What is left for whole bytes behind the byte that the bits start in. -/
def tailSize (offset size : Nat) : Nat :=
  if offset % 8 = 0 then size else offset % 8 + size - 8

/-- Bits from inside of a byte to its end. -/
theorem puts_behindFront {offset : Nat} (hinside : offset % 8 ≠ 0) (hlt : offset / 8 < dst.length)
    (w : Int) :
    Puts dst (dst.set (offset / 8) (keepFront dst[offset / 8] (8 - offset % 8) |||
      lowByte (w % 2 ^ (8 - offset % 8)))) offset (intBits w (8 - offset % 8)) := by
  have hmod := Nat.mod_lt offset (show 0 < 8 by decide)
  have hone : w % 2 ^ (8 - offset % 8) =
      w % 2 ^ (8 - offset % 8) * 2 ^ (8 - offset % 8 - (8 - offset % 8)) := by
    rw [Nat.sub_self, pow_zero, mul_one]
  rw [hone]
  apply puts_set (List.getElem?_eq_getElem hlt)
  · apply List.ne_nil_of_length_pos
    rw [length_intBits]
    omega
  · rw [length_intBits]
    omega
  · intro i hi
    rw [byteBit_or, byteBit_keepFront (by omega) (by omega) (by omega),
      byteBit_lowByte_mul (by omega) (by omega) rfl, if_pos (Or.inl (by omega))]
    simp [show i < offset % 8 by omega]
  · intro i hi
    rw [length_intBits] at hi
    rw [getElem?_intBits hi, byteBit_or, byteBit_keepFront (by omega) (by omega) (by omega),
      byteBit_lowByte_mul (by omega) (by omega) rfl, if_neg (by omega)]
    simp only [show ¬ offset % 8 + i < offset % 8 by omega, decide_false, Bool.and_false,
      Bool.false_or]
    congr 2
    omega

/-- The first byte gets the high bits, and a rest of whole bytes lies at the end of the
data. -/
theorem putBitsBigEndian_of_fit {size offset : Nat} (hbig : flags.contains .little = false)
    (hinside : offset % 8 ≠ 0) (hover : 8 ≤ offset % 8 + size)
    (hlt : offset / 8 < dst.length)
    (htail : offset % 8 + size = 8 ∨ PastedWhole (tailSize offset size) ∧
      byteSizeRoundedUp (offset + size) = dst.length) :
    ∃ dst', putBitsBigEndian debug val size (8 - offset % 8) dst (offset / 8) flags = .ok dst' ∧
      Puts dst dst' offset (intBits val size) := by
  have hmod := Nat.mod_lt offset (show 0 < 8 by decide)
  obtain ⟨rest, hrest⟩ := Nat.exists_eq_add_of_le (show 8 - offset % 8 ≤ size by omega)
  -- the high bits, in the byte that the offset lies in
  have hfirst := puts_behindFront hinside hlt (val >>> rest)
  obtain ⟨q, hq⟩ : ∃ q, offset % 8 = q := ⟨_, rfl⟩
  rw [hq] at hinside hover htail hrest hfirst ⊢
  have hsmallTail : rest < 64 := by
    unfold PastedWhole tailSize at htail
    rw [hq, if_neg hinside] at htail
    omega
  have hbyte : byteAt dst (offset / 8) = .ok dst[offset / 8] := by
    rw [byteAt, List.getElem?_eq_getElem hlt, Option.elim_some]
  have hcount : size - (8 - q) = rest := by omega
  have hsplit : intBits val size = intBits (val >>> rest) (8 - q) ++ intBits val rest := by
    rw [hrest, intBits_append, Int.shiftRight_eq_div_pow]
    norm_cast
  rw [putBitsBigEndian, hbyte]
  simp only [bind, Except.bind, hcount, if_pos hsmallTail, setAt_of_lt hlt]
  by_cases hwhole : size = 8 - q
  · obtain rfl : rest = 0 := by omega
    refine ⟨_, if_pos hwhole, ?_⟩
    rw [hsplit]
    have hnil : intBits val 0 = [] := rfl
    rwa [hnil, List.append_nil]
  · rw [if_neg hwhole]
    obtain ⟨hpasted, hend⟩ := htail.resolve_left (by omega)
    have htailSize : tailSize offset size = rest := by
      rw [tailSize, hq, if_neg hinside]
      omega
    rw [htailSize] at hpasted
    obtain ⟨dst', hrun, hputs⟩ := @pasteSmallint_of_whole debug flags
      (dst.set (offset / 8) (keepFront dst[offset / 8] (8 - q) |||
        lowByte ((val >>> rest) % 2 ^ (8 - q))))
      val rest (offset / 8 + 1) hbig hpasted
      (by
        rw [List.length_set, ← hend]
        unfold byteSizeRoundedUp
        omega) (offset / 8 + 1)
    refine ⟨dst', hrun, ?_⟩
    rw [hsplit]
    apply hfirst.trans
    rw [length_intBits]
    rwa [show offset + (8 - q) = 8 * (offset / 8 + 1) by omega]

/-! ## Negative big integers, the low byte first -/

/-- The complement of what is left of the digits, less the carry. -/
def complement (d : Nat) (carry : Bool) : Int :=
  (if carry then 0 else -1) - d

theorem subc_eq {x : UInt8} {carry : Bool} {i : Nat} (hi : i < dst.length)
    (hborrow : debug = true → carry = true → x ≠ 0) :
    subc debug x carry dst i =
      .ok (dst.set i (~~~(x - if carry then 1 else 0)), carry && decide (x = 0)) := by
  cases carry with
  | false =>
      have hlt : ¬ x < 0 := by simp
      simp only [subc, Bool.false_eq_true, if_false, hlt, and_false, setAt_of_lt hi, bind,
        Except.bind, pure, Except.pure, Bool.false_and, UInt8.sub_zero, UInt8.lt_irrefl,
        decide_false]
  | true =>
      have hzero : x < 1 ↔ x = 0 := by
        rw [UInt8.lt_iff_toNat_lt, ← UInt8.toNat_inj]
        change x.toNat < 1 ↔ x.toNat = 0
        omega
      have hwrap : x < x - 1 ↔ x = 0 := by
        rw [UInt8.lt_iff_toNat_lt, ← UInt8.toNat_inj, UInt8.toNat_sub]
        change x.toNat < (2 ^ 8 - 1 + x.toNat) % 2 ^ 8 ↔ x.toNat = 0
        have hlt := x.toNat_lt
        omega
      have hnot : ¬ (debug = true ∧ x < 1) := by
        rintro ⟨hdebug, hlt⟩
        exact hborrow hdebug rfl (hzero.mp hlt)
      simp only [subc, if_true, if_neg hnot, setAt_of_lt hi, bind, Except.bind, pure,
        Except.pure, Bool.true_and, hwrap]

/-- A byte of the complement is written, and the rest of it is left. -/
theorem complement_step {x : UInt8} {d : Nat} {carry : Bool} (hx : x.toNat = d % 256) :
    ~~~(x - if carry then 1 else 0) = lowByte (complement d carry) ∧
      complement (d / 256) (carry && decide (x = 0)) = complement d carry / 256 := by
  have hzero : x = 0 ↔ d % 256 = 0 := by
    rw [← UInt8.toNat_inj, hx]
    rfl
  constructor
  · apply UInt8.toNat_inj.mp
    rw [UInt8.toNat_not, toNat_lowByte, UInt8.toNat_sub, hx, complement]
    change 256 - 1 - (2 ^ 8 - (if carry then (1 : UInt8) else 0).toNat + d % 256) % 2 ^ 8 = _
    cases carry with
    | false =>
        change 256 - 1 - (2 ^ 8 - 0 + d % 256) % 2 ^ 8 = ((-1 - (d : Int)) % 256).toNat
        omega
    | true =>
        change 256 - 1 - (2 ^ 8 - 1 + d % 256) % 2 ^ 8 = ((0 - (d : Int)) % 256).toNat
        omega
  · unfold complement
    cases carry with
    | false =>
        simp only [Bool.false_and, Bool.false_eq_true, if_false]
        omega
    | true =>
        by_cases hd : d % 256 = 0
        · simp only [hzero, hd, decide_true, Bool.true_and, if_true]
          omega
        · simp only [hzero, hd, decide_false, Bool.true_and, if_true, Bool.false_eq_true,
            if_false]
          omega

/-- So many bytes of the complement are written, from a place upwards. -/
theorem subcUp_of_fit {k i : Nat} {d : UInt64} {carry : Bool} (hfit : i + k ≤ dst.length)
    (hborrow : debug = true → carry = true → d.toNat % 256 ≠ 0) :
    ∃ dst' carry', subcUp debug dst i d carry k = .ok (dst', ((i + k : Nat) : Int), carry') ∧
      dst'.length = dst.length ∧
      (∀ j, dst'[j]? =
        if i ≤ j ∧ j < i + k then some (lowByte (complement d.toNat carry / 2 ^ (8 * (j - i))))
        else dst[j]?) ∧
      complement (d.toNat / 2 ^ (8 * k)) carry' = complement d.toNat carry / 2 ^ (8 * k) ∧
      (debug = true → k ≠ 0 ∨ carry = false → carry' = false) := by
  induction k generalizing dst i d carry with
  | zero =>
      refine ⟨dst, carry, rfl, rfl, fun j => ?_, ?_, fun _ hclear => ?_⟩
      · rw [if_neg (by omega)]
      · simp
      · exact hclear.resolve_left (fun hne => hne rfl)
  | succ k ih =>
      have hx : d.toUInt8.toNat = d.toNat % 256 := UInt64.toNat_toUInt8 d
      have hzero : d.toUInt8 = 0 ↔ d.toNat % 256 = 0 := by
        rw [← UInt8.toNat_inj, hx]
        rfl
      have hshift : (d >>> 8).toNat = d.toNat / 256 := toNat_shiftRight_byte d
      obtain ⟨hbyte, hrest⟩ := @complement_step _ _ carry hx
      have hnext : debug = true → (carry && decide (d.toUInt8 = 0)) = false := by
        intro hdebug
        cases carry with
        | false => rfl
        | true => simpa [hzero] using hborrow hdebug rfl
      obtain ⟨dst', carry', hrun, hlength, hat, hleft, hclear⟩ := @ih
        (dst.set i (~~~(d.toUInt8 - if carry then 1 else 0))) (i + 1) (d >>> 8)
        (carry && decide (d.toUInt8 = 0)) (by rw [List.length_set]; omega)
        (by
          intro hdebug hcarry
          rw [hnext hdebug] at hcarry
          cases hcarry)
      rw [hbyte] at hrun hlength
      rw [hbyte, hshift, hrest] at hat
      rw [hshift, hrest] at hleft
      refine ⟨dst', carry', ?_, by rw [hlength, List.length_set], fun j => ?_, ?_, ?_⟩
      · rw [subcUp, subc_eq (by omega) (fun hdebug hcarry => by
          rw [Ne, hzero]
          exact hborrow hdebug hcarry), hbyte]
        simp only [bind, Except.bind]
        rw [show (i : Int) + 1 = ((i + 1 : Nat) : Int) by omega, hrun]
        congr 3
        omega
      · rw [hat]
        by_cases hj : j = i
        · subst hj
          rw [if_neg (by omega), if_pos (by omega), List.getElem?_set_self (by omega), Nat.sub_self]
          simp
        · rw [List.getElem?_set_ne (Ne.symm hj)]
          by_cases hin : i + 1 ≤ j ∧ j < i + 1 + k
          · rw [if_pos hin, if_pos (by omega),
              ediv_byte_ediv _ (show 8 * (j - i) = 8 + 8 * (j - (i + 1)) by omega)]
          · rw [if_neg hin, if_neg (by omega)]
      · rw [show 8 * (k + 1) = 8 + 8 * k by omega, pow_add, pow_add, ← Nat.div_div_eq_div_mul,
          ← Int.ediv_ediv_of_nonneg (by decide)]
        exact hleft
      · intro hdebug _
        exact hclear hdebug (Or.inr (hnext hdebug))

/-- The number that the digits stand for, the low one first. -/
def magnitude : List UInt64 → Nat
  | [] => 0
  | d :: digits => d.toNat + 2 ^ 64 * magnitude digits

def bignumValue (negative : Bool) (digits : List UInt64) : Int :=
  if negative then -(magnitude digits : Int) else magnitude digits

/-- A number of one digit, or a byte of its first one. -/
theorem lowByte_bignumValue {digits : List UInt64} {j : Nat} (h : digits.length ≤ 1 ∨ j < 8) :
    lowByte (bignumValue true digits / 2 ^ (8 * j)) =
      lowByte (-((digits.headD 0).toNat : Int) / 2 ^ (8 * j)) := by
  rw [bignumValue, if_pos rfl]
  cases digits with
  | nil => rfl
  | cons d digits =>
      rw [magnitude, List.headD_cons]
      rcases h with hone | hj
      · obtain rfl : digits = [] := by
          apply List.eq_nil_of_length_eq_zero
          rw [List.length_cons] at hone
          omega
        rfl
      · have hmod : -((d.toNat + 2 ^ 64 * magnitude digits : Nat) : Int) % 2 ^ 64 =
            -(d.toNat : Int) % 2 ^ 64 := by
          omega
        apply byte_ext
        intro i hi
        rw [byteBit_lowByte _ hi, byteBit_lowByte _ hi, intBit_div, intBit_div]
        exact intBit_congr hmod (by omega)

/-- The bytes of the complement fill the data. -/
theorem pasteBigintLeNegative_of_pos {d : UInt64} (hpos : 0 < dst.length)
    (hborrow : debug = true → d.toNat % 256 ≠ 0) :
    pasteBigintLeNegative debug dst 0 d =
      .ok (littleBytes (-(d.toNat : Int)) dst.length, dst.length) := by
  obtain ⟨n, hn⟩ : ∃ n, n = min dst.length 8 := ⟨_, rfl⟩
  obtain ⟨first, carry, hfirst, hlength, hat, hleft, hclear⟩ :=
    @subcUp_of_fit debug dst n 0 d true (by omega) (fun hdebug _ => hborrow hdebug)
  rw [Nat.zero_add] at hfirst hat
  obtain ⟨dst', carry', hrun, hlength', hat', -, -⟩ :=
    @subcUp_of_fit debug first (dst.length - n) n 0 carry (by omega)
      (by
        intro hdebug hcarry
        rw [hclear hdebug (Or.inl (by omega))] at hcarry
        cases hcarry)
  have hvalue : complement d.toNat true = -(d.toNat : Int) := by
    rw [complement, if_pos rfl, Int.zero_sub]
  rw [hvalue] at hat hleft
  have hdata : dst' = littleBytes (-(d.toNat : Int)) dst.length := by
    refine List.ext_getElem? fun j => ?_
    rw [hat', hat]
    by_cases hj : j < dst.length
    · rw [getElem?_littleBytes _ hj]
      by_cases hlow : j < n
      · rw [if_neg (by omega), if_pos (by omega), Nat.sub_zero]
      · -- nothing is left of the digit
        obtain rfl : n = 8 := by omega
        have hnone : d.toNat / 2 ^ (8 * 8) = 0 := Nat.div_eq_of_lt d.toNat_lt
        rw [hnone] at hleft
        rw [if_pos (by omega), show (0 : UInt64).toNat = 0 from rfl, hleft,
          Int.ediv_ediv_of_nonneg (by decide), ← pow_add]
        congr 4
        omega
    · rw [if_neg (by omega), if_neg (by omega), List.getElem?_eq_none (by omega),
        List.getElem?_eq_none (by simpa using hj)]
  have hcount : ((first.length : Int) - (n : Int)).toNat = dst.length - n := by omega
  have hplace : ((n + (dst.length - n) : Nat) : Int) = dst.length := by omega
  rw [hplace] at hrun
  rw [pasteBigintLeNegative, ← hn]
  simp only [bind, Except.bind, hfirst, hcount, hrun, hdata]
  rfl

theorem littleBytes_bignumValue {digits : List UInt64} {n : Nat}
    (h : digits.length ≤ 1 ∨ n ≤ 8) :
    littleBytes (-((digits.headD 0).toNat : Int)) n = littleBytes (bignumValue true digits) n := by
  apply List.map_congr_left
  intro j hj
  rw [lowByte_bignumValue]
  exact h.imp_right fun hle => Nat.lt_of_lt_of_le (List.mem_range.mp hj) hle

/-- The low byte first, of the first digit, as long as nothing is left of the data. -/
theorem pasteBigint_of_little {digits : List UInt64} {size : Nat}
    (hlittle : flags.contains .little = true) (hsize : 0 < size)
    (hwhole : byteSizeRoundedUp size = dst.length)
    (hdigits : digits.length ≤ 1 ∨ dst.length ≤ 8)
    (hborrow : debug = true → (digits.headD 0).toNat % 256 ≠ 0) :
    ∃ dst', pasteBigint debug true digits size dst 0 flags = .ok dst' ∧
      Puts dst dst' 0 (littleBits (bignumValue true digits) size) := by
  unfold byteSizeRoundedUp at hwhole
  have hpos : 0 < dst.length := by omega
  have hrun := pasteBigintLeNegative_of_pos hpos hborrow
  rw [littleBytes_bignumValue hdigits] at hrun
  generalize bignumValue true digits = v at hrun ⊢
  obtain ⟨q, r, hr, rfl⟩ : ∃ q r, r < 8 ∧ size = 8 * q + r :=
    ⟨size / 8, size % 8, by omega, by omega⟩
  have hoffs : lastByteBits (8 * q + r) = r := by
    unfold lastByteBits
    omega
  rw [pasteBigint]
  simp only [if_neg (Nat.ne_of_gt hsize), hlittle, if_true, hrun, bind, Except.bind, hoffs]
  by_cases hzero : r = 0
  · subst hzero
    obtain rfl : dst.length = q := by omega
    refine ⟨_, if_neg (fun hne => hne rfl), ?_⟩
    rw [Nat.add_zero, littleBits_of_dvd]
    apply puts_of_front (length_littleBytes v _) List.prefix_rfl
    rw [length_bits, length_littleBytes]
    omega
  · obtain hlength : dst.length = q + 1 := by omega
    have hlast : decrement debug ((dst.length : Nat) : Int) = .ok ((q : Nat) : Int) := by
      rw [decrement_of_pos hpos, hlength, Nat.add_sub_cancel]
    have hin : q < (littleBytes v dst.length).length := by
      rw [length_littleBytes]
      omega
    have hset : (littleBytes v dst.length).set q (lowByte (v / 2 ^ (8 * q) * 2 ^ (8 - r))) =
        littleBytes v q ++ [lowByte (v / 2 ^ (8 * q) * 2 ^ (8 - r))] := by
      rw [hlength, littleBytes_succ, List.set_append_right _ _ (by simp), length_littleBytes,
        Nat.sub_self, List.set_cons_zero]
    refine ⟨littleBytes v q ++ [lowByte (v / 2 ^ (8 * q) * 2 ^ (8 - r))], ?_, ?_⟩
    · rw [if_pos hzero]
      simp only [hlast, if_neg (show ¬ ((q : Nat) : Int) < 0 by omega), Int.toNat_natCast,
        byteAt, getElem?_littleBytes v (show q < dst.length by omega), Option.elim_some]
      rw [setAt_of_lt hin, lowByte_shiftLeft _ (by omega), hset]
    · rw [littleBits_eq v hr]
      apply puts_of_front
      · rw [List.length_append, length_littleBytes, hlength]
        rfl
      · rw [bits_append, bits_cons, bits_nil, List.append_nil]
        exact (List.prefix_append_right_inj _).mpr (intBits_isFront _ (by omega))
      · rw [List.length_append, length_bits, length_littleBytes, length_intBits]
        omega

/-! ## Integers -/

def integerValue : BuildTerm → Option Int
  | .small val => some val
  | .bignum negative digits => some (bignumValue negative digits)
  | _ => none

/-- The bits that an integer is to be written as; what is native is so on machines with the
low byte first. -/
def integerBits (flags : BsFlags) (val : Int) (size : Nat) : List Bool :=
  if flags.contains .little ∨ flags.contains .native then littleBits val size
  else intBits val size

/-- Where an integer is written as it should be, in a binary of so many bits. -/
def IntegerPlaced (debug : Bool) (flags : BsFlags) (offset size total : Nat) : BuildTerm → Prop
  | .small _ =>
      size = 0 ∨
      offset % 8 + size < 8 ∧ (offset % 8 ≠ 0 ∨ offset < 64) ∨
      flags.contains .little = false ∧ 8 ≤ offset % 8 + size ∧
        (offset % 8 ≠ 0 ∧ offset % 8 + size = 8 ∨
          (flags.contains .native = false ∨ size ≤ 8) ∧ PastedWhole (tailSize offset size) ∧
            byteSizeRoundedUp (offset + size) = byteSizeRoundedUp total)
  | .bignum negative digits =>
      size = 0 ∨
      offset = 0 ∧ flags.contains .little = true ∧ negative = true ∧
        byteSizeRoundedUp size = byteSizeRoundedUp total ∧
        (digits.length ≤ 1 ∨ total ≤ 64) ∧
        (debug = true → (digits.headD 0).toNat % 256 ≠ 0)
  | _ => False

theorem integerBits_of_big {size : Nat} (hlittle : flags.contains .little = false)
    (hnative : flags.contains .native = false ∨ size ≤ 8) :
    integerBits flags val size = intBits val size := by
  rw [integerBits]
  split
  next h =>
    rcases hnative with hnone | hsmall
    · rw [hlittle, hnone] at h
      rcases h with h | h <;> cases h
    · exact littleBits_eq_intBits val hsmall
  next => rfl

@[simp]
theorem length_integerBits (flags : BsFlags) (val : Int) (size : Nat) :
    (integerBits flags val size).length = size := by
  rw [integerBits]
  split
  · exact length_littleBits val size
  · exact length_intBits val size

theorem addWords_of_lt {a b : Nat} (h : a + b < 2 ^ 64) : addWords debug a b = .ok (a + b) := by
  rw [addWords, if_neg (by omega), Nat.mod_eq_of_lt h]

theorem putInteger_zero (writeVal : BuildTerm) (offset : Nat) :
    putInteger debug writeVal 0 dst offset flags = .ok dst := by
  unfold putInteger
  rw [if_pos rfl]
  rfl

theorem integerBits_zero : integerBits flags val 0 = [] :=
  List.eq_nil_of_length_eq_zero (length_integerBits flags val 0)

theorem putInteger_of_small {offset size total : Nat}
    (hplaced : IntegerPlaced debug flags offset size total (.small val))
    (hroom : offset + size ≤ total) (htotal : total ≤ 512)
    (hlength : dst.length = byteSizeRoundedUp total)
    (hclear : offset % 8 = 0 → offset < 64 → offset / 8 < dst.length →
      dst[offset / 8]? = some 0) :
    ∃ dst', putInteger debug (.small val) size dst offset flags = .ok dst' ∧
      Puts dst dst' offset (integerBits flags val size) := by
  have hbytes : byteSizeRoundedUp total = (total + 8 - 1) / 8 := rfl
  have hsum : addWords debug (lastByteBits offset) size = .ok (lastByteBits offset + size) := by
    unfold lastByteBits
    exact addWords_of_lt (by omega)
  by_cases hzero : size = 0
  · subst hzero
    refine ⟨dst, putInteger_zero _ _, ?_⟩
    rw [integerBits_zero]
    exact Puts.nil dst offset
  · have hin : offset / 8 < dst.length := by omega
    rw [putInteger, if_neg hzero]
    simp only [hsum, bind, Except.bind]
    unfold lastByteBits byteSizeRoundedDown
    rcases hplaced with hnone | ⟨hfit, hfront⟩ | ⟨hbig, hover, hends⟩
    · exact absurd hnone hzero
    · rw [if_pos hfit]
      have hbits : integerBits flags val size = intBits val size := by
        rw [integerBits]
        split
        · exact littleBits_eq_intBits val (by omega)
        · rfl
      rw [hbits]
      apply putBitsOneByte_of_fit (by omega) hfit (List.getElem?_eq_getElem hin)
      intro haligned
      have hold := hclear haligned (by omega) hin
      rw [List.getElem?_eq_getElem hin] at hold
      exact Option.some.inj hold
    · rw [if_neg (by omega)]
      by_cases haligned : offset % 8 = 0
      · obtain ⟨hnative, hpasted, hend⟩ := hends.resolve_left (fun h => h.1 haligned)
        rw [tailSize, if_pos haligned] at hpasted
        rw [if_pos haligned, integerBits_of_big hbig hnative, fmtInt]
        obtain ⟨dst', hrun, hputs⟩ := @pasteSmallint_of_whole debug flags dst val size
          (offset / 8) hbig hpasted
          (by
            rw [hlength, ← hend]
            unfold byteSizeRoundedUp
            omega) (offset / 8)
        rw [show 8 * (offset / 8) = offset by omega] at hputs
        exact ⟨dst', hrun, hputs⟩
      · have hnative : flags.contains .native = false ∨ size ≤ 8 := by
          rcases hends with ⟨_, hends⟩ | ⟨hnative, _⟩
          · exact Or.inr (by omega)
          · exact hnative
        rw [if_neg haligned, hbig, if_neg Bool.false_ne_true, integerBits_of_big hbig hnative]
        apply putBitsBigEndian_of_fit hbig haligned hover hin
        rcases hends with ⟨_, hends⟩ | ⟨_, hpasted, hend⟩
        · exact Or.inl hends
        · exact Or.inr ⟨hpasted, by rw [hlength, ← hend]⟩

theorem putInteger_of_bignum {offset size total : Nat} {negative : Bool} {digits : List UInt64}
    (hplaced : IntegerPlaced debug flags offset size total (.bignum negative digits))
    (hlength : dst.length = byteSizeRoundedUp total) :
    ∃ dst', putInteger debug (.bignum negative digits) size dst offset flags = .ok dst' ∧
      Puts dst dst' offset (integerBits flags (bignumValue negative digits) size) := by
  by_cases hzero : size = 0
  · subst hzero
    refine ⟨dst, putInteger_zero _ _, ?_⟩
    rw [integerBits_zero]
    exact Puts.nil dst offset
  · obtain ⟨rfl, hlittle, rfl, hwhole, hdigits, hborrow⟩ := hplaced.resolve_left hzero
    unfold putInteger
    rw [if_neg hzero, integerBits, if_pos (Or.inl hlittle)]
    simp only [if_true, fmtInt]
    apply pasteBigint_of_little hlittle (by omega) _ _ hborrow
    · rw [hwhole, hlength]
    · refine hdigits.imp_right fun hle => ?_
      rw [hlength]
      unfold byteSizeRoundedUp
      omega

/-- An integer that is placed well is written, and nothing before it or behind it. -/
theorem putInteger_of_placed {offset size total : Nat} {writeVal : BuildTerm}
    (hplaced : IntegerPlaced debug flags offset size total writeVal)
    (hroom : offset + size ≤ total) (htotal : total ≤ 512)
    (hlength : dst.length = byteSizeRoundedUp total)
    (hclear : offset % 8 = 0 → offset < 64 → offset / 8 < dst.length →
      dst[offset / 8]? = some 0) :
    ∃ dst' v, putInteger debug writeVal size dst offset flags = .ok dst' ∧
      integerValue writeVal = some v ∧ Puts dst dst' offset (integerBits flags v size) := by
  cases writeVal with
  | small val =>
      obtain ⟨dst', hrun, hputs⟩ := putInteger_of_small hplaced hroom htotal hlength hclear
      exact ⟨dst', val, hrun, rfl, hputs⟩
  | bignum negative digits =>
      obtain ⟨dst', hrun, hputs⟩ := putInteger_of_bignum hplaced hlength
      exact ⟨dst', _, hrun, rfl, hputs⟩
  | _ => exact hplaced.elim

end BitsPaste

end Zeptobeam
