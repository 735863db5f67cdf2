/-
What is left of the data after a big integer was put.  Only its first digit is written; with
the low byte last the bytes lie at the end of the data, or one place in front of it.
-/
import Zeptobeam.IntegersPlaced

namespace Zeptobeam

namespace BitsPaste

open BitString StateExcept

variable {debug : Bool} {flags : BsFlags} {dst dst' : List UInt8}

/-- The bits that the last byte is short of, or that the first digit is shifted by. -/
def missingBits (size : Nat) : Nat :=
  (8 - size % 8) % 8

/-- The number whose bytes are written upwards, of a positive integer with its low byte last:
where no bits are missing the low byte of the digit is written twice. -/
def positiveDigit (d size : Nat) : Nat :=
  if missingBits size = 0 then d * 256 + d % 256 else d * 2 ^ missingBits size

/-- What is written at byte `k` of so many, of the first digit of a big integer. -/
def bytePut (flags : BsFlags) (negative : Bool) (d size length k : Nat) : Option UInt8 :=
  if flags.contains .little then
    if negative then
      some (lowByte (-(d : Int) / 2 ^ (8 * k) *
        2 ^ (if k + 1 = length then missingBits size else 0)))
    else if k = 0 then some (lowByte d)
    else if k ≤ 8 then some 0
    else none
  else if negative then
    -- behind nine bytes the padding skips every other one
    if length ≤ k + 9 ∨ k % 2 = 1 then
      some (lowByte (-((d * 2 ^ missingBits size : Nat) : Int) / 2 ^ (8 * (length - 1 - k))))
    else none
  else if k + 1 = length then none
  else some (lowByte ((positiveDigit d size : Int) / 2 ^ (8 * (length - 2 - k))))

/-- All of the data afterwards. -/
def bytesPut (flags : BsFlags) (negative : Bool) (d size : Nat) (dst : List UInt8) : List UInt8 :=
  dst.mapIdx fun k old => (bytePut flags negative d size dst.length k).getD old

/-- When the routines come to an end. -/
def StaysInside (debug : Bool) (flags : BsFlags) (negative : Bool) (d size length : Nat) : Prop :=
  if flags.contains .little then
    if negative then debug = true → d % 256 ≠ 0
    else 8 < length ∧ size % 8 = 0
  else 10 ≤ length ∧
    (negative = true → length % 2 = 0 ∧ (debug = true → d * 2 ^ missingBits size % 256 ≠ 0))

/-- When `put_integer` writes a big integer where it belongs, and nothing else: at the start of
the data, where the routines come to an end, each byte that is put belongs there, and the bits of
the integer in the bytes that are not put are in the data already. -/
def PutsBignumWhen (debug : Bool) (flags : BsFlags) (negative : Bool) (digits : List UInt64)
    (size : Nat) (dst : List UInt8) (offset : Nat) : Prop :=
  let d := (digits.headD 0).toNat
  let wanted := integerBits flags (bignumValue negative digits) size
  size = 0 ∨
    offset = 0 ∧ StaysInside debug flags negative d size dst.length ∧
      (∀ k < dst.length, ∀ b, bytePut flags negative d size dst.length k = some b →
        ∀ i < 8, (overwrite (bits dst) 0 wanted)[8 * k + i]? = some (byteBit b i)) ∧
      ∀ i < size, bytePut flags negative d size dst.length (i / 8) = none →
        (bits dst)[i]? = wanted[i]?

theorem getElem?_bytesPut {negative : Bool} {d size k : Nat} (hk : k < dst.length) :
    (bytesPut flags negative d size dst)[k]? =
      some ((bytePut flags negative d size dst.length k).getD dst[k]) := by
  simp [bytesPut, hk]

/-- The data is known by its bytes. -/
theorem eq_bytesPut {negative : Bool} {d size : Nat} (hlength : dst'.length = dst.length)
    (hbytes : ∀ k (hk : k < dst.length),
      dst'[k]? = some ((bytePut flags negative d size dst.length k).getD dst[k])) :
    dst' = bytesPut flags negative d size dst := by
  refine List.ext_getElem? fun k => ?_
  rcases Nat.lt_or_ge k dst.length with hlt | hge
  · rw [hbytes k hlt, getElem?_bytesPut hlt]
  · rw [List.getElem?_eq_none (by omega), List.getElem?_eq_none (by simpa [bytesPut] using hge)]

/-- The data is what is wanted when each byte that is put belongs there, and the others are there
already. -/
theorem bits_bytesPut_eq_iff {negative : Bool} {d size : Nat} {wanted : List Bool}
    (hroom : wanted.length ≤ 8 * dst.length) :
    bits (bytesPut flags negative d size dst) = overwrite (bits dst) 0 wanted ↔
      (∀ k < dst.length, ∀ b, bytePut flags negative d size dst.length k = some b →
        ∀ i < 8, (overwrite (bits dst) 0 wanted)[8 * k + i]? = some (byteBit b i)) ∧
      ∀ i < wanted.length, bytePut flags negative d size dst.length (i / 8) = none →
        (bits dst)[i]? = wanted[i]? := by
  have hbits := length_bits dst
  have hwanted (i : Nat) := @getElem?_overwrite 0 wanted (bits dst) (by omega) i
  have hput (k i : Nat) (hk : k < dst.length) (hi : i < 8) :
      (bits (bytesPut flags negative d size dst))[8 * k + i]? =
        some (byteBit ((bytePut flags negative d size dst.length k).getD dst[k]) i) := by
    rw [getElem?_bits_at _ _ hi, getElem?_bytesPut hk, Option.map_some]
  have hold (k i : Nat) (hk : k < dst.length) (hi : i < 8) :
      (bits dst)[8 * k + i]? = some (byteBit dst[k] i) := by
    rw [getElem?_bits_at _ _ hi, List.getElem?_eq_getElem hk, Option.map_some]
  constructor
  · intro h
    refine ⟨fun k hk b hb i hi => ?_, fun i hi hnone => ?_⟩
    · rw [← h, hput k i hk hi, hb, Option.getD_some]
    · have hplace : i = 8 * (i / 8) + i % 8 := by omega
      have hbit := hput (i / 8) (i % 8) (by omega) (by omega)
      rw [hnone, Option.getD_none, ← hold (i / 8) (i % 8) (by omega) (by omega), ← hplace, h,
        hwanted, if_neg (by omega), if_pos (by omega), Nat.sub_zero] at hbit
      exact hbit.symm
  · rintro ⟨hbelongs, hthere⟩
    refine List.ext_getElem? fun i => ?_
    rcases Nat.lt_or_ge i (8 * dst.length) with hlt | hge
    · have hplace : i = 8 * (i / 8) + i % 8 := by omega
      have hbit := hput (i / 8) (i % 8) (by omega) (by omega)
      rw [← hplace] at hbit
      rw [hbit]
      cases hb : bytePut flags negative d size dst.length (i / 8) with
      | some b =>
          have hright := hbelongs (i / 8) (by omega) b hb (i % 8) (by omega)
          rw [← hplace] at hright
          rw [Option.getD_some, hright]
      | none =>
          rw [Option.getD_none, ← hold (i / 8) (i % 8) (by omega) (by omega), ← hplace, hwanted,
            if_neg (by omega)]
          split
          next hi => exact hthere i (by omega) hb
          next hi => rfl
    · rw [List.getElem?_eq_none (by simpa [bytesPut] using hge), hwanted, if_neg (by omega),
        if_neg (by omega), List.getElem?_eq_none (by omega)]

/-! ## The low byte first -/

/-- Bytes of a digit, from a place upwards. -/
theorem digitUp_of_fit {k i : Nat} {d : UInt64} (hfit : i + k ≤ dst.length) :
    ∃ dst', digitUp dst i d k = .ok (dst', ((i + k : Nat) : Int)) ∧ dst'.length = dst.length ∧
      ∀ j, dst'[j]? =
        if i ≤ j ∧ j < i + k then some (lowByte ((d.toNat : Int) / 2 ^ (8 * (j - i))))
        else dst[j]? := by
  induction k generalizing dst i d with
  | zero =>
      refine ⟨dst, rfl, rfl, fun j => ?_⟩
      rw [if_neg (by omega)]
  | succ k ih =>
      have hshift : ((d >>> 8).toNat : Int) = (d.toNat : Int) / 256 :=
        congrArg Nat.cast (toNat_shiftRight_byte d)
      obtain ⟨dst', hrun, hlength, hat⟩ := @ih (dst.set i (lowByte (d.toNat : Int))) (i + 1)
        (d >>> 8) (by rw [List.length_set]; omega)
      refine ⟨dst', ?_, by rw [hlength, List.length_set], fun j => ?_⟩
      · rw [digitUp, toUInt8_eq_lowByte, setAt_of_lt (by omega)]
        simp only [bind, Except.bind]
        rw [show (i : Int) + 1 = ((i + 1 : Nat) : Int) by omega, hrun]
        congr 3
        omega
      · rw [hat]
        by_cases hj : j = i
        · subst hj
          rw [if_neg (by omega), if_pos (by omega), List.getElem?_set_self (by omega), Nat.sub_self]
          simp
        · rw [List.getElem?_set_ne (Ne.symm hj)]
          by_cases hin : i + 1 ≤ j ∧ j < i + 1 + k
          · rw [if_pos hin, if_pos (by omega), hshift,
              ediv_byte_ediv _ (show 8 * (j - i) = 8 + 8 * (j - (i + 1)) by omega)]
          · rw [if_neg hin, if_neg (by omega)]

theorem clearDown_of_lt {i : Nat} (hi : i < dst.length) :
    ∃ dst', clearDown dst i = .ok dst' ∧ dst'.length = dst.length ∧
      ∀ j, dst'[j]? = if 1 ≤ j ∧ j ≤ i then some 0 else dst[j]? := by
  induction i generalizing dst with
  | zero =>
      refine ⟨dst, rfl, rfl, fun j => ?_⟩
      rw [if_neg (by omega)]
  | succ i ih =>
      obtain ⟨dst', hrun, hlength, hat⟩ :=
        @ih (dst.set (i + 1) 0) (by rw [List.length_set]; omega)
      refine ⟨dst', ?_, by rw [hlength, List.length_set], fun j => ?_⟩
      · rw [clearDown, show ((i : Int) + 1) = ((i + 1 : Nat) : Int) by omega, setAt_of_lt hi]
        exact hrun
      · rw [hat]
        by_cases hj : j = i + 1
        · subst hj
          rw [if_neg (by omega), if_pos (by omega), List.getElem?_set_self hi]
        · rw [List.getElem?_set_ne (Ne.symm hj)]
          by_cases hin : 1 ≤ j ∧ j ≤ i
          · rw [if_pos hin, if_pos (by omega)]
          · rw [if_neg hin, if_neg (by omega)]

theorem lt_of_clearDown {i : Nat} (h : clearDown dst (i + 1) = .ok dst') : i + 1 < dst.length := by
  rw [clearDown] at h
  obtain ⟨middle, hset, -⟩ := except_bind_eq_ok_iff.mp h
  have hin := (length_of_setAt hset).1.2
  omega

/-- The first byte stays, and the eight bytes behind it are cleared. -/
theorem pasteBigintLePositive_eq_ok_iff {d : UInt64} {i : Int} (hpos : 0 < dst.length) :
    pasteBigintLePositive dst 0 d = .ok (dst', i) ↔
      8 < dst.length ∧ i = 0 ∧ dst'.length = dst.length ∧
        ∀ j (_ : j < dst.length), dst'[j]? =
          some (if j = 0 then lowByte (d.toNat : Int) else if j ≤ 8 then 0 else dst[j]) := by
  obtain ⟨first, hfirst, hlength, hat⟩ :=
    @digitUp_of_fit dst (min dst.length 8) 0 d (by omega)
  rw [Nat.zero_add] at hfirst hat
  have hrun : pasteBigintLePositive dst 0 d =
      (clearDown first (min dst.length 8)).bind fun dst => .ok (dst, 0) := by
    rw [pasteBigintLePositive]
    simp only [Nat.cast_zero] at hfirst ⊢
    simp only [hfirst, bind, Except.bind, Int.toNat_natCast]
    rfl
  rw [hrun]
  rcases Nat.lt_or_ge 8 dst.length with hlong | hshort
  · have hmin : min dst.length 8 = 8 := by omega
    rw [hmin] at hat ⊢
    obtain ⟨cleared, hclear, hlength', hat'⟩ := @clearDown_of_lt first 8 (by omega)
    have hbytes (j : Nat) (hj : j < dst.length) : cleared[j]? =
        some (if j = 0 then lowByte (d.toNat : Int) else if j ≤ 8 then 0 else dst[j]) := by
      rw [hat', hat]
      by_cases hzero : j = 0
      · subst hzero
        simp
      · rw [if_neg hzero]
        by_cases hle : j ≤ 8
        · rw [if_pos (by omega), if_pos hle]
        · rw [if_neg (by omega), if_neg (by omega), if_neg hle, List.getElem?_eq_getElem hj]
    rw [hclear, and_iff_right hlong, Except.bind]
    constructor
    · intro h
      cases h
      exact ⟨rfl, hlength'.trans hlength, hbytes⟩
    · rintro ⟨rfl, hsame, hbytes'⟩
      have hdata : cleared = dst' := by
        refine List.ext_getElem? fun j => ?_
        rcases Nat.lt_or_ge j dst.length with hlt | hge
        · rw [hbytes j hlt, hbytes' j hlt]
        · rw [List.getElem?_eq_none (by omega), List.getElem?_eq_none (by omega)]
      rw [hdata]
  · refine iff_of_false (fun h => ?_) fun h => by omega
    obtain ⟨cleared, hclear, -⟩ := except_bind_eq_ok_iff.mp h
    obtain ⟨n, hn⟩ := Nat.exists_eq_add_of_le' (show 1 ≤ min dst.length 8 by omega)
    rw [hn] at hclear
    have := lt_of_clearDown hclear
    omega

theorem length_of_subc {x : UInt8} {carry carry' : Bool} {i : Int}
    (h : subc debug x carry dst i = .ok (dst', carry')) : dst'.length = dst.length := by
  rw [subc] at h
  generalize (if carry then (1 : UInt8) else 0) = c at h
  dsimp only at h
  split at h
  next => cases h
  next =>
    obtain ⟨middle, hset, h⟩ := except_bind_eq_ok_iff.mp h
    cases h
    exact (length_of_setAt hset).2

theorem ne_zero_of_subc {x : UInt8} {i : Int} {rest : List UInt8 × Bool}
    (h : subc debug x true dst i = .ok rest) (hdebug : debug = true) : x ≠ 0 := by
  rintro rfl
  rw [subc] at h
  simp only [if_true, hdebug, true_and] at h
  cases h

/-- A debug build has no borrow from the low byte. -/
theorem ne_zero_of_pasteBigintLeNegative {d : UInt64} {rest : List UInt8 × Int}
    (hpos : 0 < dst.length) (h : pasteBigintLeNegative debug dst 0 d = .ok rest)
    (hdebug : debug = true) : d.toNat % 256 ≠ 0 := by
  obtain ⟨n, hn⟩ := Nat.exists_eq_add_of_le' (show 1 ≤ min dst.length 8 by omega)
  rw [pasteBigintLeNegative, hn] at h
  obtain ⟨_, hup, -⟩ := except_bind_eq_ok_iff.mp h
  rw [subcUp] at hup
  obtain ⟨_, hsubc, -⟩ := except_bind_eq_ok_iff.mp hup
  have hne := ne_zero_of_subc hsubc hdebug
  rwa [Ne, ← UInt8.toNat_inj, UInt64.toNat_toUInt8] at hne

/-! ## The low byte last -/

/-- Bytes of what is left of a digit, from a place downwards; the carry of a debug build is
clear. -/
theorem subcDown_of_fit {k i : Nat} {acc : UInt64} {carry : Bool} (hfit : k ≤ i)
    (hi : i < dst.length) (hclear : debug = true → carry = false) :
    ∃ dst' acc' carry',
      subcDown debug dst i acc carry k = .ok (dst', ((i - k : Nat) : Int), acc', carry') ∧
      dst'.length = dst.length ∧ acc'.toNat = acc.toNat / 2 ^ (8 * k) ∧
      (∀ j, dst'[j]? =
        if i < j + k ∧ j ≤ i then some (lowByte (complement acc.toNat carry / 2 ^ (8 * (i - j))))
        else dst[j]?) ∧
      complement (acc.toNat / 2 ^ (8 * k)) carry' = complement acc.toNat carry / 2 ^ (8 * k) ∧
      (debug = true → carry' = false) := by
  induction k generalizing dst i acc carry with
  | zero =>
      refine ⟨dst, acc, carry, rfl, rfl, by simp, fun j => ?_, by simp, hclear⟩
      rw [if_neg (by omega)]
  | succ k ih =>
      have hx : acc.toUInt8.toNat = acc.toNat % 256 := UInt64.toNat_toUInt8 acc
      have hshift : (acc >>> 8).toNat = acc.toNat / 256 := toNat_shiftRight_byte acc
      obtain ⟨hbyte, hrest⟩ := @complement_step _ _ carry hx
      have hnext : debug = true → (carry && decide (acc.toUInt8 = 0)) = false := by
        intro hdebug
        rw [hclear hdebug, Bool.false_and]
      obtain ⟨dst', acc', carry', hrun, hlength, hacc, hat, hleft, hclear'⟩ := @ih
        (dst.set i (~~~(acc.toUInt8 - if carry then 1 else 0))) (i - 1) (acc >>> 8)
        (carry && decide (acc.toUInt8 = 0)) (by omega) (by rw [List.length_set]; omega) hnext
      have hpow : 2 ^ (8 * (k + 1)) = 256 * 2 ^ (8 * k) := by
        rw [show 8 * (k + 1) = 8 + 8 * k by omega, pow_add]
        rfl
      refine ⟨dst', acc', carry', ?_, by rw [hlength, List.length_set], ?_, fun j => ?_, ?_,
        hclear'⟩
      · rw [subcDown, subc_eq hi (fun hdebug hset => by rw [hclear hdebug] at hset; cases hset)]
        simp only [bind, Except.bind, decrement_of_pos (show 0 < i by omega), hrun]
        congr 3
        omega
      · rw [hacc, hshift, hpow, Nat.div_div_eq_div_mul]
      · rw [hat, hshift, hrest, hbyte]
        by_cases hj : j = i
        · subst hj
          rw [if_neg (by omega), if_pos (by omega), List.getElem?_set_self hi, Nat.sub_self]
          simp
        · rw [List.getElem?_set_ne (Ne.symm hj)]
          by_cases hin : i - 1 < j + k ∧ j ≤ i - 1
          · rw [if_pos hin, if_pos (by omega),
              ediv_byte_ediv _ (show 8 * (i - j) = 8 + 8 * (i - 1 - j) by omega)]
          · rw [if_neg hin, if_neg (by omega)]
      · rw [hshift, hrest] at hleft
        rw [hpow, ← Nat.div_div_eq_div_mul, hleft, Int.ediv_ediv_of_nonneg (by decide)]
        congr 1
        rw [show 8 * (k + 1) = 8 + 8 * k by omega, pow_add]
        rfl

theorem subcDown_inside {k : Nat} {i i' : Int} {acc acc' : UInt64} {carry carry' : Bool}
    (h : subcDown debug dst i acc carry k = .ok (dst', i', acc', carry')) :
    dst'.length = dst.length ∧ i' = i - k := by
  induction k generalizing dst i acc carry with
  | zero =>
      cases h
      exact ⟨rfl, by simp⟩
  | succ k ih =>
      rw [subcDown] at h
      obtain ⟨⟨middle, carry₁⟩, hsubc, h⟩ := except_bind_eq_ok_iff.mp h
      obtain ⟨next, hnext, h⟩ := except_bind_eq_ok_iff.mp h
      obtain ⟨hlength, hplace⟩ := ih h
      rw [hlength, hplace, eq_of_decrement hnext]
      refine ⟨length_of_subc hsubc, ?_⟩
      push_cast
      ring

theorem complement_zero_div (carry : Bool) (n : Nat) :
    complement 0 carry / 2 ^ n = complement 0 carry := by
  have hpos := two_pow_pos n
  cases carry with
  | false =>
      rw [Int.ediv_eq_iff_of_pos hpos]
      simp [complement]
      omega
  | true => simp [complement]

/-- The padding skips every other byte, and so it ends at the first one. -/
theorem padNegative_even {m : Nat} {carry : Bool} (hfit : 2 * m ≤ dst.length)
    (hclear : debug = true → carry = false) :
    ∃ dst', padNegative debug dst 0 carry (2 * m) = .ok dst' ∧ dst'.length = dst.length ∧
      ∀ j, dst'[j]? =
        if j < 2 * m ∧ j % 2 = 1 then some (lowByte (complement 0 carry)) else dst[j]? := by
  induction m generalizing dst with
  | zero =>
      refine ⟨dst, rfl, rfl, fun j => ?_⟩
      rw [if_neg (by omega)]
  | succ m ih =>
      have hbyte : ~~~((0 : UInt64).toUInt8 - if carry then 1 else 0) =
          lowByte (complement 0 carry) :=
        (@complement_step 0 0 carry rfl).1
      have hcarry : (carry && decide ((0 : UInt64).toUInt8 = 0)) = carry := by
        cases carry <;> rfl
      obtain ⟨dst', hrun, hlength, hat⟩ :=
        @ih (dst.set (2 * m + 1) (lowByte (complement 0 carry))) (by rw [List.length_set]; omega)
      refine ⟨dst', ?_, by rw [hlength, List.length_set], fun j => ?_⟩
      · rw [show 2 * (m + 1) = 2 * m + 2 by omega, padNegative,
          show ((2 * m : Nat) : Int) + 1 = ((2 * m + 1 : Nat) : Int) by omega,
          subc_eq (by omega) (fun hdebug hset => by rw [hclear hdebug] at hset; cases hset),
          hbyte, hcarry]
        exact hrun
      · rw [hat]
        by_cases hj : j = 2 * m + 1
        · subst hj
          rw [if_neg (by omega), if_pos (by omega), List.getElem?_set_self (by omega)]
        · rw [List.getElem?_set_ne (Ne.symm hj)]
          by_cases hin : j < 2 * m ∧ j % 2 = 1
          · rw [if_pos hin, if_pos (by omega)]
          · rw [if_neg hin, if_neg (by omega)]

theorem padNegative_odd {m : Nat} {acc : UInt64} {carry : Bool} :
    padNegative debug dst acc carry (2 * m + 1) ≠ .ok dst' := by
  induction m generalizing dst acc carry with
  | zero =>
      intro h
      rw [padNegative] at h
      obtain ⟨_, -, h⟩ := except_bind_eq_ok_iff.mp h
      split at h <;> cases h
  | succ m ih =>
      intro h
      rw [show 2 * (m + 1) + 1 = 2 * m + 1 + 2 by omega, padNegative] at h
      obtain ⟨_, -, h⟩ := except_bind_eq_ok_iff.mp h
      exact ih h

theorem toNat_toUInt64_mod {n : Nat} (h : n < 64) : n.toUInt64.toNat % 64 = n := by
  simp only [Nat.toUInt64, UInt64.toNat_ofNat']
  omega

/-! ### The first digit, moved up -/

section Shifted

variable {d : UInt64} {offs : Nat}

theorem toNat_shiftLeft_low (hoffs : offs < 8) :
    (d <<< offs.toUInt64).toNat % 256 = d.toNat * 2 ^ offs % 256 := by
  rw [UInt64.toNat_shiftLeft, toNat_toUInt64_mod (by omega), Nat.shiftLeft_eq]
  omega

theorem toNat_shiftRight_high (hoffs : offs < 8) :
    (d >>> (8 - offs).toUInt64).toNat = d.toNat * 2 ^ offs / 256 := by
  have hpow : 2 ^ offs * 2 ^ (8 - offs) = 256 := by
    rw [← pow_add, Nat.add_sub_cancel' (by omega)]
    rfl
  rw [UInt64.toNat_shiftRight, toNat_toUInt64_mod (by omega), Nat.shiftRight_eq_div_pow, ← hpow,
    Nat.mul_comm d.toNat, Nat.mul_div_mul_left _ _ (Nat.two_pow_pos offs)]

theorem shifted_le (hoffs : offs < 8) : d.toNat * 2 ^ offs ≤ 2 ^ 64 * 2 ^ 7 :=
  Nat.mul_le_mul (Nat.le_of_lt d.toNat_lt) (Nat.pow_le_pow_right (by omega) (by omega))

theorem nineBytes_eq_zero {x : Nat} (hx : x < 2 ^ 72) : x / 256 / 2 ^ (8 * 8) = 0 := by
  rw [Nat.div_div_eq_div_mul]
  exact Nat.div_eq_of_lt hx

end Shifted

/-- The nine last bytes, and every other one of those before them. -/
theorem pasteBigintBeNegative_of_fit {d : UInt64} {offs : Nat} (hoffs : offs < 8)
    (hlong : 10 ≤ dst.length) (heven : dst.length % 2 = 0)
    (hborrow : debug = true → d.toNat * 2 ^ offs % 256 ≠ 0) :
    ∃ dst', pasteBigintBeNegative debug dst d offs = .ok dst' ∧ dst'.length = dst.length ∧
      ∀ j (_ : j < dst.length), dst'[j]? =
        some (if dst.length ≤ j + 9 ∨ j % 2 = 1 then
          lowByte (-((d.toNat * 2 ^ offs : Nat) : Int) / 2 ^ (8 * (dst.length - 1 - j)))
        else dst[j]) := by
  obtain ⟨x, hx⟩ : ∃ x, d.toNat * 2 ^ offs = x := ⟨_, rfl⟩
  rw [hx] at hborrow ⊢
  have hlow : (d <<< offs.toUInt64).toUInt8.toNat = x % 256 := by
    rw [UInt64.toNat_toUInt8, ← hx]
    exact toNat_shiftLeft_low hoffs
  have hhigh : (d >>> (8 - offs).toUInt64).toNat = x / 256 := by
    rw [toNat_shiftRight_high hoffs, hx]
  have hnone : x / 256 / 2 ^ (8 * 8) = 0 := by
    have hle := @shifted_le d offs hoffs
    exact nineBytes_eq_zero (by omega)
  obtain ⟨hbyte, hrest⟩ := @complement_step _ x true hlow
  simp only [if_true, Bool.true_and] at hbyte hrest
  have hlast : decrement debug (dst.length : Nat) = .ok ((dst.length - 1 : Nat) : Int) :=
    decrement_of_pos (by omega)
  have hnext : decrement debug ((dst.length - 1 : Nat) : Int) =
      .ok ((dst.length - 2 : Nat) : Int) :=
    decrement_of_pos (by omega)
  have hne : debug = true → (d <<< offs.toUInt64).toUInt8 ≠ 0 := by
    intro hdebug
    rw [Ne, ← UInt8.toNat_inj, hlow]
    exact hborrow hdebug
  have hclear : debug = true → decide ((d <<< offs.toUInt64).toUInt8 = 0) = false := by
    intro hdebug
    rw [decide_eq_false (hne hdebug)]
  -- the low byte
  have hfirst : subcDown debug dst ((dst.length - 1 : Nat) : Int) (d <<< offs.toUInt64) true 1 =
      .ok (dst.set (dst.length - 1) (lowByte (complement x true)),
        ((dst.length - 2 : Nat) : Int), d <<< offs.toUInt64 >>> 8,
        decide ((d <<< offs.toUInt64).toUInt8 = 0)) := by
    rw [subcDown, subc_eq (by omega) (fun hdebug _ => hne hdebug)]
    simp only [bind, Except.bind, hnext, if_true, hbyte, Bool.true_and, subcDown]
  -- the eight bytes in front of it
  obtain ⟨second, acc, carry, hsecond, hlength, hacc, hat, hleft, hclear'⟩ :=
    @subcDown_of_fit debug (dst.set (dst.length - 1) (lowByte (complement x true))) 8
      (dst.length - 2) (d >>> (8 - offs).toUInt64)
      (decide ((d <<< offs.toUInt64).toUInt8 = 0)) (by omega)
      (by rw [List.length_set]; omega) hclear
  rw [List.length_set] at hlength
  rw [hhigh, hrest] at hat
  rw [hhigh, hrest] at hleft
  rw [hhigh, hnone] at hacc
  obtain rfl : acc = 0 := UInt64.toNat_inj.mp hacc
  rw [hnone, Int.ediv_ediv_of_nonneg (by decide)] at hleft
  -- what is in front of them
  obtain ⟨m, hm⟩ : ∃ m, dst.length - 10 = 2 * m := ⟨(dst.length - 10) / 2, by omega⟩
  obtain ⟨dst', hpad, hlength', hat'⟩ := @padNegative_even debug second m carry (by omega) hclear'
  refine ⟨dst', ?_, by omega, fun j hj => ?_⟩
  · have hplace : dst.length - 2 - 8 = dst.length - 10 := by omega
    rw [hplace] at hsecond
    rw [pasteBigintBeNegative, hlast]
    simp only [bind, Except.bind, if_neg (show ¬ dst.length < 8 by omega), hfirst, hsecond,
      hm, if_neg (show ¬ ((2 * m : Nat) : Int) < 0 by omega), Int.toNat_natCast, hpad]
  · have hvalue : complement x true = -(x : Int) := by
      rw [complement, if_pos rfl, Int.zero_sub]
    rw [hvalue] at hat hleft
    rw [hat', hat]
    by_cases hpadded : j < 2 * m ∧ j % 2 = 1
    · rw [if_pos hpadded, if_pos (.inr hpadded.2), ← complement_zero_div carry
        (8 * (dst.length - 10 - j)), hleft, Int.ediv_ediv_of_nonneg (by decide)]
      congr 3
      rw [show (256 : Int) * 2 ^ (8 * 8) = 2 ^ 72 by rfl, ← pow_add]
      congr 1
      omega
    · rw [if_neg hpadded]
      by_cases hin : dst.length - 2 < j + 8 ∧ j ≤ dst.length - 2
      · rw [if_pos hin, if_pos (by omega), ediv_byte_ediv _
          (show 8 * (dst.length - 1 - j) = 8 + 8 * (dst.length - 2 - j) by omega)]
      · rw [if_neg hin]
        by_cases hend : dst.length - 1 = j
        · rw [hend, List.getElem?_set_self hj, if_pos (by omega), Nat.sub_self]
          simp
        · rw [List.getElem?_set_ne hend, if_neg (by omega), List.getElem?_eq_getElem hj]

theorem inside_of_pasteBigintBeNegative {d : UInt64} {offs : Nat} (hoffs : offs < 8)
    (h : pasteBigintBeNegative debug dst d offs = .ok dst') :
    10 ≤ dst.length ∧ dst.length % 2 = 0 ∧
      (debug = true → d.toNat * 2 ^ offs % 256 ≠ 0) := by
  rw [pasteBigintBeNegative] at h
  obtain ⟨last, hlast, h⟩ := except_bind_eq_ok_iff.mp h
  have hplace := eq_of_decrement hlast
  split at h
  next hshort =>
    obtain ⟨⟨middle, i, acc, carry⟩, hrun, h⟩ := except_bind_eq_ok_iff.mp h
    obtain ⟨-, hplace'⟩ := subcDown_inside hrun
    dsimp only at h
    rw [if_pos (by omega)] at h
    cases h
  next hlong =>
    obtain ⟨⟨first, i₁, acc₁, carry₁⟩, hfirst, h⟩ := except_bind_eq_ok_iff.mp h
    obtain ⟨⟨second, i₂, acc₂, carry₂⟩, hsecond, h⟩ := except_bind_eq_ok_iff.mp h
    obtain ⟨-, hplace₁⟩ := subcDown_inside hfirst
    obtain ⟨-, hplace₂⟩ := subcDown_inside hsecond
    dsimp only at h
    split at h
    next => cases h
    next hnonneg =>
      refine ⟨by omega, ?_, fun hdebug => ?_⟩
      · by_contra hodd
        obtain ⟨m, hm⟩ : ∃ m, i₂.toNat = 2 * m + 1 := ⟨i₂.toNat / 2, by omega⟩
        rw [hm] at h
        exact padNegative_odd h
      · rw [subcDown] at hfirst
        obtain ⟨_, hsubc, -⟩ := except_bind_eq_ok_iff.mp hfirst
        have hne := ne_zero_of_subc hsubc hdebug
        rw [Ne, ← UInt8.toNat_inj, UInt64.toNat_toUInt8, UInt64.toNat_shiftLeft,
          toNat_toUInt64_mod (by omega), Nat.shiftLeft_eq] at hne
        change ¬ d.toNat * 2 ^ offs % 2 ^ 64 % 2 ^ 8 = 0 at hne
        omega

theorem digitDown_of_fit {k i : Nat} {acc : UInt64} (hfit : k ≤ i) (hi : i ≤ dst.length) :
    ∃ dst' acc', digitDown debug dst i acc k = .ok (dst', ((i - k : Nat) : Int), acc') ∧
      dst'.length = dst.length ∧ acc'.toNat = acc.toNat / 2 ^ (8 * k) ∧
      ∀ j, dst'[j]? =
        if i ≤ j + k ∧ j < i then some (lowByte ((acc.toNat : Int) / 2 ^ (8 * (i - 1 - j))))
        else dst[j]? := by
  induction k generalizing dst i acc with
  | zero =>
      refine ⟨dst, acc, rfl, rfl, by simp, fun j => ?_⟩
      rw [if_neg (by omega)]
  | succ k ih =>
      have hshift : (acc >>> 8).toNat = acc.toNat / 256 := toNat_shiftRight_byte acc
      obtain ⟨dst', acc', hrun, hlength, hacc, hat⟩ := @ih
        (dst.set (i - 1) (lowByte (acc.toNat : Int))) (i - 1) (acc >>> 8) (by omega)
        (by rw [List.length_set]; omega)
      refine ⟨dst', acc', ?_, by rw [hlength, List.length_set], ?_, fun j => ?_⟩
      · rw [digitDown, decrement_of_pos (by omega), toUInt8_eq_lowByte]
        simp only [bind, Except.bind, setAt_of_lt (show i - 1 < dst.length by omega), hrun]
        congr 3
        omega
      · rw [hacc, hshift, Nat.div_div_eq_div_mul, show 8 * (k + 1) = 8 + 8 * k by omega, pow_add]
        rfl
      · rw [hat, hshift]
        by_cases hj : i - 1 = j
        · subst hj
          rw [if_neg (by omega), if_pos (by omega), List.getElem?_set_self (by omega), Nat.sub_self]
          simp
        · rw [List.getElem?_set_ne hj]
          by_cases hin : i - 1 ≤ j + k ∧ j < i - 1
          · rw [if_pos hin, if_pos (by omega), Int.natCast_ediv, Nat.cast_ofNat,
              ediv_byte_ediv _ (show 8 * (i - 1 - j) = 8 + 8 * (i - 1 - 1 - j) by omega)]
          · rw [if_neg hin, if_neg (by omega)]

theorem digitDown_inside {k : Nat} {i i' : Int} {acc acc' : UInt64}
    (h : digitDown debug dst i acc k = .ok (dst', i', acc')) :
    dst'.length = dst.length ∧ i' = i - k ∧ (k ≠ 0 → 0 ≤ i') := by
  induction k generalizing dst i acc with
  | zero =>
      cases h
      exact ⟨rfl, by simp, fun hne => absurd rfl hne⟩
  | succ k ih =>
      rw [digitDown] at h
      obtain ⟨next, hnext, h⟩ := except_bind_eq_ok_iff.mp h
      obtain ⟨middle, hset, h⟩ := except_bind_eq_ok_iff.mp h
      have hplace := eq_of_decrement hnext
      obtain ⟨hin, hlength⟩ := length_of_setAt hset
      obtain ⟨hlength', hplace', hnonneg⟩ := ih h
      refine ⟨hlength'.trans hlength, by omega, fun _ => ?_⟩
      rcases Nat.eq_zero_or_pos k with rfl | hpos
      · omega
      · exact hnonneg (Nat.ne_of_gt hpos)

section PositiveDigit

variable {d : UInt64} {size : Nat}

theorem missingBits_lt (size : Nat) : missingBits size < 8 :=
  Nat.mod_lt _ (by decide)

theorem positiveDigit_lt : positiveDigit d.toNat size < 2 ^ 72 := by
  have hdigit := d.toNat_lt
  have hle := @shifted_le d _ (missingBits_lt size)
  unfold positiveDigit
  split
  next => omega
  next => omega

theorem positiveDigit_low :
    (d <<< (byteShift (missingBits size)).toUInt64).toNat % 256 =
      positiveDigit d.toNat size % 256 := by
  have hlt := missingBits_lt size
  rw [byteShift, Nat.mod_eq_of_lt hlt, toNat_shiftLeft_low hlt, positiveDigit]
  by_cases hnone : missingBits size = 0
  · rw [hnone, if_pos rfl, pow_zero]
    omega
  · rw [if_neg hnone]

theorem positiveDigit_high :
    (d >>> (byteShift (8 - missingBits size)).toUInt64).toNat =
      positiveDigit d.toNat size / 256 := by
  have hlt := missingBits_lt size
  rw [positiveDigit]
  by_cases hnone : missingBits size = 0
  · -- the count of eight is one of zero
    have hshift : d >>> (byteShift (8 - 0)).toUInt64 = d := UInt64.shiftRight_zero
    rw [hnone, if_pos rfl, hshift]
    omega
  · rw [if_neg hnone, byteShift, Nat.mod_eq_of_lt (by omega), toNat_shiftRight_high hlt]

/-- Everything in front of the last byte. -/
theorem pasteBigintBePositive_of_fit (hlong : 10 ≤ dst.length) :
    ∃ dst', pasteBigintBePositive debug dst d (missingBits size) = .ok dst' ∧
      dst'.length = dst.length ∧
      ∀ j (_ : j < dst.length), dst'[j]? =
        some (if j + 1 = dst.length then dst[j]
        else lowByte ((positiveDigit d.toNat size : Int) / 2 ^ (8 * (dst.length - 2 - j)))) := by
  have hlow := @positiveDigit_low d size
  have hhigh := @positiveDigit_high d size
  have hsmall := @positiveDigit_lt d size
  generalize positiveDigit d.toNat size = x at hlow hhigh hsmall ⊢
  have hlast : decrement debug (dst.length : Nat) = .ok ((dst.length - 1 : Nat) : Int) :=
    decrement_of_pos (by omega)
  obtain ⟨first, acc₁, hfirst, hlength₁, -, hat₁⟩ := @digitDown_of_fit debug dst 1
    (dst.length - 1) (d <<< (byteShift (missingBits size)).toUInt64) (by omega) (by omega)
  obtain ⟨second, acc₂, hsecond, hlength₂, hacc₂, hat₂⟩ := @digitDown_of_fit debug first 8
    (dst.length - 2) (d >>> (byteShift (8 - missingBits size)).toUInt64) (by omega) (by omega)
  obtain ⟨third, acc₃, hthird, hlength₃, -, hat₃⟩ := @digitDown_of_fit debug second
    (dst.length - 10) (dst.length - 10) acc₂ (by omega) (by omega)
  rw [hhigh, nineBytes_eq_zero hsmall] at hacc₂
  rw [hhigh] at hat₂
  rw [hacc₂] at hat₃
  refine ⟨third, ?_, by omega, fun j hj => ?_⟩
  · rw [show dst.length - 1 - 1 = dst.length - 2 by omega] at hfirst
    rw [show dst.length - 2 - 8 = dst.length - 10 by omega] at hsecond
    rw [pasteBigintBePositive, hlast]
    simp only [bind, Except.bind, if_neg (show ¬ dst.length < 8 by omega), hfirst, hsecond,
      Int.toNat_natCast, hthird]
    rfl
  · rw [hat₃, hat₂, hat₁]
    by_cases hcleared : j < dst.length - 10
    · -- nothing is left of the digit
      have hzero : (x : Int) / 2 ^ (8 * (dst.length - 2 - j)) = 0 := by
        have hpow : 2 ^ 72 ≤ 2 ^ (8 * (dst.length - 2 - j)) :=
          Nat.pow_le_pow_right (by omega) (by omega)
        exact_mod_cast Nat.div_eq_of_lt (Nat.lt_of_lt_of_le hsmall hpow)
      rw [if_pos (by omega), if_neg (by omega), hzero]
      simp
    · rw [if_neg (by omega)]
      by_cases hin : j < dst.length - 2
      · rw [if_pos (by omega), if_neg (by omega), Int.natCast_ediv, Nat.cast_ofNat,
          ediv_byte_ediv _ (show 8 * (dst.length - 2 - j) = 8 + 8 * (dst.length - 2 - 1 - j) by
            omega)]
      · rw [if_neg (by omega)]
        by_cases hend : j + 1 = dst.length
        · rw [if_neg (by omega), if_pos hend, List.getElem?_eq_getElem hj]
        · obtain rfl : j = dst.length - 2 := by omega
          rw [if_pos (by omega), if_neg hend, Nat.sub_self,
            show dst.length - 1 - 1 - (dst.length - 2) = 0 by omega]
          rw [Nat.mul_zero, pow_zero, Int.ediv_one, Int.ediv_one, lowByte, lowByte]
          congr 3
          omega

end PositiveDigit

theorem inside_of_pasteBigintBePositive {d : UInt64} {offs : Nat} (hpos : 0 < dst.length)
    (h : pasteBigintBePositive debug dst d offs = .ok dst') : 10 ≤ dst.length := by
  rw [pasteBigintBePositive] at h
  obtain ⟨last, hlast, h⟩ := except_bind_eq_ok_iff.mp h
  have hplace := eq_of_decrement hlast
  split at h
  next hshort =>
    obtain ⟨⟨middle, i, acc⟩, hrun, -⟩ := except_bind_eq_ok_iff.mp h
    obtain ⟨-, hplace', hnonneg⟩ := digitDown_inside hrun
    have := hnonneg (Nat.ne_of_gt hpos)
    omega
  next hlong =>
    obtain ⟨⟨first, i₁, acc₁⟩, hfirst, h⟩ := except_bind_eq_ok_iff.mp h
    obtain ⟨⟨second, i₂, acc₂⟩, hsecond, -⟩ := except_bind_eq_ok_iff.mp h
    obtain ⟨-, hplace₁, -⟩ := digitDown_inside hfirst
    obtain ⟨-, hplace₂, hnonneg⟩ := digitDown_inside hsecond
    have := hnonneg (by decide)
    omega

/-! ## Either sign, either order -/

section Bignum

variable {negative : Bool} {digits : List UInt64} {size : Nat}

theorem pasteBigint_littleNegative_iff (hlittle : flags.contains .little = true)
    (hsize : 0 < size) (hpos : 0 < dst.length) :
    pasteBigint debug true digits size dst 0 flags = .ok dst' ↔
      (debug = true → (digits.headD 0).toNat % 256 ≠ 0) ∧
        dst' = bytesPut flags true (digits.headD 0).toNat size dst := by
  obtain ⟨d, hd⟩ : ∃ d, digits.headD 0 = d := ⟨_, rfl⟩
  rw [hd]
  have hfinal : (debug = true → d.toNat % 256 ≠ 0) →
      pasteBigint debug true digits size dst 0 flags =
        .ok (bytesPut flags true d.toNat size dst) := by
    intro hborrow
    have hrun := pasteBigintLeNegative_of_pos hpos hborrow
    have hlast : decrement debug (dst.length : Nat) = .ok ((dst.length - 1 : Nat) : Int) :=
      decrement_of_pos hpos
    rw [pasteBigint]
    simp only [if_neg (Nat.ne_of_gt hsize), hlittle, if_true, hd, hrun, bind, Except.bind,
      lastByteBits]
    by_cases hwhole : size % 8 = 0
    · simp only [hwhole, ne_eq, not_true, if_false]
      refine congrArg Except.ok (eq_bytesPut (length_littleBytes _ _) fun k hk => ?_)
      have hnone : missingBits size = 0 := by
        unfold missingBits
        omega
      rw [getElem?_littleBytes _ hk, bytePut]
      simp [hlittle, hnone]
    · have hnonneg : ¬ ((dst.length - 1 : Nat) : Int) < 0 := by omega
      have hin : dst.length - 1 < (littleBytes (-(d.toNat : Int)) dst.length).length := by
        rw [length_littleBytes]
        omega
      have hmissing : missingBits size = 8 - size % 8 := by
        unfold missingBits
        omega
      simp only [hwhole, ne_eq, not_false_eq_true, if_true, hlast, if_neg hnonneg,
        Int.toNat_natCast, byteAt,
        getElem?_littleBytes _ (show dst.length - 1 < dst.length by omega), Option.elim_some]
      rw [setAt_of_lt hin, lowByte_shiftLeft _ (by omega)]
      refine congrArg Except.ok (eq_bytesPut (by simp) fun k hk => ?_)
      rw [bytePut]
      simp only [hlittle, if_true, Option.getD_some]
      by_cases hk' : k + 1 = dst.length
      · obtain rfl : k = dst.length - 1 := by omega
        rw [List.getElem?_set_self hin, if_pos hk', hmissing]
      · rw [List.getElem?_set_ne (by omega), getElem?_littleBytes _ hk, if_neg hk', pow_zero,
          mul_one]
  constructor
  · intro h
    have hborrow : debug = true → d.toNat % 256 ≠ 0 := by
      intro hdebug
      have hrun := h
      rw [pasteBigint] at hrun
      simp only [if_neg (Nat.ne_of_gt hsize), hlittle, if_true, hd] at hrun
      obtain ⟨_, hpaste, -⟩ := except_bind_eq_ok_iff.mp hrun
      exact ne_zero_of_pasteBigintLeNegative hpos hpaste hdebug
    rw [hfinal hborrow] at h
    exact ⟨hborrow, (Except.ok.inj h).symm⟩
  · rintro ⟨hborrow, rfl⟩
    exact hfinal hborrow

theorem pasteBigint_littlePositive_iff (hlittle : flags.contains .little = true)
    (hsize : 0 < size) (hpos : 0 < dst.length) :
    pasteBigint debug false digits size dst 0 flags = .ok dst' ↔
      (8 < dst.length ∧ size % 8 = 0) ∧
        dst' = bytesPut flags false (digits.headD 0).toNat size dst := by
  obtain ⟨d, hd⟩ : ∃ d, digits.headD 0 = d := ⟨_, rfl⟩
  rw [hd, pasteBigint]
  simp only [if_neg (Nat.ne_of_gt hsize), hlittle, if_true, hd, Bool.false_eq_true, if_false,
    lastByteBits]
  have hput (k : Nat) (hk : k < dst.length) :
      some ((bytePut flags false d.toNat size dst.length k).getD dst[k]) =
        some (if k = 0 then lowByte (d.toNat : Int) else if k ≤ 8 then 0 else dst[k]) := by
    rw [bytePut]
    simp only [hlittle, if_true, Bool.false_eq_true, if_false]
    by_cases hzero : k = 0
    · simp [hzero]
    · by_cases hle : k ≤ 8
      · simp [hzero, hle]
      · simp [hzero, hle]
  constructor
  · intro h
    obtain ⟨⟨middle, i⟩, hpaste, h⟩ := except_bind_eq_ok_iff.mp h
    obtain ⟨hlong, rfl, hlength, hbytes⟩ := (pasteBigintLePositive_eq_ok_iff hpos).mp hpaste
    by_cases hwhole : size % 8 = 0
    · simp only [hwhole, ne_eq, not_true, if_false] at h
      cases h
      exact ⟨⟨hlong, hwhole⟩, eq_bytesPut hlength fun k hk => (hbytes k hk).trans (hput k hk).symm⟩
    · -- the place of the byte to adjust is below zero
      simp only [hwhole, ne_eq, not_false_eq_true, if_true] at h
      obtain ⟨i, hi, h⟩ := except_bind_eq_ok_iff.mp h
      rw [eq_of_decrement hi] at h
      obtain ⟨msb, hmsb, -⟩ := except_bind_eq_ok_iff.mp h
      cases hmsb
  · rintro ⟨⟨hlong, hwhole⟩, rfl⟩
    have hrun : pasteBigintLePositive dst 0 d = .ok (bytesPut flags false d.toNat size dst, 0) :=
      (pasteBigintLePositive_eq_ok_iff hpos).mpr ⟨hlong, rfl, by simp [bytesPut], fun k hk => by
        rw [getElem?_bytesPut hk, hput k hk]⟩
    simp only [hrun, bind, Except.bind, hwhole, ne_eq, not_true, if_false]
    rfl

theorem pasteBigint_big (hbig : flags.contains .little = false) (hsize : 0 < size) :
    pasteBigint debug negative digits size dst 0 flags =
      if negative then pasteBigintBeNegative debug dst (digits.headD 0) (missingBits size)
      else pasteBigintBePositive debug dst (digits.headD 0) (missingBits size) := by
  have hoffs : (if lastByteBits size ≠ 0 then 8 - lastByteBits size else 0) = missingBits size := by
    unfold missingBits lastByteBits
    split
    · omega
    · omega
  rw [pasteBigint]
  simp only [if_neg (Nat.ne_of_gt hsize), hbig, Bool.false_eq_true, if_false, hoffs]

theorem pasteBigint_bigNegative_iff (hbig : flags.contains .little = false) (hsize : 0 < size) :
    pasteBigint debug true digits size dst 0 flags = .ok dst' ↔
      (10 ≤ dst.length ∧ dst.length % 2 = 0 ∧
        (debug = true → (digits.headD 0).toNat * 2 ^ missingBits size % 256 ≠ 0)) ∧
        dst' = bytesPut flags true (digits.headD 0).toNat size dst := by
  rw [pasteBigint_big hbig hsize, if_pos rfl]
  obtain ⟨d, hd⟩ : ∃ d, digits.headD 0 = d := ⟨_, rfl⟩
  rw [hd]
  have hoffs := missingBits_lt size
  have hrun (hlong : 10 ≤ dst.length) (heven : dst.length % 2 = 0)
      (hborrow : debug = true → d.toNat * 2 ^ missingBits size % 256 ≠ 0) :
      pasteBigintBeNegative debug dst d (missingBits size) =
        .ok (bytesPut flags true d.toNat size dst) := by
    obtain ⟨final, hfinal, hlength, hbytes⟩ :=
      pasteBigintBeNegative_of_fit hoffs hlong heven hborrow
    rw [hfinal, eq_bytesPut hlength fun k hk => ?_]
    rw [hbytes k hk, bytePut]
    simp only [hbig, Bool.false_eq_true, if_false, if_true]
    split
    next => rfl
    next => rfl
  constructor
  · intro h
    obtain ⟨hlong, heven, hborrow⟩ := inside_of_pasteBigintBeNegative hoffs h
    rw [hrun hlong heven hborrow] at h
    exact ⟨⟨hlong, heven, hborrow⟩, (Except.ok.inj h).symm⟩
  · rintro ⟨⟨hlong, heven, hborrow⟩, rfl⟩
    exact hrun hlong heven hborrow

theorem pasteBigint_bigPositive_iff (hbig : flags.contains .little = false) (hsize : 0 < size)
    (hpos : 0 < dst.length) :
    pasteBigint debug false digits size dst 0 flags = .ok dst' ↔
      10 ≤ dst.length ∧ dst' = bytesPut flags false (digits.headD 0).toNat size dst := by
  rw [pasteBigint_big hbig hsize, if_neg Bool.false_ne_true]
  obtain ⟨d, hd⟩ : ∃ d, digits.headD 0 = d := ⟨_, rfl⟩
  rw [hd]
  have hrun (hlong : 10 ≤ dst.length) :
      pasteBigintBePositive debug dst d (missingBits size) =
        .ok (bytesPut flags false d.toNat size dst) := by
    obtain ⟨final, hfinal, hlength, hbytes⟩ := @pasteBigintBePositive_of_fit debug dst d size hlong
    rw [hfinal, eq_bytesPut hlength fun k hk => ?_]
    rw [hbytes k hk, bytePut]
    simp only [hbig, Bool.false_eq_true, if_false]
    split
    next => rfl
    next => rfl
  constructor
  · intro h
    have hlong := inside_of_pasteBigintBePositive hpos h
    rw [hrun hlong] at h
    exact ⟨hlong, (Except.ok.inj h).symm⟩
  · rintro ⟨hlong, rfl⟩
    exact hrun hlong

/-- What becomes of the data, for either sign and either order of the bytes. -/
theorem pasteBigint_eq_ok_iff (hsize : 0 < size) (hpos : 0 < dst.length) :
    pasteBigint debug negative digits size dst 0 flags = .ok dst' ↔
      StaysInside debug flags negative (digits.headD 0).toNat size dst.length ∧
        dst' = bytesPut flags negative (digits.headD 0).toNat size dst := by
  rw [StaysInside]
  cases hlittle : flags.contains .little with
  | true =>
      rw [if_pos rfl]
      cases negative with
      | true =>
          rw [if_pos rfl]
          exact pasteBigint_littleNegative_iff hlittle hsize hpos
      | false =>
          rw [if_neg Bool.false_ne_true]
          exact pasteBigint_littlePositive_iff hlittle hsize hpos
  | false =>
      rw [if_neg Bool.false_ne_true]
      cases negative with
      | true =>
          simp only [forall_const]
          exact pasteBigint_bigNegative_iff hlittle hsize
      | false =>
          simp only [Bool.false_eq_true, false_implies, and_true]
          exact pasteBigint_bigPositive_iff hlittle hsize hpos

end Bignum

/-- The digits of the number below all smalls. -/
private def belowSmalls : List UInt64 := [1152921504606846977]

private def tenBytes : List UInt8 := [0xff, 0, 0, 0, 0, 0, 0, 0, 0, 0]

end BitsPaste

end Zeptobeam
