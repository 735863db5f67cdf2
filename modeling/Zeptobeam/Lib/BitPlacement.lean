/-
Bits put into bytes at a bit offset.  Bytes are written one after the other; what comes
before the offset and the bytes behind the bits stay as they are.
-/
import Mathlib.Algebra.Ring.Int.Defs
import Mathlib.Algebra.Ring.Nat
import Mathlib.Tactic.Linarith
import Mathlib.Tactic.Ring
import Zeptobeam.Lib.BitString

namespace BitString

/-- The bits lie at the offset of the new data, which is the old data before them and, from
the first whole byte on, behind them. -/
structure Puts (data data' : List UInt8) (offset : Nat) (bs : List Bool) : Prop where
  length : data'.length = data.length
  before : ∀ i < offset, (bits data')[i]? = (bits data)[i]?
  here : ∀ i < bs.length, (bits data')[offset + i]? = bs[i]?
  after : ∀ k, offset + bs.length ≤ 8 * k → data'[k]? = data[k]?

section Puts

variable {data data' data'' : List UInt8} {offset : Nat} {bs cs : List Bool}

theorem Puts.nil (data : List UInt8) (offset : Nat) : Puts data data offset [] :=
  ⟨rfl, fun _ _ => rfl, fun _ hi => absurd hi (Nat.not_lt_zero _), fun _ _ => rfl⟩

/-- Bits, and then others behind them. -/
theorem Puts.trans (h : Puts data data' offset bs)
    (h' : Puts data' data'' (offset + bs.length) cs) : Puts data data'' offset (bs ++ cs) where
  length := h'.length.trans h.length
  before := fun i hi => (h'.before i (by omega)).trans (h.before i hi)
  here := by
    intro i hi
    rw [List.getElem?_append]
    split
    next hlt => rw [h'.before (offset + i) (by omega), h.here i hlt]
    next hle =>
      rw [List.length_append] at hi
      rw [← h'.here (i - bs.length) (by omega)]
      congr 1
      omega
  after := by
    intro k hk
    rw [List.length_append, ← Nat.add_assoc] at hk
    rw [h'.after k hk, h.after k (by omega)]

theorem Puts.getElem?_bits_after (h : Puts data data' offset bs)
    (hbyte : 8 ∣ offset + bs.length) {i : Nat} (hi : offset + bs.length ≤ i) :
    (bits data')[i]? = (bits data)[i]? := by
  rw [getElem?_bits, getElem?_bits, h.after (i / 8) (by omega)]

/-- Bits, and then others in front of them that end with a byte. -/
theorem Puts.prepend (h : Puts data data' (offset + cs.length) bs)
    (h' : Puts data' data'' offset cs) (hbyte : 8 ∣ offset + cs.length) :
    Puts data data'' offset (cs ++ bs) where
  length := h'.length.trans h.length
  before := fun i hi => (h'.before i hi).trans (h.before i (by omega))
  here := by
    intro i hi
    rw [List.getElem?_append]
    split
    next hlt => exact h'.here i hlt
    next hle =>
      rw [List.length_append] at hi
      rw [h'.getElem?_bits_after hbyte (by omega), ← h.here (i - cs.length) (by omega)]
      congr 1
      omega
  after := by
    intro k hk
    rw [List.length_append, ← Nat.add_assoc] at hk
    rw [h'.after k (by omega), h.after k hk]

/-- The bits up to the end of what was put. -/
theorem Puts.take (h : Puts data data' offset bs) (hin : offset ≤ 8 * data.length) :
    (bits data').take (offset + bs.length) = (bits data).take offset ++ bs := by
  refine List.ext_getElem? fun i => ?_
  rw [List.getElem?_take, List.getElem?_append, List.length_take, length_bits,
    Nat.min_eq_left hin]
  split
  next hi =>
    split
    next hlt => rw [h.before i hlt, List.getElem?_take, if_pos hlt]
    next hle =>
      rw [← h.here (i - offset) (by omega)]
      congr 1
      omega
  next hi =>
    rw [if_neg (by omega), List.getElem?_eq_none (by omega)]

/-- Only the front of the bits, up to the last byte, is of interest. -/
theorem Puts.take_bits (h : Puts data data' offset bs) {n : Nat}
    (hlast : ∀ k, offset + n ≤ 8 * k → offset + bs.length ≤ 8 * k) :
    Puts data data' offset (bs.take n) where
  length := h.length
  before := h.before
  here := by
    intro i hi
    rw [List.length_take] at hi
    rw [List.getElem?_take, if_pos (by omega), h.here i (by omega)]
  after := by
    intro k hk
    rw [List.length_take] at hk
    by_cases hn : n ≤ bs.length
    · exact h.after k (hlast k (by omega))
    · exact h.after k (by omega)

/-- One byte is written. -/
theorem puts_set {b old : UInt8} (hold : data[offset / 8]? = some old) (hne : bs ≠ [])
    (hfit : offset % 8 + bs.length ≤ 8)
    (hbefore : ∀ i < offset % 8, byteBit b i = byteBit old i)
    (hhere : ∀ i < bs.length, bs[i]? = some (byteBit b (offset % 8 + i))) :
    Puts data (data.set (offset / 8) b) offset bs := by
  have hlt := (List.getElem?_eq_some_iff.mp hold).1
  have hpos := List.length_pos_iff.mpr hne
  refine ⟨List.length_set, fun i hi => ?_, fun i hi => ?_, fun k hk => ?_⟩
  · rw [getElem?_bits, getElem?_bits]
    by_cases hplace : i / 8 = offset / 8
    · rw [hplace, List.getElem?_set_self hlt, hold, Option.map_some, Option.map_some,
        hbefore (i % 8) (by omega)]
    · rw [List.getElem?_set_ne (Ne.symm hplace)]
  · have hplace : (offset + i) / 8 = offset / 8 := by omega
    have hmod : (offset + i) % 8 = offset % 8 + i := by omega
    rw [getElem?_bits, hplace, hmod, List.getElem?_set_self hlt, Option.map_some, hhere i hi]
  · rw [List.getElem?_set_ne (by omega)]

end Puts

/-! ## Nothing else changes -/

/-- The bits lie at the offset of the new data, which is the old data everywhere else. -/
structure PutsOnly (data data' : List UInt8) (offset : Nat) (bs : List Bool) : Prop where
  length : data'.length = data.length
  here : ∀ i < bs.length, (bits data')[offset + i]? = bs[i]?
  elsewhere : ∀ i, i < offset ∨ offset + bs.length ≤ i → (bits data')[i]? = (bits data)[i]?

/-- A part of a list is replaced. -/
def overwrite (l : List Bool) (offset : Nat) (bs : List Bool) : List Bool :=
  l.take offset ++ bs ++ l.drop (offset + bs.length)

section PutsOnly

variable {data data' data'' : List UInt8} {offset : Nat} {bs cs : List Bool}

theorem getElem?_overwrite {l : List Bool} (hin : offset + bs.length ≤ l.length) (i : Nat) :
    (overwrite l offset bs)[i]? =
      if i < offset then l[i]?
      else if i < offset + bs.length then bs[i - offset]? else l[i]? := by
  have htake : (l.take offset).length = offset := by
    rw [List.length_take]
    omega
  rw [overwrite, List.append_assoc, List.getElem?_append, htake]
  split
  next hi => rw [List.getElem?_take, if_pos hi]
  next hi =>
    rw [List.getElem?_append]
    by_cases hhere : i < offset + bs.length
    · rw [if_pos hhere, if_pos (by omega)]
    · rw [if_neg hhere, if_neg (by omega), List.getElem?_drop]
      congr 1
      omega

/-- The new data is known by its bits. -/
theorem putsOnly_iff (hin : offset + bs.length ≤ 8 * data.length) :
    PutsOnly data data' offset bs ↔ bits data' = overwrite (bits data) offset bs := by
  have hbits : offset + bs.length ≤ (bits data).length := by rwa [length_bits]
  constructor
  · intro h
    refine List.ext_getElem? fun i => ?_
    rw [getElem?_overwrite hbits]
    split
    next hi => exact h.elsewhere i (.inl hi)
    next hi =>
      split
      next hhere =>
        rw [← h.here (i - offset) (by omega)]
        congr 1
        omega
      next hbehind => exact h.elsewhere i (.inr (by omega))
  · intro h
    refine ⟨?_, fun i hi => ?_, fun i hi => ?_⟩
    · have hlength := congrArg List.length h
      simp only [overwrite, List.length_append, List.length_take, List.length_drop,
        length_bits] at hlength
      omega
    · rw [h, getElem?_overwrite hbits, if_neg (by omega), if_pos (by omega)]
      congr 1
      omega
    · rw [h, getElem?_overwrite hbits]
      rcases hi with hi | hi
      · rw [if_pos hi]
      · rw [if_neg (by omega), if_neg (by omega)]

@[simp]
theorem length_overwrite {l : List Bool} (hin : offset + bs.length ≤ l.length) :
    (overwrite l offset bs).length = l.length := by
  simp only [overwrite, List.length_append, List.length_take, List.length_drop]
  omega

/-- First some of the bits, and then others at the end, make the same as all of the bits: those
at the end belong there, and those in front of them are there already. -/
theorem overwrite_overwrite_eq_iff {l first last : List Bool} {place : Nat}
    (hfirst : first.length ≤ bs.length) (hin : offset + bs.length ≤ l.length)
    (hend : place + last.length = l.length) :
    overwrite (overwrite l offset first) place last = overwrite l offset bs ↔
      (∀ i < last.length, last[i]? = (overwrite l offset bs)[place + i]?) ∧
        ∀ i < bs.length, offset + i < place →
          (overwrite l offset first)[offset + i]? = bs[i]? := by
  have hlength := @length_overwrite offset first l (by omega)
  have hsame (i : Nat) := @getElem?_overwrite place last (overwrite l offset first) (by omega) i
  have hwhole (i : Nat) := @getElem?_overwrite offset bs l hin i
  constructor
  · intro h
    refine ⟨fun i hi => ?_, fun i hi hplace => ?_⟩
    · rw [← h, hsame, if_neg (by omega), if_pos (by omega), Nat.add_sub_cancel_left]
    · have hbit := hsame (offset + i)
      rw [h, hwhole, if_pos hplace, if_neg (by omega), if_pos (by omega),
        Nat.add_sub_cancel_left] at hbit
      exact hbit.symm
  · rintro ⟨hlast, hbefore⟩
    refine List.ext_getElem? fun i => ?_
    rw [hsame]
    split
    next hplace =>
      by_cases hi : offset ≤ i ∧ i < offset + bs.length
      · rw [hwhole, if_neg (by omega), if_pos hi.2, ← hbefore (i - offset) (by omega) (by omega)]
        congr 1
        omega
      · rw [hwhole, getElem?_overwrite (by omega)]
        rcases Nat.lt_or_ge i offset with hlt | hge
        · rw [if_pos hlt, if_pos hlt]
        · rw [if_neg (by omega), if_neg (by omega), if_neg (by omega), if_neg (by omega)]
    next hplace =>
      split
      next hi =>
        rw [hlast (i - place) (by omega)]
        congr 1
        omega
      next hi =>
        rw [List.getElem?_eq_none (by omega), List.getElem?_eq_none (by
          rw [length_overwrite hin]
          omega)]

theorem PutsOnly.nil (data : List UInt8) (offset : Nat) : PutsOnly data data offset [] :=
  ⟨rfl, fun _ hi => absurd hi (Nat.not_lt_zero _), fun _ _ => rfl⟩

theorem PutsOnly.trans (h : PutsOnly data data' offset bs)
    (h' : PutsOnly data' data'' (offset + bs.length) cs) :
    PutsOnly data data'' offset (bs ++ cs) where
  length := h'.length.trans h.length
  here := by
    intro i hi
    rw [List.length_append] at hi
    rw [List.getElem?_append]
    split
    next hlt => rw [h'.elsewhere (offset + i) (.inl (by omega)), h.here i hlt]
    next hle =>
      rw [← h'.here (i - bs.length) (by omega)]
      congr 1
      omega
  elsewhere := by
    intro i hi
    rw [List.length_append] at hi
    rw [h'.elsewhere i (by omega), h.elsewhere i (by omega)]

theorem PutsOnly.puts (h : PutsOnly data data' offset bs) : Puts data data' offset bs where
  length := h.length
  before i hi := h.elsewhere i (.inl hi)
  here := h.here
  after k hk := by
    rcases Nat.lt_or_ge k data.length with hlt | hge
    · have hlt' : k < data'.length := h.length ▸ hlt
      rw [List.getElem?_eq_getElem hlt, List.getElem?_eq_getElem hlt']
      refine congrArg some (byte_ext fun i hi => ?_)
      have hbit := h.elsewhere (8 * k + i) (.inr (by omega))
      simpa [getElem?_bits_at, hi, hlt, hlt'] using hbit
    · rw [List.getElem?_eq_none hge, List.getElem?_eq_none (h.length ▸ hge)]

/-- Bits that end with a byte change nothing behind them. -/
theorem Puts.only (h : Puts data data' offset bs) (hbyte : 8 ∣ offset + bs.length) :
    PutsOnly data data' offset bs where
  length := h.length
  here := h.here
  elsewhere i hi := hi.elim (h.before i) (h.getElem?_bits_after hbyte)

/-- Of a byte that is written, only the bits that are put have changed. -/
theorem putsOnly_set_iff {b old : UInt8} {k o : Nat} (hold : data[k]? = some old)
    (hfit : o + bs.length ≤ 8) :
    PutsOnly data (data.set k b) (8 * k + o) bs ↔
      (∀ i < bs.length, bs[i]? = some (byteBit b (o + i))) ∧
        ∀ i < 8, i < o ∨ o + bs.length ≤ i → byteBit b i = byteBit old i := by
  have hlt := (List.getElem?_eq_some_iff.mp hold).1
  have hnew : (data.set k b)[k]? = some b := List.getElem?_set_self hlt
  constructor
  · intro h
    refine ⟨fun i hi => ?_, fun i hi hout => ?_⟩
    · rw [← h.here i hi, Nat.add_assoc, getElem?_bits_at _ _ (by omega), hnew,
        Option.map_some]
    · have hbit := h.elsewhere (8 * k + i) (by omega)
      rw [getElem?_bits_at _ _ hi, getElem?_bits_at _ _ hi, hnew, hold, Option.map_some,
        Option.map_some] at hbit
      exact Option.some.inj hbit
  · rintro ⟨hhere, hkeep⟩
    refine ⟨List.length_set, fun i hi => ?_, fun i hi => ?_⟩
    · rw [Nat.add_assoc, getElem?_bits_at _ _ (by omega), hnew, Option.map_some, hhere i hi]
    · rw [getElem?_bits, getElem?_bits]
      by_cases hplace : i / 8 = k
      · rw [hplace, hnew, hold, Option.map_some, Option.map_some,
          hkeep (i % 8) (by omega) (by omega)]
      · rw [List.getElem?_set_ne (Ne.symm hplace)]

/-- One byte is written, and keeps the bits around those that are put. -/
theorem putsOnly_set {b old : UInt8} {k o : Nat} (hold : data[k]? = some old)
    (hfit : o + bs.length ≤ 8)
    (hhere : ∀ i < bs.length, bs[i]? = some (byteBit b (o + i)))
    (hkeep : ∀ i < 8, i < o ∨ o + bs.length ≤ i → byteBit b i = byteBit old i) :
    PutsOnly data (data.set k b) (8 * k + o) bs :=
  (putsOnly_set_iff hold hfit).mpr ⟨hhere, hkeep⟩

end PutsOnly

/-! ## Bytes -/

theorem bits_take (data : List UInt8) (n : Nat) :
    bits (data.take n) = (bits data).take (8 * n) := by
  refine List.ext_getElem? fun i => ?_
  rw [getElem?_bits, List.getElem?_take, List.getElem?_take, getElem?_bits]
  by_cases hi : i < 8 * n
  · rw [if_pos hi, if_pos (by omega)]
  · rw [if_neg hi, if_neg (by omega), Option.map_none]

section Bytes

variable {a b : UInt8} {n i : Nat}

theorem byteBit_and (a b : UInt8) (i : Nat) :
    byteBit (a &&& b) i = (byteBit a i && byteBit b i) := by
  rw [byteBit, UInt8.toNat_and, Nat.testBit_and]
  rfl

theorem byteBit_or (a b : UInt8) (i : Nat) :
    byteBit (a ||| b) i = (byteBit a i || byteBit b i) := by
  rw [byteBit, UInt8.toNat_or, Nat.testBit_or]
  rfl

theorem byteBit_not (a : UInt8) {i : Nat} (hi : i < 8) :
    byteBit (~~~a) i = !byteBit a i := by
  have hnot : (~~~a).toNat = 2 ^ 8 - (a.toNat + 1) := by
    rw [UInt8.toNat_not, UInt8.size]
    omega
  rw [byteBit, hnot, Nat.testBit_two_pow_sub_succ a.toNat_lt, byteBit]
  simp
  omega

theorem byteBit_shiftRight (a : UInt8) (hn : n < 8) (hi : i < 8) :
    byteBit (a >>> n.toUInt8) i = (decide (n ≤ i) && byteBit a (i - n)) := by
  have hmod : n.toUInt8.toNat % 8 = n := by
    simp only [Nat.toUInt8, UInt8.toNat_ofNat']
    omega
  have hhigh : ∀ j, 8 ≤ j → a.toNat.testBit j = false := by
    intro j hj
    apply Nat.testBit_lt_two_pow
    exact Nat.lt_of_lt_of_le a.toNat_lt (Nat.pow_le_pow_right (by omega) hj)
  rw [byteBit, UInt8.toNat_shiftRight, hmod, Nat.testBit_shiftRight, byteBit]
  by_cases hle : n ≤ i
  · rw [show n + (7 - i) = 7 - (i - n) by omega]
    simp [hle]
  · rw [hhigh _ (by omega)]
    simp [hle]

theorem byteBit_shiftLeft (a : UInt8) (hin : n + i < 8) :
    byteBit (a <<< n.toUInt8) i = byteBit a (n + i) := by
  have hmod : n.toUInt8.toNat % 8 = n := by
    simp only [Nat.toUInt8, UInt8.toNat_ofNat']
    omega
  rw [byteBit, UInt8.toNat_shiftLeft, hmod, Nat.testBit_mod_two_pow, Nat.testBit_shiftLeft,
    byteBit, show 7 - (n + i) = 7 - i - n by omega]
  simp only [show 7 - i < 8 by omega, show 7 - i ≥ n by omega, decide_true, Bool.true_and]

end Bytes

/-! ## Numbers -/

/-- Bit `j` of an integer in two's complement, from the least significant one on. -/
def intBit (v : Int) (j : Nat) : Bool :=
  decide (v / 2 ^ j % 2 = 1)

/-- The last `n` bits of an integer, the most significant one first. -/
def intBits (v : Int) (n : Nat) : List Bool :=
  (List.range n).map fun i => intBit v (n - 1 - i)

/-- The low byte of an integer. -/
def lowByte (v : Int) : UInt8 :=
  UInt8.ofNat (v % 256).toNat

@[simp]
theorem length_intBits (v : Int) (n : Nat) : (intBits v n).length = n := by
  simp [intBits]

theorem getElem?_intBits {v : Int} {n i : Nat} (hi : i < n) :
    (intBits v n)[i]? = some (intBit v (n - 1 - i)) := by
  simp [intBits, hi]

theorem two_pow_pos (n : Nat) : (0 : Int) < 2 ^ n :=
  Int.pow_pos (by decide)

theorem intBit_div (v : Int) (n j : Nat) : intBit (v / 2 ^ n) j = intBit v (n + j) := by
  rw [intBit, intBit, Int.ediv_ediv_of_nonneg (Int.le_of_lt (two_pow_pos n)), ← pow_add]

theorem intBits_append (v : Int) (m n : Nat) :
    intBits v (m + n) = intBits (v / 2 ^ n) m ++ intBits v n := by
  refine List.ext_getElem? fun i => ?_
  rw [List.getElem?_append, length_intBits]
  split
  next hi =>
    rw [getElem?_intBits (by omega), getElem?_intBits hi, intBit_div]
    congr 2
    omega
  next hi =>
    by_cases hlt : i < m + n
    · rw [getElem?_intBits hlt, getElem?_intBits (by omega)]
      congr 2
      omega
    · rw [List.getElem?_eq_none (by simpa using hlt), List.getElem?_eq_none (by simp; omega)]

/-- A bit of a number that is cut off. -/
theorem intBit_emod (v : Int) {n j : Nat} (hj : j < n) : intBit (v % 2 ^ n) j = intBit v j := by
  obtain ⟨m, rfl⟩ := Nat.exists_eq_add_of_lt hj
  have hsplit : v = v % 2 ^ (j + m + 1) + v / 2 ^ (j + m + 1) * 2 ^ m * 2 * 2 ^ j := by
    have hdiv := Int.emod_add_mul_ediv v (2 ^ (j + m + 1))
    rw [pow_succ, pow_add] at hdiv ⊢
    linarith
  have hquot : v / 2 ^ j =
      v % 2 ^ (j + m + 1) / 2 ^ j + v / 2 ^ (j + m + 1) * 2 ^ m * 2 := by
    conv_lhs => rw [hsplit]
    exact Int.add_mul_ediv_right _ _ (Int.ne_of_gt (two_pow_pos j))
  rw [intBit, intBit, hquot, Int.add_mul_emod_self_right]

/-- The bits of a number that is moved up. -/
theorem intBit_mul (v : Int) {n j : Nat} (hj : n ≤ j) :
    intBit (v * 2 ^ n) j = intBit v (j - n) := by
  have hquot : v * 2 ^ n / 2 ^ n = v := Int.mul_ediv_cancel v (Int.ne_of_gt (two_pow_pos n))
  conv_rhs => rw [← hquot, intBit_div]
  rw [Nat.add_sub_cancel' hj]

theorem testBit_toNat {v : Int} (hv : 0 ≤ v) (j : Nat) : v.toNat.testBit j = intBit v j := by
  obtain ⟨n, rfl⟩ := Int.eq_ofNat_of_zero_le hv
  rw [Int.toNat_natCast, Nat.testBit_eq_decide_div_mod_eq, intBit]
  congr 1
  apply propext
  norm_cast

theorem byteBit_lowByte (v : Int) {i : Nat} (hi : i < 8) :
    byteBit (lowByte v) i = intBit v (7 - i) := by
  have hnonneg : 0 ≤ v % 256 := Int.emod_nonneg v (by decide)
  have hlt : (v % 256).toNat < 256 := by omega
  rw [byteBit, lowByte, UInt8.toNat_ofNat_of_lt' hlt, testBit_toNat hnonneg]
  exact intBit_emod v (n := 8) (by omega)

theorem intBit_mul_of_lt (v : Int) {n j : Nat} (hj : j < n) : intBit (v * 2 ^ n) j = false := by
  obtain ⟨m, rfl⟩ := Nat.exists_eq_add_of_lt hj
  have hsplit : v * 2 ^ (j + m + 1) = v * 2 ^ m * 2 * 2 ^ j := by
    rw [pow_succ, pow_add]
    ring
  rw [hsplit, intBit, Int.mul_ediv_cancel _ (Int.ne_of_gt (two_pow_pos j)), Int.mul_emod_left]
  rfl

/-- No bit is left above where a number is cut off. -/
theorem intBit_emod_of_le (v : Int) {n j : Nat} (hj : n ≤ j) : intBit (v % 2 ^ n) j = false := by
  have hlt : v % 2 ^ n < 2 ^ j :=
    Int.lt_of_lt_of_le (Int.emod_lt_of_pos v (two_pow_pos n))
      (pow_le_pow_right₀ (by decide) hj)
  have hzero : v % 2 ^ n / 2 ^ j = 0 :=
    Int.ediv_eq_zero_of_lt (Int.emod_nonneg v (Int.ne_of_gt (two_pow_pos n))) hlt
  rw [intBit, hzero]
  rfl

/-- Two numbers that agree in their low bits. -/
theorem intBit_congr {v w : Int} {n j : Nat} (h : v % 2 ^ n = w % 2 ^ n) (hj : j < n) :
    intBit v j = intBit w j := by
  rw [← intBit_emod v hj, ← intBit_emod w hj, h]

/-- The low byte of a number. -/
theorem puts_lowByte {data : List UInt8} {k : Nat} (hk : k < data.length) (v : Int) :
    Puts data (data.set k (lowByte v)) (8 * k) (intBits v 8) := by
  have hdiv : 8 * k / 8 = k := by omega
  have hputs : Puts data (data.set (8 * k / 8) (lowByte v)) (8 * k) (intBits v 8) := by
    apply @puts_set data (8 * k) _ _ data[k]
    · rw [hdiv, List.getElem?_eq_getElem hk]
    · apply List.ne_nil_of_length_pos
      rw [length_intBits]
      decide
    · rw [length_intBits]
      omega
    · intro i hi
      omega
    · intro i hi
      rw [length_intBits] at hi
      rw [getElem?_intBits hi, byteBit_lowByte v (by omega)]
      congr 2
      omega
  rwa [hdiv] at hputs

theorem toNat_lowByte (v : Int) : (lowByte v).toNat = (v % 256).toNat := by
  have hnonneg : 0 ≤ v % 256 := Int.emod_nonneg v (by decide)
  rw [lowByte, UInt8.toNat_ofNat_of_lt' (by change (v % 256).toNat < 256; omega)]

/-- A byte is left out, and then more bits. -/
theorem ediv_byte_ediv (v : Int) {m n : Nat} (h : n = 8 + m) : v / 256 / 2 ^ m = v / 2 ^ n := by
  rw [h, pow_add, Int.ediv_ediv_of_nonneg (by decide)]
  rfl

theorem toUInt8_eq_lowByte (d : UInt64) : d.toUInt8 = lowByte d.toNat := by
  rw [← UInt8.toNat_inj, UInt64.toNat_toUInt8, toNat_lowByte]
  omega

theorem toNat_shiftRight_byte (d : UInt64) : (d >>> 8).toNat = d.toNat / 256 := by
  rw [UInt64.toNat_shiftRight]
  exact Nat.shiftRight_eq_div_pow d.toNat 8

theorem lowByte_shiftLeft (v : Int) {n : Nat} (hn : n < 8) :
    lowByte v <<< n.toUInt8 = lowByte (v * 2 ^ n) := by
  have hmod : n.toUInt8.toNat % 8 = n := by
    simp only [Nat.toUInt8, UInt8.toNat_ofNat']
    omega
  have hnonneg : 0 ≤ v % 256 := Int.emod_nonneg v (by decide)
  apply UInt8.toNat_inj.mp
  apply Int.natCast_inj.mp
  rw [UInt8.toNat_shiftLeft, hmod, toNat_lowByte, toNat_lowByte, Nat.shiftLeft_eq,
    Int.toNat_of_nonneg (Int.emod_nonneg _ (by decide))]
  push_cast
  rw [Int.toNat_of_nonneg hnonneg]
  change v % 256 * 2 ^ n % 256 = v * 2 ^ n % 256
  rw [Int.mul_emod, Int.emod_emod, ← Int.mul_emod]

theorem byteBits_lowByte (v : Int) : byteBits (lowByte v) = intBits v 8 := by
  refine List.ext_getElem? fun i => ?_
  by_cases hi : i < 8
  · rw [getElem?_byteBits hi, getElem?_intBits hi, byteBit_lowByte v hi]
  · rw [List.getElem?_eq_none (by simpa using hi), List.getElem?_eq_none (by simpa using hi)]

/-- The low bits of a number, moved to the front of a byte. -/
theorem intBits_isFront (v : Int) {r : Nat} (hr : r ≤ 8) :
    intBits v r <+: byteBits (lowByte (v * 2 ^ (8 - r))) := by
  rw [byteBits_lowByte, show 8 = r + (8 - r) by omega, intBits_append,
    show r + (8 - r) - r = 8 - r by omega, Int.mul_ediv_cancel v (Int.ne_of_gt (two_pow_pos _))]
  exact List.prefix_append _ _

/-- Bits that the new data starts with, to its last byte. -/
theorem puts_of_front {data data' : List UInt8} {bs : List Bool}
    (hlength : data'.length = data.length) (hfront : bs <+: bits data')
    (hend : 8 * data.length < bs.length + 8) : Puts data data' 0 bs := by
  obtain ⟨rest, hrest⟩ := hfront
  refine ⟨hlength, fun i hi => absurd hi (Nat.not_lt_zero i), fun i hi => ?_, fun k hk => ?_⟩
  · rw [← hrest, Nat.zero_add, List.getElem?_append_left hi]
  · rw [List.getElem?_eq_none (by omega), List.getElem?_eq_none (by omega)]

/-- The last `n` bytes of an integer, the low one first. -/
def littleBytes (v : Int) (n : Nat) : List UInt8 :=
  (List.range n).map fun i => lowByte (v / 2 ^ (8 * i))

/-- The last `n` bits of an integer, the low byte first; of a byte that is not whole the high
bits are missing. -/
def littleBits (v : Int) (n : Nat) : List Bool :=
  bits (littleBytes v (n / 8)) ++ intBits (v / 2 ^ (8 * (n / 8))) (n % 8)

@[simp]
theorem length_littleBytes (v : Int) (n : Nat) : (littleBytes v n).length = n := by
  simp [littleBytes]

theorem getElem?_littleBytes (v : Int) {n i : Nat} (hi : i < n) :
    (littleBytes v n)[i]? = some (lowByte (v / 2 ^ (8 * i))) := by
  simp [littleBytes, hi]

theorem littleBytes_succ (v : Int) (n : Nat) :
    littleBytes v (n + 1) = littleBytes v n ++ [lowByte (v / 2 ^ (8 * n))] := by
  simp [littleBytes, List.range_succ]

theorem littleBits_eq (v : Int) {q r : Nat} (hr : r < 8) :
    littleBits v (8 * q + r) = bits (littleBytes v q) ++ intBits (v / 2 ^ (8 * q)) r := by
  have hdiv : (8 * q + r) / 8 = q := by omega
  have hmod : (8 * q + r) % 8 = r := by omega
  rw [littleBits, hdiv, hmod]

theorem littleBits_of_dvd (v : Int) (q : Nat) : littleBits v (8 * q) = bits (littleBytes v q) := by
  have hnil : intBits (v / 2 ^ (8 * q)) 0 = [] := rfl
  rw [← Nat.add_zero (8 * q), littleBits_eq v (by decide), hnil, List.append_nil]

@[simp]
theorem length_littleBits (v : Int) (n : Nat) : (littleBits v n).length = n := by
  rw [littleBits, List.length_append, length_bits, length_littleBytes, length_intBits]
  omega

/-- Up to a byte there is no difference. -/
theorem littleBits_eq_intBits (v : Int) {n : Nat} (hn : n ≤ 8) : littleBits v n = intBits v n := by
  rcases Nat.lt_or_eq_of_le hn with hlt | rfl
  · rw [show n = 8 * 0 + n by omega, littleBits_eq v hlt, littleBytes]
    simp
  · rw [show 8 = 8 * 1 by rfl, littleBits_of_dvd, littleBytes_succ]
    simp [littleBytes, bits_cons, byteBits_lowByte]

/-! ## The numbers that bits are -/

/-- The bits as a number, the most significant one first. -/
def unsignedValue (bs : List Bool) : Nat :=
  bs.foldl (fun value b => value * 2 + b.toNat) 0

/-- The last bits of an integer are its remainder. -/
theorem unsignedValue_intBits (v : Int) (n : Nat) :
    (unsignedValue (intBits v n) : Int) = v % 2 ^ n := by
  induction n generalizing v with
  | zero => simp [intBits, unsignedValue]
  | succ n ih =>
      have hlast : unsignedValue (intBits v (n + 1)) =
          unsignedValue (intBits (v / 2) n) * 2 + (intBit v 0).toNat := by
        rw [intBits_append, unsignedValue, List.foldl_append]
        rfl
      have hbit : ((intBit v 0).toNat : Int) = v % 2 := by
        rcases Int.emod_two_eq_zero_or_one v with h | h <;> simp [intBit, h]
      rw [hlast, Nat.cast_add, Nat.cast_mul, ih, hbit, pow_succ', Int.emod_def (v / 2),
        Int.emod_def v (2 * 2 ^ n), Int.emod_def v 2, Int.ediv_ediv_of_nonneg (by decide)]
      push_cast
      ring

/-- The bits as a number in two's complement. -/
def signedValue (bs : List Bool) : Int :=
  if bs.head? = some true then unsignedValue bs - 2 ^ bs.length else unsignedValue bs

/-- Byte `i` of the bits; the last one may have fewer than eight. -/
def chunk (bs : List Bool) (i : Nat) : List Bool :=
  (bs.drop (8 * i)).take 8

/-- The bits with their bytes in the other order. -/
def bytesReversed (bs : List Bool) : List Bool :=
  ((List.range ((bs.length + 7) / 8)).reverse.map (chunk bs)).flatten

end BitString
