/-
The bits of an integer in two's complement, which goes on for ever to the left: integers are
equal when their bits are, and lie in a signed range when their bits are all the same from some
place on.  A machine word holds the first bits of such an integer.
-/
import Mathlib.Data.Int.Bitwise

namespace SignedBits

theorem eq_of_testBit_eq {a b : Int} (h : ∀ i, a.testBit i = b.testBit i) : a = b := by
  have hmixed (m n : Nat) (h : ∀ i, m.testBit i = !n.testBit i) : False := by
    have hm := Nat.testBit_lt_two_pow (Nat.lt_of_lt_of_le (Nat.lt_two_pow_self (n := m))
      (Nat.pow_le_pow_right (by omega) (Nat.le_max_left m n)))
    have hn := Nat.testBit_lt_two_pow (Nat.lt_of_lt_of_le (Nat.lt_two_pow_self (n := n))
      (Nat.pow_le_pow_right (by omega) (Nat.le_max_right m n)))
    have hboth := h (max m n)
    rw [hm, hn] at hboth
    cases hboth
  cases a with
  | ofNat m =>
      cases b with
      | ofNat n => exact congrArg Int.ofNat (Nat.eq_of_testBit_eq h)
      | negSucc n => exact (hmixed m n h).elim
  | negSucc m =>
      cases b with
      | ofNat n => exact (hmixed n m fun i => (h i).symm).elim
      | negSucc n =>
          refine congrArg Int.negSucc (Nat.eq_of_testBit_eq fun i => ?_)
          have hi := h i
          simpa [Int.testBit] using hi

/-- The bits of an integer in a signed range are its sign from some place on. -/
theorem testBit_of_mem_range {a : Int} {k i : Nat} (hlow : -2 ^ k ≤ a) (hhigh : a < 2 ^ k)
    (hi : k ≤ i) : a.testBit i = decide (a < 0) := by
  have hfalse {m : Nat} (hm : m < 2 ^ k) : m.testBit i = false :=
    Nat.testBit_lt_two_pow (Nat.lt_of_lt_of_le hm (Nat.pow_le_pow_right (by omega) hi))
  have hpow : ((2 ^ k : Nat) : Int) = 2 ^ k := by push_cast; rfl
  cases a with
  | ofNat m =>
      have hm : m < 2 ^ k := by
        have : (m : Int) < 2 ^ k := hhigh
        omega
      simp [Int.testBit, hfalse hm]
  | negSucc m =>
      have hm : m < 2 ^ k := by omega
      simp [Int.testBit, hfalse hm, Int.negSucc_lt_zero]

/-- An integer whose bits are all the same from some place on lies in a signed range. -/
theorem mem_range_of_testBit {a : Int} {k : Nat} {c : Bool} (h : ∀ i, k ≤ i → a.testBit i = c) :
    -2 ^ k ≤ a ∧ a < 2 ^ k := by
  have hpow : ((2 ^ k : Nat) : Int) = 2 ^ k := by push_cast; rfl
  have hfinite (m : Nat) : m.testBit (max k m) = false :=
    Nat.testBit_lt_two_pow (Nat.lt_of_lt_of_le Nat.lt_two_pow_self
      (Nat.pow_le_pow_right (by omega) (Nat.le_max_right k m)))
  cases a with
  | ofNat m =>
      have hc : c = false := by
        rw [← h (max k m) (Nat.le_max_left k m)]
        exact hfinite m
      have hm : m < 2 ^ k := Nat.lt_pow_two_of_testBit m fun i hi => (h i hi).trans hc
      constructor
      · have := Int.natCast_nonneg m
        simp only [Int.ofNat_eq_natCast]
        omega
      · simp only [Int.ofNat_eq_natCast]
        omega
  | negSucc m =>
      have hc : c = true := by
        rw [← h (max k m) (Nat.le_max_left k m)]
        simp [Int.testBit, hfinite m]
      have hm : m < 2 ^ k := Nat.lt_pow_two_of_testBit m fun i hi => by
        have hbit := (h i hi).trans hc
        simpa [Int.testBit] using hbit
      omega

section Words

variable {w : Nat}

/-- The bits of a word as a signed number. -/
theorem testBit_toInt (hw : 0 < w) (x : BitVec w) (i : Nat) :
    x.toInt.testBit i = x.getLsbD (min i (w - 1)) := by
  have htwice : 2 ^ w = 2 * 2 ^ (w - 1) := by
    rw [← Nat.pow_succ', Nat.succ_eq_add_one, Nat.sub_add_cancel hw]
  have hlt := x.isLt
  have hsign : x.getLsbD (w - 1) = decide (2 ^ (w - 1) ≤ x.toNat) := by
    rw [← BitVec.msb_eq_decide, BitVec.msb_eq_getLsbD_last]
  rw [BitVec.toInt_eq_toNat_cond]
  by_cases hx : 2 * x.toNat < 2 ^ w
  · rw [if_pos hx]
    have hsmall : x.toNat < 2 ^ (w - 1) := by omega
    change x.toNat.testBit i = _
    rcases Nat.lt_or_ge i (w - 1) with hi | hi
    · rw [Nat.min_eq_left hi.le]
      rfl
    · rw [Nat.min_eq_right hi, hsign, Nat.testBit_lt_two_pow
        (Nat.lt_of_lt_of_le hsmall (Nat.pow_le_pow_right (by omega) hi))]
      simp [hsmall]
  · rw [if_neg hx]
    have hneg : ((x.toNat : Int) - (2 ^ w : Nat)) = Int.negSucc (2 ^ w - (x.toNat + 1)) := by
      rw [Int.negSucc_eq]
      omega
    rw [hneg]
    change (!(2 ^ w - (x.toNat + 1)).testBit i) = _
    rw [Nat.testBit_two_pow_sub_succ hlt]
    rcases Nat.lt_or_ge i w with hi | hi
    · rw [Nat.min_eq_left (by omega)]
      simp [hi, BitVec.testBit_toNat]
    · rw [Nat.min_eq_right (by omega), hsign]
      have hlarge : 2 ^ (w - 1) ≤ x.toNat := by omega
      simp [hi, hlarge]

theorem toInt_and (hw : 0 < w) (x y : BitVec w) :
    (x &&& y).toInt = Int.land x.toInt y.toInt := by
  refine eq_of_testBit_eq fun i => ?_
  rw [Int.testBit_land, testBit_toInt hw, testBit_toInt hw, testBit_toInt hw, BitVec.getLsbD_and]

theorem toInt_or (hw : 0 < w) (x y : BitVec w) :
    (x ||| y).toInt = Int.lor x.toInt y.toInt := by
  refine eq_of_testBit_eq fun i => ?_
  rw [Int.testBit_lor, testBit_toInt hw, testBit_toInt hw, testBit_toInt hw, BitVec.getLsbD_or]

theorem toInt_xor (hw : 0 < w) (x y : BitVec w) :
    (x ^^^ y).toInt = Int.xor x.toInt y.toInt := by
  refine eq_of_testBit_eq fun i => ?_
  rw [Int.testBit_lxor, testBit_toInt hw, testBit_toInt hw, testBit_toInt hw, BitVec.getLsbD_xor]

theorem toInt_not (hw : 0 < w) (x : BitVec w) : (~~~x).toInt = Int.lnot x.toInt := by
  refine eq_of_testBit_eq fun i => ?_
  have hi : min i (w - 1) < w := by omega
  rw [Int.testBit_lnot, testBit_toInt hw, testBit_toInt hw, BitVec.getLsbD_not]
  simp [hi]

end Words

/-- What is made bit by bit of two integers in a signed range lies there too. -/
theorem mem_range_bitwise {a b r : Int} {k : Nat} {f : Bool → Bool → Bool} (ha : -2 ^ k ≤ a)
    (ha' : a < 2 ^ k) (hb : -2 ^ k ≤ b) (hb' : b < 2 ^ k)
    (hr : ∀ i, r.testBit i = f (a.testBit i) (b.testBit i)) : -2 ^ k ≤ r ∧ r < 2 ^ k := by
  refine mem_range_of_testBit (c := f (decide (a < 0)) (decide (b < 0))) fun i hi => ?_
  rw [hr, testBit_of_mem_range ha ha' hi, testBit_of_mem_range hb hb' hi]

end SignedBits
