/-
Bytes as bits, the most significant bit of each byte first.
-/
import Mathlib.Data.List.Basic
import Mathlib.Data.Nat.Bitwise

namespace BitString

/-- Bit `i` of a byte, from the most significant one on. -/
def byteBit (b : UInt8) (i : Nat) : Bool :=
  b.toNat.testBit (7 - i)

def byteBits (b : UInt8) : List Bool :=
  (List.range 8).map (byteBit b)

def bits (data : List UInt8) : List Bool :=
  data.flatMap byteBits

variable {a b : UInt8} {data rest : List UInt8}

@[simp]
theorem length_byteBits (b : UInt8) : (byteBits b).length = 8 := by
  simp [byteBits]

theorem getElem?_byteBits {i : Nat} (hi : i < 8) : (byteBits b)[i]? = some (byteBit b i) := by
  simp [byteBits, hi]

@[simp]
theorem bits_nil : bits [] = [] := rfl

theorem bits_cons : bits (b :: data) = byteBits b ++ bits data := rfl

theorem bits_append : bits (data ++ rest) = bits data ++ bits rest :=
  List.flatMap_append

@[simp]
theorem length_bits (data : List UInt8) : (bits data).length = 8 * data.length := by
  induction data with
  | nil => rfl
  | cons b data ih =>
      rw [bits_cons, List.length_append, ih, length_byteBits, List.length_cons]
      omega

theorem getElem?_bits (data : List UInt8) (i : Nat) :
    (bits data)[i]? = (data[i / 8]?).map (byteBit · (i % 8)) := by
  induction data generalizing i with
  | nil => simp
  | cons b data ih =>
      rw [bits_cons]
      by_cases hi : i < 8
      · rw [List.getElem?_append_left (by simpa using hi), getElem?_byteBits hi,
          Nat.div_eq_of_lt hi, Nat.mod_eq_of_lt hi]
        rfl
      · have hle : 8 ≤ i := Nat.le_of_not_lt hi
        have hdiv : i / 8 = (i - 8) / 8 + 1 := by omega
        have hmod : (i - 8) % 8 = i % 8 := by omega
        rw [List.getElem?_append_right (by simpa using hle), length_byteBits, ih, hdiv, hmod,
          List.getElem?_cons_succ]

/-- A bit of byte `k`. -/
theorem getElem?_bits_at (data : List UInt8) (k : Nat) {i : Nat} (hi : i < 8) :
    (bits data)[8 * k + i]? = (data[k]?).map (byteBit · i) := by
  rw [getElem?_bits, show (8 * k + i) / 8 = k by omega, show (8 * k + i) % 8 = i by omega]

/-- A byte is known by its bits. -/
theorem byte_ext (h : ∀ i < 8, byteBit a i = byteBit b i) : a = b := by
  apply UInt8.toNat_inj.mp
  apply Nat.eq_of_testBit_eq
  intro j
  by_cases hj : j < 8
  · have hbit := h (7 - j) (by omega)
    unfold byteBit at hbit
    rwa [show 7 - (7 - j) = j by omega] at hbit
  · have hsmall : ∀ x : UInt8, x.toNat.testBit j = false := by
      intro x
      apply Nat.testBit_lt_two_pow
      exact Nat.lt_of_lt_of_le x.toNat_lt (Nat.pow_le_pow_right (by omega) (by omega))
    rw [hsmall, hsmall]

/-- A byte that lies across two bytes, `shift` bits from the start of the first one. -/
theorem byteBit_across {shift i : Nat} (hpos : 0 < shift) (hshift : shift < 8) (hi : i < 8) :
    byteBit ((a <<< shift.toUInt8) ||| (b >>> (8 - shift).toUInt8)) i =
      if shift + i < 8 then byteBit a (shift + i) else byteBit b (shift + i - 8) := by
  have hmod : ∀ n : Nat, n < 8 → n.toUInt8.toNat % 8 = n := by
    intro n hn
    simp only [Nat.toUInt8, UInt8.toNat_ofNat']
    omega
  have hhigh : ∀ j, 8 ≤ j → b.toNat.testBit j = false := by
    intro j hj
    apply Nat.testBit_lt_two_pow
    exact Nat.lt_of_lt_of_le b.toNat_lt (Nat.pow_le_pow_right (by omega) hj)
  unfold byteBit
  rw [UInt8.toNat_or, UInt8.toNat_shiftLeft, UInt8.toNat_shiftRight, hmod _ hshift,
    hmod _ (by omega), Nat.testBit_or, Nat.testBit_mod_two_pow, Nat.testBit_shiftLeft,
    Nat.testBit_shiftRight]
  split
  next hlow =>
    rw [hhigh _ (by omega)]
    have hle : shift ≤ 7 - i := by omega
    simp only [show 7 - i < 8 by omega, hle, decide_true, Bool.true_and, Bool.or_false]
    congr 1
    omega
  next hlow =>
    have hnot : ¬ shift ≤ 7 - i := by omega
    simp only [hnot, decide_false, Bool.false_and, Bool.and_false, Bool.false_or]
    congr 1
    omega

end BitString
