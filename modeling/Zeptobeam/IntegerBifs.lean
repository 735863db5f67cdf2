/-
The native functions on integers.  Small integers are narrower than a machine word, so that sums
and quotients of two of them always fit a word; products and shifts need not.
-/
import Zeptobeam.HeapMemory
import Zeptobeam.Lib.SignedBits
import Zeptobeam.LiteralHeap

namespace Zeptobeam

open SignedBits StateExcept

/-- An integer that a function returns. -/
inductive IntegerResult where
  | small (value : Int)
  | big (sign : Sign) (limbs : List Nat)
deriving DecidableEq, Repr

namespace IntegerResult

/-- `make_small_signed`: what does not fit is cut off. -/
def makeSmallSigned (val : Int) : IntegerResult := .small (smallBits val)

/-- The number that the limbs are, least significant limb first. -/
def limbsValue : List Nat → Nat
  | [] => 0
  | limb :: limbs => limb + 2 ^ 64 * limbsValue limbs

/-- The term is the integer: a small where it fits, and a big integer elsewhere. -/
def Denotes (v : Int) : IntegerResult → Prop
  | .small value => smallFits v ∧ value = v
  | .big sign limbs =>
      ¬ smallFits v ∧ v = (if sign = .negative then -1 else 1) * (limbsValue limbs : Int)

end IntegerResult

open IntegerResult

open Native

/-! ## Machine words -/

/-- A result that must fit a word: it overflows otherwise. -/
def checkedWord (v : Int) : Native Int :=
  if -2 ^ 63 ≤ v ∧ v < 2 ^ 63 then return v else panic .arithmeticOverflow

/-- The bits of a word. -/
def wordBits (v : Int) : BitVec 64 := BitVec.ofInt 64 v

/-- `as u32`. -/
def asU32 (v : Int) : Nat := (v % 2 ^ 32).toNat

/-- `checked_shl`: only the count is checked, and what is shifted out is lost. -/
def checkedShl (a : Int) (rhs : Nat) : Option Int :=
  if rhs < 64 then some (Int.bmod (a * 2 ^ rhs) (2 ^ 64)) else none

/-- The sign is taken out of the value. -/
def Sign.split (val : Int) : Sign × Nat :=
  (if val < 0 then .negative else if val = 0 then .zero else .positive, val.natAbs)

/-- `Bignum::with_isize`. -/
def withIsize (val : Int) : Native IntegerResult := do
  let (sign, positiveVal) := Sign.split val
  let _ ← alloc ((← get).boxHeader + 2)
  return .big sign [positiveVal]

def createBigint (iresult : Int) : Native IntegerResult := withIsize iresult

/-! ## The functions -/

def smallI : Term → Option Int
  | .small value => some value
  | _ => none

/-- Subtraction; only small integers are implemented. -/
def nativefunMinus2 : Term → Term → Native IntegerResult
  | .small a, .small b => do
      let iresult ← checkedWord (a - b)
      if smallFits iresult then return makeSmallSigned iresult
      createBigint iresult
  | _, _ => panic (.unimplemented "subtract: other than small")

def nativefunPlus2 : Term → Term → Native IntegerResult
  | .small a, .small b => do
      let iresult ← checkedWord (a + b)
      if smallFits iresult then return makeSmallSigned iresult
      createBigint iresult
  | _, _ => panic (.unimplemented "subtract: other than small")

/-- Multiplication in twice the width of a word, which possibly fits the small int. -/
def optimisticMul (a b : Int) : Option IntegerResult :=
  if smallFits (a * b) then some (makeSmallSigned (a * b)) else none

/-- `big::mul` is not implemented. -/
def multiplyTwoSmall (x y : Int) : Native IntegerResult := do
  match optimisticMul x y with
  | some val => return val
  | none =>
      let _ ← withIsize x
      let _ ← withIsize y
      panic (.unimplemented "mul big a, b")

def nativefunMultiply2 : Term → Term → Native IntegerResult
  | .small x, .small y => do
      if x = 0 ∨ y = 0 then return .small 0
      if x = 1 then return .small y
      if y = 1 then return .small x
      multiplyTwoSmall x y
  | _, _ => panic (.unimplemented "other than small")

/-- A function of two small integers that is made bit by bit. -/
def bitwise2 (f : BitVec 64 → BitVec 64 → BitVec 64) (a b : Term) : Native IntegerResult :=
  match smallI a, smallI b with
  | some a, some b => return makeSmallSigned (f (wordBits a) (wordBits b)).toInt
  | _, _ => badarg

def nativefunBand2 : Term → Term → Native IntegerResult := bitwise2 (· &&& ·)

def nativefunBor2 : Term → Term → Native IntegerResult := bitwise2 (· ||| ·)

def nativefunBxor2 : Term → Term → Native IntegerResult := bitwise2 (· ^^^ ·)

def nativefunBnot1 (a : Term) : Native IntegerResult :=
  match smallI a with
  | some a => return makeSmallSigned (~~~(wordBits a)).toInt
  | none => badarg

def nativefunBsl2 (a shift : Term) : Native IntegerResult :=
  match smallI a, smallI shift with
  | some a, some shift =>
      if shift < 0 then badarg
      else
        match checkedShl a (asU32 shift) with
        | some v => if smallFits v then return makeSmallSigned v else badarg
        | none => badarg
  | _, _ => badarg

def nativefunBsr2 (a shift : Term) : Native IntegerResult :=
  match smallI a, smallI shift with
  | some a, some shift =>
      if shift < 0 then badarg
      else
        let sh := min (asU32 shift) 63
        return makeSmallSigned (a >>> sh)
  | _, _ => badarg

/-- `checked_div` fails for the least word divided by -1 only, as the divisor is not zero. -/
def nativefunDiv2 (a b : Term) : Native IntegerResult :=
  match smallI a, smallI b with
  | some a, some b =>
      if b = 0 then badarith
      else if a = -2 ^ 63 ∧ b = -1 then badarith
      else
        let v := a.tdiv b
        if smallFits v then return makeSmallSigned v else createBigint v
  | _, _ => badarith

def nativefunRem2 (a b : Term) : Native IntegerResult :=
  match smallI a, smallI b with
  | some a, some b =>
      if b = 0 then badarith
      else if a = -2 ^ 63 ∧ b = -1 then badarith
      else return makeSmallSigned (a.tmod b)
  | _, _ => badarith

/-- Big integers are refused; floats, which have a branch of their own, are left out. -/
def nativefunAbs1 : Term → Native IntegerResult
  | .small v => do
      -- `wrapping_abs`
      let absV := if v = -2 ^ 63 then v else (v.natAbs : Int)
      if smallFits absV then return makeSmallSigned absV
      createBigint absV
  | _ => badarg

inductive IntegerBif where
  | plus | minus | times | div | rem | abs | band | bor | bxor | bnot | bsl | bsr
deriving DecidableEq, Repr

/-- `abs` and `bnot` take the first argument only. -/
def IntegerBif.run : IntegerBif → Term → Term → Native IntegerResult
  | .plus, a, b => nativefunPlus2 a b
  | .minus, a, b => nativefunMinus2 a b
  | .times, a, b => nativefunMultiply2 a b
  | .div, a, b => nativefunDiv2 a b
  | .rem, a, b => nativefunRem2 a b
  | .abs, a, _ => nativefunAbs1 a
  | .band, a, b => nativefunBand2 a b
  | .bor, a, b => nativefunBor2 a b
  | .bxor, a, b => nativefunBxor2 a b
  | .bnot, a, _ => nativefunBnot1 a
  | .bsl, a, b => nativefunBsl2 a b
  | .bsr, a, b => nativefunBsr2 a b

/-! ## What they are to return -/

/-- A shift to the left, by a count that may be negative. -/
def shifted (a count : Int) : Int :=
  if 0 ≤ count then a * 2 ^ count.toNat else a / 2 ^ (-count).toNat

namespace IntegerBif

def exact : IntegerBif → Int → Int → Int
  | plus, a, b => a + b
  | minus, a, b => a - b
  | times, a, b => a * b
  | div, a, b => a.tdiv b
  | rem, a, b => a.tmod b
  | abs, a, _ => a.natAbs
  | band, a, b => Int.land a b
  | bor, a, b => Int.lor a b
  | bxor, a, b => Int.xor a b
  | bnot, a, _ => Int.lnot a
  | bsl, a, b => shifted a b
  | bsr, a, b => shifted a (-b)

/-- Erlang raises `badarith` for a division by zero. -/
def Badarith : IntegerBif → Int → Prop
  | div, b => b = 0
  | rem, b => b = 0
  | _, _ => False

/-- The exact result or Erlang's exception.  Beyond the limit of big integers, Erlang raises
`system_limit`, which these functions do not have. -/
def Exact (limit : Int → Prop) (op : IntegerBif) (a b : Int) (heap : Emulator.ProcessHeap) :
    Prop :=
  (op.Badarith b ∧ op.run (.small a) (.small b) heap = .error .badarith) ∨
    (¬ op.Badarith b ∧ ¬ limit (op.exact a b) ∧
      ∃ t heap', op.run (.small a) (.small b) heap = .ok (t, heap') ∧ t.Denotes (op.exact a b))

/-- Room for a big integer of one limb. -/
def Room (heap : Emulator.ProcessHeap) : Prop :=
  heap.heapTop + (heap.boxHeader + 2) < heap.stackTop

/-- When a function does what it should. -/
def Holds (op : IntegerBif) (a b : Int) (heap : Emulator.ProcessHeap) : Prop :=
  match op with
  | plus => smallFits (a + b) ∨ Room heap
  | minus => smallFits (a - b) ∨ Room heap
  | times => smallFits (a * b)
  | div => b = 0 ∨ smallFits (a.tdiv b) ∨ Room heap
  | abs => smallFits a.natAbs ∨ Room heap
  | bsl => 0 ≤ b ∧ b % 2 ^ 32 < 64 ∧ smallFits (a * 2 ^ b.toNat)
  | bsr => 0 ≤ b ∧ (b < 2 ^ 32 ∨ -2 ^ (b % 2 ^ 32).toNat ≤ a ∧ a < 2 ^ (b % 2 ^ 32).toNat)
  | rem | band | bor | bxor | bnot => True

end IntegerBif

/-! ## The results -/

section Results

variable {a b v : Int} {heap : Emulator.ProcessHeap}

theorem smallFits_iff : smallFits v ↔ -2 ^ 60 ≤ v ∧ v < 2 ^ 60 := Iff.rfl

theorem denotes_makeSmallSigned (h : smallFits v) : (makeSmallSigned v).Denotes v :=
  ⟨h, smallBits_of_fits h⟩

theorem withIsize_eq (v : Int) (heap : Emulator.ProcessHeap) :
    withIsize v heap = (alloc (heap.boxHeader + 2) >>= fun _ =>
      pure (.big (Sign.split v).1 [v.natAbs]) : Native IntegerResult) heap := rfl

/-- A big integer is made where there is room for it. -/
theorem withIsize_of_room (hroom : IntegerBif.Room heap) (v : Int) :
    ∃ heap', withIsize v heap = .ok (.big (Sign.split v).1 [v.natAbs], heap') := by
  obtain ⟨p, heap', halloc⟩ := native_alloc_of_room hroom
  refine ⟨heap', ?_⟩
  rw [withIsize_eq, bind_eq_of_ok halloc]
  rfl

theorem withIsize_of_full (hroom : ¬ IntegerBif.Room heap) (v : Int) :
    withIsize v heap = .error (.panic .heapIsFull) := by
  rw [withIsize_eq, bind_eq_of_error (native_alloc_of_full (Nat.not_lt.mp hroom))]

theorem denotes_big (h : ¬ smallFits v) :
    (IntegerResult.big (Sign.split v).1 [v.natAbs]).Denotes v := by
  refine ⟨h, ?_⟩
  have hlimbs : limbsValue [v.natAbs] = v.natAbs := rfl
  rw [hlimbs, Sign.split]
  rcases Int.lt_or_le v 0 with hneg | hnonneg
  · rw [if_pos hneg, if_pos rfl]
    omega
  · have hsign : (if v = 0 then Sign.zero else .positive) ≠ .negative := by
      split <;> exact Sign.noConfusion
    rw [if_neg (Int.not_lt.mpr hnonneg), if_neg hsign]
    omega

/-- A result that fits a word becomes a small, or a big integer where there is room for one. -/
theorem small_or_big_iff :
    (∃ t heap', (if smallFits v then pure (makeSmallSigned v) else createBigint v :
      Native IntegerResult) heap = .ok (t, heap') ∧ t.Denotes v) ↔
        smallFits v ∨ IntegerBif.Room heap := by
  by_cases h : smallFits v
  · exact iff_of_true ⟨_, heap, by rw [if_pos h]; rfl, denotes_makeSmallSigned h⟩ (.inl h)
  · rw [if_neg h, createBigint]
    by_cases hroom : IntegerBif.Room heap
    · obtain ⟨heap', hbig⟩ := withIsize_of_room hroom v
      exact iff_of_true ⟨_, heap', hbig, denotes_big h⟩ (.inr hroom)
    · refine iff_of_false ?_ (not_or.mpr ⟨h, hroom⟩)
      rintro ⟨t, heap', hok, -⟩
      rw [withIsize_of_full hroom] at hok
      cases hok

/-! ## Each function -/

theorem checkedWord_eq (hlow : -2 ^ 63 ≤ v) (hhigh : v < 2 ^ 63) : checkedWord v = pure v :=
  if_pos ⟨hlow, hhigh⟩

theorem plus_iff (ha : smallFits a) (hb : smallFits b) :
    (∃ t heap', nativefunPlus2 (.small a) (.small b) heap = .ok (t, heap') ∧
      t.Denotes (a + b)) ↔ smallFits (a + b) ∨ IntegerBif.Room heap := by
  rw [smallFits_iff] at ha hb
  rw [← small_or_big_iff]
  have hword : checkedWord (a + b) = pure (a + b) := checkedWord_eq (by omega) (by omega)
  simp only [nativefunPlus2, hword, pure_bind]

theorem minus_iff (ha : smallFits a) (hb : smallFits b) :
    (∃ t heap', nativefunMinus2 (.small a) (.small b) heap = .ok (t, heap') ∧
      t.Denotes (a - b)) ↔ smallFits (a - b) ∨ IntegerBif.Room heap := by
  rw [smallFits_iff] at ha hb
  rw [← small_or_big_iff]
  have hword : checkedWord (a - b) = pure (a - b) := checkedWord_eq (by omega) (by omega)
  simp only [nativefunMinus2, hword, pure_bind]

theorem abs_iff (ha : smallFits a) :
    (∃ t heap', nativefunAbs1 (.small a) heap = .ok (t, heap') ∧ t.Denotes a.natAbs) ↔
      smallFits a.natAbs ∨ IntegerBif.Room heap := by
  rw [smallFits_iff] at ha
  rw [← small_or_big_iff]
  have hne : a ≠ -2 ^ 63 := by omega
  simp only [nativefunAbs1, hne, if_false]

theorem div_iff (ha : smallFits a) (hb : b ≠ 0) :
    (∃ t heap', nativefunDiv2 (.small a) (.small b) heap = .ok (t, heap') ∧
      t.Denotes (a.tdiv b)) ↔ smallFits (a.tdiv b) ∨ IntegerBif.Room heap := by
  rw [smallFits_iff] at ha
  rw [← small_or_big_iff]
  have hne : ¬ (a = -2 ^ 63 ∧ b = -1) := by omega
  simp only [nativefunDiv2, smallI, hb, hne, if_false]

theorem small_exact {x : Native IntegerResult} (h : x = pure (makeSmallSigned v))
    (hv : smallFits v) :
    ∃ t heap', x heap = .ok (t, heap') ∧ t.Denotes v :=
  ⟨_, heap, by rw [h]; rfl, denotes_makeSmallSigned hv⟩

theorem rem_exact (ha : smallFits a) (hb : smallFits b) (hzero : b ≠ 0) :
    ∃ t heap', nativefunRem2 (.small a) (.small b) heap = .ok (t, heap') ∧
      t.Denotes (a.tmod b) := by
  rw [smallFits_iff] at ha hb
  have hne : ¬ (a = -2 ^ 63 ∧ b = -1) := by omega
  have hless : (a.tmod b).natAbs < b.natAbs := by
    rw [Int.natAbs_tmod]
    exact Nat.mod_lt _ (by omega)
  refine small_exact (by simp only [nativefunRem2, smallI, hzero, hne, if_false]) ?_
  rw [smallFits_iff]
  omega

theorem wordBits_toInt (ha : smallFits a) : (wordBits a).toInt = a := by
  rw [smallFits_iff] at ha
  exact BitVec.toInt_ofInt_eq_self (by decide) (by omega) (by omega)

/-- Bit by bit, the result of two smalls is a small. -/
theorem bitwise2_exact {f : BitVec 64 → BitVec 64 → BitVec 64} {g : Int → Int → Int}
    {bit : Bool → Bool → Bool} (hf : ∀ x y, (f x y).toInt = g x.toInt y.toInt)
    (hg : ∀ a b i, (g a b).testBit i = bit (a.testBit i) (b.testBit i))
    (ha : smallFits a) (hb : smallFits b) :
    ∃ t heap', bitwise2 f (.small a) (.small b) heap = .ok (t, heap') ∧ t.Denotes (g a b) := by
  have hfits : smallFits (g a b) := mem_range_bitwise ha.1 ha.2 hb.1 hb.2 (hg a b)
  refine small_exact ?_ hfits
  simp only [bitwise2, smallI, hf, wordBits_toInt ha, wordBits_toInt hb]

theorem bnot_exact (ha : smallFits a) :
    ∃ t heap', nativefunBnot1 (.small a) heap = .ok (t, heap') ∧ t.Denotes (Int.lnot a) := by
  have hfits : smallFits (Int.lnot a) :=
    mem_range_bitwise (f := fun x _ => !x) ha.1 ha.2 ha.1 ha.2 (Int.testBit_lnot a)
  refine small_exact ?_ hfits
  simp only [nativefunBnot1, smallI, toInt_not (by decide : 0 < 64), wordBits_toInt ha]

/-- A product that does not fit a small is not implemented. -/
theorem multiplyTwoSmall_ne_ok (h : ¬ smallFits (a * b)) (t : IntegerResult)
    (heap' : Emulator.ProcessHeap) : multiplyTwoSmall a b heap ≠ .ok (t, heap') := by
  intro hok
  have hnone : optimisticMul a b = none := if_neg h
  simp only [multiplyTwoSmall, hnone] at hok
  obtain ⟨_, _, -, hok⟩ := bind_eq_ok_iff.mp hok
  obtain ⟨_, _, -, hok⟩ := bind_eq_ok_iff.mp hok
  cases hok

theorem times_iff (ha : smallFits a) (hb : smallFits b) :
    (∃ t heap', nativefunMultiply2 (.small a) (.small b) heap = .ok (t, heap') ∧
      t.Denotes (a * b)) ↔ smallFits (a * b) := by
  constructor
  · rintro ⟨t, heap', hok, hdenotes⟩
    by_contra hfits
    have hzero : ¬ (a = 0 ∨ b = 0) := by
      rintro (rfl | rfl)
      · exact hfits (by simp [smallFits])
      · exact hfits (by simp [smallFits])
    have hone : a ≠ 1 := by
      rintro rfl
      exact hfits (by rwa [one_mul])
    have hone' : b ≠ 1 := by
      rintro rfl
      exact hfits (by rwa [mul_one])
    simp only [nativefunMultiply2, hzero, hone, hone', if_false] at hok
    exact multiplyTwoSmall_ne_ok hfits t heap' hok
  · intro hfits
    simp only [nativefunMultiply2]
    split
    next hzero =>
      refine ⟨_, heap, rfl, hfits, ?_⟩
      rcases hzero with rfl | rfl
      · exact (zero_mul b).symm
      · exact (mul_zero a).symm
    next =>
      split
      next hone => exact ⟨_, heap, rfl, hfits, by rw [hone, one_mul]⟩
      next =>
        split
        next hone => exact ⟨_, heap, rfl, hfits, by rw [hone, mul_one]⟩
        next =>
          refine ⟨_, heap, ?_, denotes_makeSmallSigned hfits⟩
          simp only [multiplyTwoSmall, optimisticMul, hfits, if_true]
          rfl

/-! ## Shifts -/

theorem asU32_of_nonneg (hb : 0 ≤ b) : asU32 b = b.toNat % 2 ^ 32 := by
  unfold asU32
  omega

/-- The code's shift to the left ends with a small when its count is cut off to less than a word
and what is left of the product fits. -/
theorem bsl_eq_ok_iff {t : IntegerResult} {heap' : Emulator.ProcessHeap} :
    nativefunBsl2 (.small a) (.small b) heap = .ok (t, heap') ↔
      0 ≤ b ∧ b.toNat % 2 ^ 32 < 64 ∧
        smallFits (Int.bmod (a * 2 ^ (b.toNat % 2 ^ 32)) (2 ^ 64)) ∧
          t = makeSmallSigned (Int.bmod (a * 2 ^ (b.toNat % 2 ^ 32)) (2 ^ 64)) ∧
            heap' = heap := by
  simp only [nativefunBsl2, smallI]
  rcases Int.lt_or_le b 0 with hneg | hpos
  · rw [if_pos hneg]
    exact iff_of_false nofun fun h => absurd h.1 (by omega)
  · rw [if_neg (by omega), asU32_of_nonneg hpos, checkedShl]
    by_cases hcount : b.toNat % 2 ^ 32 < 64
    · rw [if_pos hcount]
      dsimp only
      by_cases hfits : smallFits (Int.bmod (a * 2 ^ (b.toNat % 2 ^ 32)) (2 ^ 64))
      · rw [if_pos hfits]
        constructor
        · intro hok
          cases hok
          exact ⟨hpos, hcount, hfits, rfl, rfl⟩
        · rintro ⟨-, -, -, rfl, rfl⟩
          rfl
      · rw [if_neg hfits]
        exact iff_of_false nofun fun h => hfits h.2.2.1
    · rw [if_neg hcount]
      exact iff_of_false nofun fun h => hcount h.2.1

theorem two_pow_le {m n : Nat} (h : m ≤ n) : (2 : Int) ^ m ≤ 2 ^ n := by
  exact_mod_cast Nat.pow_le_pow_right (by decide : 0 < 2) h

/-- A product with a power of two that fits a small has a small exponent. -/
theorem lt_of_smallFits_mul {k : Nat} (ha : a ≠ 0) (h : smallFits (a * 2 ^ k)) : k < 61 := by
  by_contra hk
  have hpow : (2 : Int) ^ 61 ≤ 2 ^ k := two_pow_le (Nat.not_lt.mp hk)
  rw [smallFits_iff] at h
  rcases Int.lt_or_gt_of_ne ha with hneg | hpos
  · have := Int.mul_le_mul_of_nonneg_right (show a ≤ -1 by omega) (show 0 ≤ (2 : Int) ^ k by omega)
    omega
  · have := Int.mul_le_mul_of_nonneg_right (show 1 ≤ a by omega) (show 0 ≤ (2 : Int) ^ k by omega)
    omega

theorem bmod_of_smallFits (h : smallFits v) : Int.bmod v (2 ^ 64) = v := by
  rw [smallFits_iff] at h
  exact Int.bmod_eq_of_le (by omega) (by omega)

/-- A shift to the left is right where it fits a small and the count is not cut off. -/
theorem bsl_iff :
    (∃ t heap', nativefunBsl2 (.small a) (.small b) heap = .ok (t, heap') ∧
      t.Denotes (shifted a b)) ↔
        0 ≤ b ∧ b % 2 ^ 32 < 64 ∧ smallFits (a * 2 ^ b.toNat) := by
  have hmod (hb : 0 ≤ b) : b % 2 ^ 32 < 64 ↔ b.toNat % 2 ^ 32 < 64 := by omega
  have hshifted (hb : 0 ≤ b) : shifted a b = a * 2 ^ b.toNat := if_pos hb
  constructor
  · rintro ⟨t, heap', hok, hdenotes⟩
    obtain ⟨hb, hcount, -, rfl, -⟩ := bsl_eq_ok_iff.mp hok
    rw [hshifted hb] at hdenotes
    exact ⟨hb, (hmod hb).mpr hcount, hdenotes.1⟩
  · rintro ⟨hb, hcount, hfits⟩
    rw [hmod hb] at hcount
    have hsame : a * 2 ^ (b.toNat % 2 ^ 32) = a * 2 ^ b.toNat := by
      rcases eq_or_ne a 0 with rfl | hne
      · rw [Int.zero_mul, Int.zero_mul]
      · have := lt_of_smallFits_mul hne hfits
        rw [Nat.mod_eq_of_lt (by omega)]
    have hword : Int.bmod (a * 2 ^ (b.toNat % 2 ^ 32)) (2 ^ 64) = a * 2 ^ b.toNat := by
      rw [hsame, bmod_of_smallFits hfits]
    refine ⟨_, heap, bsl_eq_ok_iff.mpr ⟨hb, hcount, ?_, rfl, rfl⟩, ?_⟩
    · rwa [hword]
    · rw [hword, hshifted hb]
      exact denotes_makeSmallSigned hfits

/-- The quotient by a power of two that leaves the sign only. -/
theorem ediv_two_pow_eq_sign_iff {k : Nat} :
    a / 2 ^ k = (if a < 0 then -1 else 0) ↔ -2 ^ k ≤ a ∧ a < 2 ^ k := by
  have hpos : (0 : Int) < 2 ^ k := Int.pow_pos (by decide)
  split
  next hneg =>
    rw [Int.ediv_eq_iff_of_pos hpos]
    omega
  next hneg =>
    rw [Int.ediv_eq_iff_of_pos hpos]
    omega

/-- From the width of a small on, all shifts to the right leave the sign only. -/
theorem ediv_two_pow_of_large {k : Nat} (ha : smallFits a) (hk : 60 ≤ k) :
    a / 2 ^ k = if a < 0 then -1 else 0 := by
  have hpow : (2 : Int) ^ 60 ≤ 2 ^ k := two_pow_le hk
  rw [smallFits_iff] at ha
  exact ediv_two_pow_eq_sign_iff.mpr ⟨by omega, by omega⟩

theorem smallFits_ediv {k : Nat} (ha : smallFits a) : smallFits (a / 2 ^ k) := by
  rw [smallFits_iff] at ha ⊢
  have hpos : (0 : Int) < 2 ^ k := Int.pow_pos (by decide)
  constructor
  · refine (Int.le_ediv_iff_mul_le hpos).mpr ?_
    calc -2 ^ 60 * 2 ^ k ≤ -2 ^ 60 * 1 := Int.mul_le_mul_of_nonpos_left (by decide) hpos
      _ ≤ a := ha.1
  · refine Int.ediv_lt_of_lt_mul hpos ?_
    calc a < 2 ^ 60 * 1 := ha.2
      _ ≤ 2 ^ 60 * 2 ^ k := Int.mul_le_mul_of_nonneg_left hpos (by decide)

theorem shifted_neg (hb : 0 ≤ b) : shifted a (-b) = a / 2 ^ b.toNat := by
  rcases eq_or_ne b 0 with rfl | hne
  · simp [shifted]
  · rw [shifted, if_neg (by omega), neg_neg]

theorem bsr_eq (hb : 0 ≤ b) (ha : smallFits a) :
    nativefunBsr2 (.small a) (.small b) heap =
      .ok (makeSmallSigned (a / 2 ^ (b.toNat % 2 ^ 32)), heap) := by
  have hmin : a >>> min (b.toNat % 2 ^ 32) 63 = a / 2 ^ (b.toNat % 2 ^ 32) := by
    rw [Int.shiftRight_eq_div_pow]
    rcases Nat.le_total (b.toNat % 2 ^ 32) 63 with hk | hk
    · rw [Nat.min_eq_left hk]
      push_cast
      rfl
    · rw [Nat.min_eq_right hk]
      calc a / ((2 ^ 63 : Nat) : Int) = a / 2 ^ 63 := by push_cast; rfl
        _ = if a < 0 then -1 else 0 := ediv_two_pow_of_large ha (by decide)
        _ = a / 2 ^ (b.toNat % 2 ^ 32) := (ediv_two_pow_of_large ha (by omega)).symm
  simp only [nativefunBsr2, smallI, asU32_of_nonneg hb, hmin, if_neg (Int.not_lt.mpr hb)]
  rfl

theorem bsr_iff (ha : smallFits a) :
    (∃ t heap', nativefunBsr2 (.small a) (.small b) heap = .ok (t, heap') ∧
      t.Denotes (shifted a (-b))) ↔
        0 ≤ b ∧ (b < 2 ^ 32 ∨
          -2 ^ (b % 2 ^ 32).toNat ≤ a ∧ a < 2 ^ (b % 2 ^ 32).toNat) := by
  rcases Int.lt_or_le b 0 with hneg | hpos
  · refine iff_of_false ?_ fun h => absurd h.1 (by omega)
    rintro ⟨t, heap', hok, -⟩
    simp only [nativefunBsr2, smallI, if_pos hneg] at hok
    cases hok
  · have hmod : (b % 2 ^ 32).toNat = b.toNat % 2 ^ 32 := by omega
    have hsame : (∃ t heap', nativefunBsr2 (.small a) (.small b) heap = .ok (t, heap') ∧
        t.Denotes (shifted a (-b))) ↔
          a / 2 ^ (b.toNat % 2 ^ 32) = a / 2 ^ b.toNat := by
      rw [bsr_eq hpos ha, shifted_neg hpos]
      constructor
      · rintro ⟨t, heap', hok, hdenotes⟩
        cases hok
        exact (smallBits_of_fits (smallFits_ediv ha)).symm.trans hdenotes.2
      · intro hsame
        refine ⟨_, _, rfl, ?_⟩
        rw [hsame]
        exact denotes_makeSmallSigned (smallFits_ediv ha)
    rw [hsame, hmod, and_iff_right hpos]
    rcases Int.lt_or_le b (2 ^ 32) with hlt | hge
    · rw [Nat.mod_eq_of_lt (by omega)]
      exact iff_of_true rfl (.inl hlt)
    · rw [ediv_two_pow_of_large ha (by omega : 60 ≤ b.toNat), ediv_two_pow_eq_sign_iff,
        or_iff_right (by omega)]

/-! ## All functions -/

theorem smallFits_natAbs (hv : smallFits v) : v.natAbs < 2 ^ 64 := by
  rw [smallFits_iff] at hv
  omega

/-- Of smalls, the results of all functions but the shifts are far below two machine words; the
shifts are wherever the functions have an answer. -/
theorem natAbs_exact_lt {op : IntegerBif} (ha : smallFits a) (hb : smallFits b)
    (hop : op ≠ .times ∧ op ≠ .bsl ∧ op ≠ .bsr) : (op.exact a b).natAbs < 2 ^ 64 := by
  have hbitwise {g : Int → Int → Int} {bit : Bool → Bool → Bool}
      (hg : ∀ i, (g a b).testBit i = bit (a.testBit i) (b.testBit i)) :
      (g a b).natAbs < 2 ^ 64 :=
    smallFits_natAbs (mem_range_bitwise ha.1 ha.2 hb.1 hb.2 hg)
  have hquot : (a.tdiv b).natAbs ≤ a.natAbs := by
    rw [Int.natAbs_tdiv]
    exact Nat.div_le_self _ _
  have hrem : (a.tmod b).natAbs ≤ a.natAbs := by
    rw [Int.natAbs_tmod]
    exact Nat.mod_le _ _
  have hnot : (Int.lnot a).natAbs < 2 ^ 64 :=
    @hbitwise (fun x _ => Int.lnot x) (fun x _ => !x) (Int.testBit_lnot a)
  have hand := hbitwise (Int.testBit_land a b)
  have hor := hbitwise (Int.testBit_lor a b)
  have hxor := hbitwise (Int.testBit_lxor a b)
  rw [smallFits_iff] at ha hb
  cases op with
  | times => exact absurd rfl hop.1
  | bsl => exact absurd rfl hop.2.1
  | bsr => exact absurd rfl hop.2.2
  | band => exact hand
  | bor => exact hor
  | bxor => exact hxor
  | bnot => exact hnot
  | plus | minus | div | rem | abs =>
      dsimp only [IntegerBif.exact]
      omega

/-- Where Erlang has a result, below the limit wherever the function has it, only the result
counts. -/
theorem exact_iff_denotes {limit : Int → Prop} (hlimit : ∀ v, v.natAbs < 2 ^ 64 → ¬ limit v)
    (op : IntegerBif) (hbad : ¬ op.Badarith b)
    (hless : (∃ t heap', op.run (.small a) (.small b) heap = .ok (t, heap') ∧
      t.Denotes (op.exact a b)) → (op.exact a b).natAbs < 2 ^ 64) :
    op.Exact limit a b heap ↔
      ∃ t heap', op.run (.small a) (.small b) heap = .ok (t, heap') ∧
        t.Denotes (op.exact a b) := by
  constructor
  · rintro (⟨hzero, -⟩ | ⟨-, -, hok⟩)
    · exact absurd hzero hbad
    · exact hok
  · intro hok
    exact .inr ⟨hbad, hlimit _ (hless hok), hok⟩

theorem exact_of_badarith {limit : Int → Prop} {op : IntegerBif} (hbad : op.Badarith b) :
    op.Exact limit a b heap := by
  refine .inl ⟨hbad, ?_⟩
  cases op with
  | div | rem =>
      cases (show b = 0 from hbad)
      rfl
  | _ => exact hbad.elim

end Results

/-- The integer functions are exact where `Holds` says so.  Shift counts are cut off to 32 bits,
shifts to the left that do not fit a small are refused and lose bits first, negative counts are
refused, and products that do not fit a small are not implemented. -/
theorem exact_iff_holds (limit : Int → Prop) (hlimit : ∀ v, v.natAbs < 2 ^ 64 → ¬ limit v)
    (op : IntegerBif) (a b : Int) (heap : Emulator.ProcessHeap) (ha : smallFits a)
    (hb : smallFits b) : op.Exact limit a b heap ↔ op.Holds a b heap := by
  cases op with
  | plus =>
      rw [exact_iff_denotes hlimit .plus id fun _ => natAbs_exact_lt ha hb (by decide)]
      exact plus_iff ha hb
  | minus =>
      rw [exact_iff_denotes hlimit .minus id fun _ => natAbs_exact_lt ha hb (by decide)]
      exact minus_iff ha hb
  | times =>
      rw [exact_iff_denotes hlimit .times id fun h => smallFits_natAbs ((times_iff ha hb).mp h)]
      exact times_iff ha hb
  | div =>
      rcases eq_or_ne b 0 with hzero | hne
      · exact iff_of_true (exact_of_badarith hzero) (.inl hzero)
      · rw [exact_iff_denotes hlimit .div hne fun _ => natAbs_exact_lt ha hb (by decide)]
        exact (div_iff ha hne).trans (or_iff_right hne).symm
  | rem =>
      rcases eq_or_ne b 0 with hzero | hne
      · exact iff_of_true (exact_of_badarith hzero) trivial
      · rw [exact_iff_denotes hlimit .rem hne fun _ => natAbs_exact_lt ha hb (by decide)]
        exact iff_of_true (rem_exact ha hb hne) trivial
  | abs =>
      rw [exact_iff_denotes hlimit .abs id fun _ => natAbs_exact_lt ha hb (by decide)]
      exact abs_iff ha
  | band =>
      rw [exact_iff_denotes hlimit .band id fun _ => natAbs_exact_lt ha hb (by decide)]
      exact iff_of_true
        (bitwise2_exact (toInt_and (by decide)) Int.testBit_land ha hb) trivial
  | bor =>
      rw [exact_iff_denotes hlimit .bor id fun _ => natAbs_exact_lt ha hb (by decide)]
      exact iff_of_true
        (bitwise2_exact (toInt_or (by decide)) Int.testBit_lor ha hb) trivial
  | bxor =>
      rw [exact_iff_denotes hlimit .bxor id fun _ => natAbs_exact_lt ha hb (by decide)]
      exact iff_of_true
        (bitwise2_exact (toInt_xor (by decide)) Int.testBit_lxor ha hb) trivial
  | bnot =>
      rw [exact_iff_denotes hlimit .bnot id fun _ => natAbs_exact_lt ha hb (by decide)]
      exact iff_of_true (bnot_exact ha) trivial
  | bsl =>
      rw [exact_iff_denotes hlimit .bsl id]
      · exact bsl_iff
      · intro h
        obtain ⟨hpos, -, hfits⟩ := bsl_iff.mp h
        exact smallFits_natAbs (show smallFits (shifted a b) by rwa [shifted, if_pos hpos])
  | bsr =>
      rw [exact_iff_denotes hlimit .bsr id]
      · exact bsr_iff ha
      · intro h
        obtain ⟨hpos, -⟩ := (bsr_iff ha).mp h
        refine smallFits_natAbs (show smallFits (shifted a (-b)) from ?_)
        rw [shifted_neg hpos]
        exact smallFits_ediv ha

section Instance

/-- A heap with room for ten words. -/
private def tenWords : Emulator.ProcessHeap where
  base := 0
  boxHeader := 2
  heapTop := 0
  stackTop := 10
  capacity := 10
  heapTop_le := by decide
  stackTop_le := by decide

/-- The largest small and one more. -/
theorem exact_iff_holds_maxSmall :
    (∀ v : Int, v.natAbs < 2 ^ 64 → ¬ 2 ^ 64 ≤ v.natAbs) ∧
      (IntegerBif.plus.Exact (fun v => 2 ^ 64 ≤ v.natAbs) (2 ^ 60 - 1) 1 tenWords ↔
        IntegerBif.plus.Holds (2 ^ 60 - 1) 1 tenWords) :=
  ⟨fun _ h => by omega,
    exact_iff_holds _ (fun _ h => by omega) .plus (2 ^ 60 - 1) 1 tenWords (by decide) (by decide)⟩

/-- A shift to the left by 63 places loses the only bit, and the answer is zero. -/
theorem not_exact_bsl :
    ¬ ∀ (limit : Int → Prop), (∀ v : Int, v.natAbs < 2 ^ 64 → ¬ limit v) →
      ∀ (op : IntegerBif) (a b : Int) (heap : Emulator.ProcessHeap), smallFits a → smallFits b →
        op.Exact limit a b heap := by
  intro hall
  have hexact := hall (fun v => 2 ^ 64 ≤ v.natAbs) (fun _ h => by omega) .bsl 2 63 tenWords
    (by decide) (by decide)
  rcases hexact with ⟨hbad, -⟩ | ⟨-, -, t, heap', hok, hdenotes⟩
  · exact hbad
  · cases hok
    exact absurd hdenotes.1 (by decide)

end Instance

end Zeptobeam
