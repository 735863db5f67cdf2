/-
Integers in the compact term format.  The compiler writes 4 or 11 bits, or as many bytes as
the two's complement needs.  The decoder takes the sign from the first bit but the digits as
they are, and stops where there are bytes for a word: what of the integers it reads back.
-/
import Mathlib.Algebra.Order.Ring.Int
import Mathlib.Data.Nat.Size
import Mathlib.Tactic.Ring
import Zeptobeam.CompactTerm

namespace Zeptobeam

namespace CompactInteger

open Loading

/-- How much `n` is away from the nearer of 0 and -1. -/
def magnitude (n : Int) : Nat :=
  if 0 ≤ n then n.toNat else (-n - 1).toNat

/-- The bytes of the two's complement of `n`, of which there are two at least. -/
def width (n : Int) : Nat :=
  max 2 (((magnitude n).size + 8) / 8)

theorem magnitude_le (n : Int) : magnitude n ≤ n.natAbs := by
  unfold magnitude
  split <;> omega

theorem width_le (n : Int) : width n ≤ n.natAbs / 8 + 2 := by
  have hsize : (magnitude n).size ≤ magnitude n := Nat.size_le.mpr Nat.lt_two_pow_self
  have hmagnitude := magnitude_le n
  unfold width
  omega

/-- A number has a width when its two's complement in so many bytes begins with its sign. -/
theorem width_le_iff {n : Int} {k : Nat} (hk : 2 ≤ k) :
    width n ≤ k ↔ -2 ^ (8 * k - 1) ≤ n ∧ n < 2 ^ (8 * k - 1) := by
  have hmax : width n ≤ k ↔ (magnitude n).size ≤ 8 * k - 1 := by
    unfold width
    omega
  rw [hmax, Nat.size_le, ← Int.ofNat_lt]
  push_cast
  unfold magnitude
  split <;> omega

/-- The operand that the compiler writes for `n` under a tag. -/
def encode (tag : Nat) (n : Int) : List UInt8 :=
  if 0 ≤ n ∧ n < 16 then [UInt8.ofNat (n.toNat * 16 + tag)]
  else if 0 ≤ n ∧ n < 2048 then
    [UInt8.ofNat (n.toNat / 256 * 32 + 8 + tag), UInt8.ofNat (n.toNat % 256)]
  else
    let bytes := bigEndianBytes (width n) (n % 256 ^ width n).toNat
    if width n ≤ 8 then UInt8.ofNat ((width n - 2) * 32 + 24 + tag) :: bytes
    else UInt8.ofNat (248 + tag) :: encode 0 ((width n - 9 : Nat) : Int) ++ bytes
termination_by n.natAbs
decreasing_by
  have hwidth := width_le n
  omega

/-- The sign and the digits of a long number of less than eight bytes. -/
theorem readLong_of_reads {s : LoadState} {bytes rest : List UInt8}
    (h : s.reader.Reads bytes rest) (hlength : bytes.length < 8) :
    CompactTerm.readLong bytes.length s = .ok (CompactTerm.bytesToSmall
      (if 128 ≤ (bytes.headD 0).toNat then .negative else .positive) bytes,
      s.advance bytes.length) := by
  unfold CompactTerm.readLong
  rw [StateExcept.bind_eq_of_ok (reading_readBytes h)]
  simp only [if_pos hlength]
  rfl

/-- Digits that may not be of the machine's order make no limbs. -/
theorem readLong_of_eight {k : Nat} (hk : 8 ≤ k) (s : LoadState) (r : LtTerm × LoadState) :
    CompactTerm.readLong k s ≠ .ok r := by
  intro h
  obtain ⟨bytes, s', hread, hbytes⟩ := StateExcept.bind_eq_ok_iff.mp h
  have hlength : bytes.length = k := by
    unfold reading BinaryReader.readBytes at hread
    by_cases hshort : s.reader.buf.length < s.reader.pos + k
    · simp [if_pos hshort] at hread
    · simp only [if_neg hshort, Except.ok.injEq, Prod.mk.injEq] at hread
      rw [← hread.1, List.length_take, BinaryReader.length_rest]
      omega
  have hshort : ¬ bytes.length < 8 := by omega
  simp only [if_neg hshort] at hbytes
  cases hbytes

/-- A first byte that announces eight bytes or more. -/
theorem readWord_of_eight {b : UInt8} (hlong : b.toNat / 8 % 4 = 3) (hbytes : 192 ≤ b.toNat)
    (fuel : Nat) (s : LoadState) (r : LtTerm × LoadState) :
    CompactTerm.readWord fuel b s ≠ .ok r := by
  intro h
  cases fuel with
  | zero => cases h
  | succ fuel =>
      unfold CompactTerm.readWord at h
      rw [if_neg (by omega), if_neg (by omega)] at h
      by_cases hnested : b.toNat / 32 + 2 = 9
      · rw [if_pos hnested] at h
        obtain ⟨bnext, s₁, -, h⟩ := StateExcept.bind_eq_ok_iff.mp h
        obtain ⟨size, s₂, -, h⟩ := StateExcept.bind_eq_ok_iff.mp h
        cases size with
        | small size =>
            obtain ⟨n, s₃, -, h⟩ := StateExcept.bind_eq_ok_iff.mp h
            exact readLong_of_eight (Nat.le_add_left_of_le (by decide)) s₃ r h
        | _ => cases h
      · rw [if_neg hnested] at h
        exact readLong_of_eight (by omega) s r h

/-- What is read back of `n` from `k` bytes. -/
def readBack (k : Nat) (n : Int) : Int :=
  if 0 ≤ n then n else -(n + 256 ^ k)

/-- Half of the numbers of `k` bytes begin with a bit that is set. -/
theorem two_pow_eq {k : Nat} (hk : 1 ≤ k) : 2 ^ (8 * k - 1) = 128 * 256 ^ (k - 1) := by
  obtain ⟨k, rfl⟩ := Nat.exists_eq_add_of_le' hk
  have hexponent : 8 * (k + 1) - 1 = 8 * k + 7 := by omega
  rw [hexponent, pow_add, pow_mul, Nat.add_sub_cancel]
  norm_num [Nat.mul_comm]

theorem two_pow_mul_two {k : Nat} (hk : 1 ≤ k) : (2 ^ (8 * k - 1) : Int) * 2 = 256 ^ k := by
  rw [← pow_succ, Nat.sub_add_cancel (by omega), pow_mul]
  norm_num

section Digits

variable {k : Nat} {n : Int}

/-- The digits of the two's complement, as a number. -/
theorem digits_eq (hk : 1 ≤ k) (hlow : -2 ^ (8 * k - 1) ≤ n) (hhigh : n < 2 ^ (8 * k - 1)) :
    ((n % 256 ^ k).toNat : Int) = if 0 ≤ n then n else n + 256 ^ k := by
  have hhalf := two_pow_mul_two hk
  by_cases hn : 0 ≤ n
  · rw [if_pos hn, Int.emod_eq_of_lt hn (by omega)]
    omega
  · rw [if_neg hn, ← Int.add_emod_right, Int.emod_eq_of_lt (by omega) (by omega)]
    omega

theorem digits_lt (k : Nat) (n : Int) : (n % 256 ^ k).toNat < 256 ^ k := by
  have hpos : (0 : Int) < 256 ^ k := Int.pow_pos (by decide)
  have hlt := Int.emod_lt_of_pos n hpos
  have hnonneg := Int.emod_nonneg n hpos.ne'
  rw [← Int.ofNat_lt]
  push_cast
  omega

/-- The first bit is set for negative numbers. -/
theorem head_digits (hk : 1 ≤ k) (hlow : -2 ^ (8 * k - 1) ≤ n)
    (hhigh : n < 2 ^ (8 * k - 1)) :
    128 ≤ ((bigEndianBytes k (n % 256 ^ k).toNat).headD 0).toNat ↔ n < 0 := by
  have hdigits := digits_eq hk hlow hhigh
  have hlt := digits_lt k n
  have hhalf : (2 ^ (8 * k - 1) : Int) = 128 * (256 ^ (k - 1) : Nat) := by
    exact_mod_cast two_pow_eq hk
  have hall := two_pow_mul_two hk
  rw [hhalf] at hlow hhigh hall
  generalize (n % 256 ^ k).toNat = u at hdigits hlt ⊢
  rw [← hall] at hdigits
  obtain ⟨k, rfl⟩ := Nat.exists_eq_add_of_le' hk
  rw [Nat.add_sub_cancel] at hlow hhigh hdigits
  rw [headD_bigEndianBytes k u hlt, Nat.le_div_iff_mul_le (Nat.pow_pos (by decide))]
  split at hdigits <;> omega

/-- What the decoder makes of the digits of the two's complement. -/
theorem bytesToSmall_digits (hk : 1 ≤ k) (hseven : k ≤ 7) (hlow : -2 ^ (8 * k - 1) ≤ n)
    (hhigh : n < 2 ^ (8 * k - 1)) :
    CompactTerm.bytesToSmall
      (if 128 ≤ ((bigEndianBytes k (n % 256 ^ k).toNat).headD 0).toNat then .negative
        else .positive) (bigEndianBytes k (n % 256 ^ k).toNat) = .small (readBack k n) := by
  have hsize : (256 ^ k : Int) ≤ 256 ^ 7 := pow_le_pow_right₀ (by decide) hseven
  have hhalf := two_pow_mul_two hk
  have hfits : smallFits (readBack k n) := by
    unfold smallFits readBack
    split <;> omega
  unfold CompactTerm.bytesToSmall
  rw [bigEndian_bigEndianBytes_of_lt (digits_lt k n), digits_eq hk hlow hhigh]
  rw [← smallBits_of_fits hfits]
  simp only [head_digits hk hlow hhigh, readBack]
  by_cases hn : 0 ≤ n
  · simp [hn, not_lt.mpr hn]
  · simp [hn, not_le.mp hn]

end Digits

/-- The integers that are read back as they were written. -/
def ReadsBack (n : Int) : Prop :=
  (0 ≤ n ∧ n < 2 ^ 55) ∨ ∃ k, 2 ≤ k ∧ k ≤ 7 ∧ n = -2 ^ (8 * k - 1)

theorem width_le_seven {n : Int} (h : ReadsBack n) : width n ≤ 7 := by
  rw [width_le_iff (by decide)]
  rcases h with ⟨hn, hlt⟩ | ⟨k, hk, hseven, rfl⟩
  · omega
  · have hpow : (2 ^ (8 * k - 1) : Int) ≤ 2 ^ (8 * 7 - 1) :=
      pow_le_pow_right₀ (by decide) (by omega)
    have hpos : (0 : Int) < 2 ^ (8 * k - 1) := Int.pow_pos (by decide)
    omega

/-- Of negative numbers, the least one of each width is its own negated digits. -/
theorem readBack_width {n : Int} (h : width n ≤ 7) :
    readBack (width n) n = n ↔ ReadsBack n := by
  have htwo : 2 ≤ width n := Nat.le_max_left _ _
  obtain ⟨hlow, hhigh⟩ := (width_le_iff htwo).mp le_rfl
  have hhalf := two_pow_mul_two (k := width n) (by omega)
  have hpow : (2 ^ (8 * width n - 1) : Int) ≤ 2 ^ 55 :=
    pow_le_pow_right₀ (by decide) (by omega)
  unfold readBack
  by_cases hn : 0 ≤ n
  · rw [if_pos hn]
    exact ⟨fun _ => .inl ⟨hn, by omega⟩, fun _ => rfl⟩
  rw [if_neg hn]
  constructor
  · intro heq
    exact .inr ⟨width n, htwo, h, by omega⟩
  · rintro (⟨hpos, -⟩ | ⟨k, hk, hseven, hneg⟩)
    · exact absurd hpos hn
    · have hle : width n ≤ k := by
        rw [width_le_iff hk, hneg]
        exact ⟨le_rfl, by
          have hpos : (0 : Int) < 2 ^ (8 * k - 1) := Int.pow_pos (by decide)
          omega⟩
      have hexponent : 8 * k - 1 ≤ 8 * width n - 1 := by
        rw [← Nat.pow_le_pow_iff_right (by decide : 1 < 2)]
        have hle : (2 ^ (8 * k - 1) : Int) ≤ 2 ^ (8 * width n - 1) := by omega
        exact_mod_cast hle
      have heq : width n = k := by omega
      rw [← heq] at hneg
      omega

/-- What is read of a number after its first byte: a small integer, which is the number for
those that are read back, or nothing. -/
def ReadAfter (n : Int) (b : UInt8) (more : List UInt8) : Prop :=
  ∀ (s : LoadState) (rest : List UInt8), s.reader.Reads more rest →
    (∃ m, (m = n ↔ ReadsBack n) ∧ ∀ fuel, CompactTerm.readWord (fuel + 1) b s =
      .ok (.small m, s.advance more.length)) ∨
    (¬ ReadsBack n ∧ ∀ fuel r, CompactTerm.readWord fuel b s ≠ .ok r)

theorem toNat_byte {n : Nat} (h : n < 256) : (UInt8.ofNat n).toNat = n :=
  UInt8.toNat_ofNat_of_lt' h

section ReadAfter

variable {n : Int} {tag : Nat}

theorem readAfter_four (htag : tag < 8) (hn : 0 ≤ n) (hlt : n < 16) :
    ReadAfter n (UInt8.ofNat (n.toNat * 16 + tag)) [] := by
  intro s rest h
  refine .inl ⟨n, iff_of_true rfl (.inl ⟨hn, by omega⟩), fun fuel => ?_⟩
  have hbyte : (UInt8.ofNat (n.toNat * 16 + tag)).toNat = n.toNat * 16 + tag :=
    toNat_byte (by omega)
  unfold CompactTerm.readWord
  rw [hbyte, if_pos (by omega)]
  have hvalue : ((n.toNat * 16 + tag : Nat) : Int) / 16 = n := by omega
  rw [hvalue]
  rfl

theorem readAfter_eleven (htag : tag < 8) (hn : 0 ≤ n) (hlt : n < 2048) :
    ReadAfter n (UInt8.ofNat (n.toNat / 256 * 32 + 8 + tag)) [UInt8.ofNat (n.toNat % 256)] := by
  intro s rest h
  refine .inl ⟨n, iff_of_true rfl (.inl ⟨hn, by omega⟩), fun fuel => ?_⟩
  have hbyte : (UInt8.ofNat (n.toNat / 256 * 32 + 8 + tag)).toNat
      = n.toNat / 256 * 32 + 8 + tag := toNat_byte (by omega)
  unfold CompactTerm.readWord
  rw [hbyte, if_neg (by omega), if_pos (by omega),
    StateExcept.bind_eq_of_ok (reading_readU8 h), toNat_byte (by omega)]
  have hvalue : ((n.toNat / 256 * 32 + 8 + tag : Nat) : Int) / 32 * 256
      + (n.toNat % 256 : Nat) = n := by omega
  rw [hvalue]
  rfl

theorem readAfter_long (htag : tag < 8) (hwidth : width n ≤ 8) :
    ReadAfter n (UInt8.ofNat ((width n - 2) * 32 + 24 + tag))
      (bigEndianBytes (width n) (n % 256 ^ width n).toNat) := by
  intro s rest h
  have htwo : 2 ≤ width n := Nat.le_max_left _ _
  have hbyte : (UInt8.ofNat ((width n - 2) * 32 + 24 + tag)).toNat
      = (width n - 2) * 32 + 24 + tag := toNat_byte (by omega)
  by_cases hseven : width n ≤ 7
  · refine .inl ⟨readBack (width n) n, readBack_width hseven, fun fuel => ?_⟩
    have hbounds := (width_le_iff htwo).mp (le_refl (width n))
    have hread := readLong_of_reads h (by rw [length_bigEndianBytes]; omega)
    rw [bytesToSmall_digits (by omega) hseven hbounds.1 hbounds.2] at hread
    unfold CompactTerm.readWord
    rw [hbyte, if_neg (by omega), if_neg (by omega), if_neg (by omega), ← hread,
      length_bigEndianBytes]
    congr 1
    omega
  · refine .inr ⟨fun hback => hseven (width_le_seven hback), ?_⟩
    exact fun fuel r => readWord_of_eight (by omega) (by omega) fuel s r

theorem readAfter_nested (htag : tag < 8) (hwidth : 8 < width n) (more : List UInt8) :
    ReadAfter n (UInt8.ofNat (248 + tag)) more := by
  intro s rest _
  have hbyte : (UInt8.ofNat (248 + tag)).toNat = 248 + tag := toNat_byte (by omega)
  refine .inr ⟨fun hback => ?_, ?_⟩
  · have hseven := width_le_seven hback
    omega
  · exact fun fuel r => readWord_of_eight (by omega) (by omega) fuel s r

/-- The bytes of a number, as the decoder goes through them. -/
theorem encode_readAfter (htag : tag < 8) (n : Int) :
    ∃ b more, encode tag n = b :: more ∧ b.toNat % 8 = tag ∧ ReadAfter n b more := by
  rw [encode]
  split_ifs with hfour heleven hlong
  · exact ⟨_, _, rfl, by rw [toNat_byte (by omega)]; omega, readAfter_four htag hfour.1 hfour.2⟩
  · exact ⟨_, _, rfl, by rw [toNat_byte (by omega)]; omega,
      readAfter_eleven htag heleven.1 heleven.2⟩
  · exact ⟨_, _, rfl, by rw [toNat_byte (by omega)]; omega, readAfter_long htag hlong⟩
  · exact ⟨_, _, rfl, by rw [toNat_byte (by omega)]; omega,
      readAfter_nested htag (not_le.mp hlong) _⟩

end ReadAfter

/-- The tags under which the compiler writes integers. -/
inductive Tag where
  | literalInt
  | integer
deriving DecidableEq, Repr

def Tag.bits : Tag → Nat
  | .literalInt => 0
  | .integer => 1

/-- The limbs of a big integer, the least significant one first. -/
def limbsValue : List Nat → Nat
  | [] => 0
  | limb :: limbs => limb + 2 ^ 64 * limbsValue limbs

/-- A term is the integer `n`: a small one when it fits. -/
def IsInteger (n : Int) : LtTerm → Prop
  | .small value => value = n
  | .bignum sign limbs => ¬ smallFits n ∧
      n = match sign with
        | .positive => (limbsValue limbs : Int)
        | .negative => -(limbsValue limbs : Int)
        | .zero => 0
  | _ => False

/-- A read of these bytes between others ends with what it should, and with the reader at
the byte after them. -/
def Decodes {α : Type} (read : Nat → Loading α) (before bytes after : List UInt8) (heap : Heap)
    (good : α → Prop) : Prop :=
  ∃ fuel₀, ∀ fuel, fuel₀ ≤ fuel → ∃ a heap',
    read fuel ⟨⟨before ++ bytes ++ after, before.length⟩, heap⟩ =
      .ok (a, ⟨⟨before ++ bytes ++ after, before.length + bytes.length⟩, heap'⟩) ∧ good a

section Read

variable {s : LoadState} {b : UInt8} {more rest : List UInt8}

/-- A term under one of the tags is the number under it. -/
theorem read_of_word (mode : ListParseMode) {tag : Tag} (htag : b.toNat % 8 = tag.bits)
    (h : s.reader.Reads (b :: more) rest) (fuel : Nat) :
    (∀ m s', CompactTerm.readWord fuel b (s.advance 1) = .ok (.small m, s') →
      CompactTerm.read mode (fuel + 1) s = .ok (.small m, s')) ∧
    ((∀ r, CompactTerm.readWord fuel b (s.advance 1) ≠ .ok r) →
      ∀ r, CompactTerm.read mode (fuel + 1) s ≠ .ok r) := by
  have hlt : b.toNat % 8 < 7 := by
    cases tag <;> simp only [Tag.bits] at htag <;> omega
  unfold CompactTerm.read
  rw [StateExcept.bind_eq_of_ok (reading_readU8 h)]
  simp only [if_pos hlt]
  constructor
  · intro m s' hword
    rw [StateExcept.bind_eq_of_ok hword, htag]
    cases tag <;> rfl
  · intro hword r hread
    obtain ⟨t, s', ht, -⟩ := StateExcept.bind_eq_ok_iff.mp hread
    exact hword _ ht

theorem readInt_of_word (htag : b.toNat % 8 = Tag.literalInt.bits)
    (h : s.reader.Reads (b :: more) rest) (fuel : Nat) :
    (∀ m s', CompactTerm.readWord fuel b (s.advance 1) = .ok (.small m, s') →
      CompactTerm.readInt fuel s = .ok (m, s')) ∧
    ((∀ r, CompactTerm.readWord fuel b (s.advance 1) ≠ .ok r) →
      ∀ r, CompactTerm.readInt fuel s ≠ .ok r) := by
  unfold CompactTerm.readInt
  rw [StateExcept.bind_eq_of_ok (reading_readU8 h), htag]
  constructor
  · intro m s' hword
    exact StateExcept.bind_eq_of_ok hword
  · intro hword r hread
    obtain ⟨t, s', ht, -⟩ := StateExcept.bind_eq_ok_iff.mp hread
    exact hword _ ht

end Read

theorem reads_encode (before bytes after : List UInt8) :
    (BinaryReader.mk (before ++ bytes ++ after) before.length).Reads bytes after := by
  refine ⟨by simp, ?_⟩
  simp [BinaryReader.rest, List.append_assoc]

/-- A reader of terms or of numbers, by what it makes of a number's bytes. -/
theorem decodes_iff {α : Type} {read : Nat → Loading α} {n : Int} {b : UInt8}
    {before more after : List UInt8} {heap : Heap} {good : α → Prop} {make : Int → α}
    (spent : Nat) (hafter : ReadAfter n b more) (hgood : ∀ m, good (make m) ↔ m = n)
    (hread : ∀ fuel (s : LoadState), s.reader.Reads (b :: more) after →
      (∀ m s', CompactTerm.readWord fuel b (s.advance 1) = .ok (.small m, s') →
        read (fuel + spent) s = .ok (make m, s')) ∧
      ((∀ r, CompactTerm.readWord fuel b (s.advance 1) ≠ .ok r) →
        ∀ r, read (fuel + spent) s ≠ .ok r)) :
    Decodes read before (b :: more) after heap good ↔ ReadsBack n := by
  have hreads := reads_encode before (b :: more) after
  let s : LoadState := ⟨⟨before ++ (b :: more) ++ after, before.length⟩, heap⟩
  have hmore : s.reader.Reads ([b] ++ more) after := hreads
  rcases hafter (s.advance 1) after hmore.advance with
    ⟨m, hm, hword⟩ | ⟨hnot, hword⟩
  · have hok : ∀ fuel, read (fuel + 1 + spent) s = .ok (make m, (s.advance 1).advance more.length) :=
      fun fuel => (hread (fuel + 1) s hreads).1 m _ (hword fuel)
    rw [← hm, ← hgood]
    constructor
    · rintro ⟨fuel₀, h⟩
      obtain ⟨a, heap', hread', hgood'⟩ := h (fuel₀ + 1 + spent) (by omega)
      have heq := (hok fuel₀).symm.trans hread'
      simp only [Except.ok.injEq, Prod.mk.injEq] at heq
      rwa [heq.1]
    · intro hgood'
      refine ⟨1 + spent, fun fuel hfuel => ⟨make m, heap, ?_, hgood'⟩⟩
      obtain ⟨fuel, rfl⟩ := Nat.exists_eq_add_of_le' hfuel
      rw [← Nat.add_assoc, hok fuel]
      simp [s, LoadState.advance, BinaryReader.advance, Nat.add_assoc, Nat.add_comm 1]
  · refine iff_of_false ?_ hnot
    rintro ⟨fuel₀, h⟩
    obtain ⟨a, heap', hread', -⟩ := h (fuel₀ + spent) (by omega)
    exact (hread fuel₀ s hreads).2 (hword fuel₀) _ hread'

/-- Of the integers that the compiler writes, those from 0 to below `2 ^ 55`, and the least
ones of two to seven bytes, are read back, as terms and as numbers, and no others. -/
theorem compact_integer_decodes_iff (n : Int) (tag : Tag) (mode : ListParseMode)
    (before after : List UInt8) (heap : Heap) :
    (Decodes (CompactTerm.read mode) before (encode tag.bits n) after heap (IsInteger n) ↔
      ReadsBack n) ∧
    (Decodes CompactTerm.readInt before (encode Tag.literalInt.bits n) after heap (· = n) ↔
      ReadsBack n) := by
  constructor
  · obtain ⟨b, more, heq, htag, hafter⟩ :=
      encode_readAfter (show tag.bits < 8 by cases tag <;> decide) n
    rw [heq]
    exact decodes_iff 1 hafter (fun m => Iff.rfl) fun fuel s h => read_of_word mode htag h fuel
  · obtain ⟨b, more, heq, htag, hafter⟩ :=
      encode_readAfter (show Tag.literalInt.bits < 8 by decide) n
    rw [heq]
    exact decodes_iff 0 hafter (fun m => Iff.rfl) fun fuel s h => readInt_of_word htag h fuel

/-- The literal -1 is read as -65535. -/
theorem minus_one_misread :
    encode Tag.integer.bits (-1) = [0x19, 0xff, 0xff] ∧
    CompactTerm.read .asJumpTable 2 ⟨⟨[0x19, 0xff, 0xff], 0⟩, ⟨2, 0, 8192, 0, false⟩⟩ =
      .ok (.small (-65535), ⟨⟨[0x19, 0xff, 0xff], 3⟩, ⟨2, 0, 8192, 0, false⟩⟩) ∧
    ¬ Decodes (CompactTerm.read .asJumpTable) [] (encode Tag.integer.bits (-1)) []
      ⟨2, 0, 8192, 0, false⟩ (IsInteger (-1)) := by
  have hbytes : encode Tag.integer.bits (-1) = [0x19, 0xff, 0xff] := by
    rw [encode]
    simp [width, magnitude, Tag.bits]
    decide
  have hread : ∀ fuel, CompactTerm.read .asJumpTable (fuel + 2)
      ⟨⟨[0x19, 0xff, 0xff], 0⟩, ⟨2, 0, 8192, 0, false⟩⟩ =
      .ok (.small (-65535), ⟨⟨[0x19, 0xff, 0xff], 3⟩, ⟨2, 0, 8192, 0, false⟩⟩) := fun _ => rfl
  refine ⟨hbytes, hread 0, ?_⟩
  rw [hbytes]
  rintro ⟨fuel₀, h⟩
  obtain ⟨a, heap', ha, hgood⟩ := h (fuel₀ + 2) (by omega)
  have heq := (hread fuel₀).symm.trans ha
  simp only [Except.ok.injEq, Prod.mk.injEq] at heq
  rw [← heq.1] at hgood
  cases hgood

end CompactInteger

end Zeptobeam
