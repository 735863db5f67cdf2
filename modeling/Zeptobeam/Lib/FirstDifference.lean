/-
The first place where two lists differ.  It decides their comparison, and the first bit where
two lists of bytes differ lies in the first byte where they do.
-/
import Zeptobeam.Lib.BitString
import Mathlib.Data.Ordering.Basic

/-- The lists are the same before the place, and both have an item there, not the same one. -/
structure FirstDifference {α : Type*} (l l' : List α) (k : Nat) : Prop where
  same : ∀ i < k, l[i]? = l'[i]?
  left : k < l.length
  right : k < l'.length
  differ : l[k]? ≠ l'[k]?

namespace FirstDifference

variable {α : Type*} {l l' : List α} {k : Nat}

theorem zero_of_ne {x y : α} (h : x ≠ y) : FirstDifference (x :: l) (y :: l') 0 where
  same _ hi := absurd hi (Nat.not_lt_zero _)
  left := Nat.succ_pos _
  right := Nat.succ_pos _
  differ hsame := h (Option.some.inj hsame)

theorem cons (x : α) (h : FirstDifference l l' k) :
    FirstDifference (x :: l) (x :: l') (k + 1) where
  same i hi := by
    cases i with
    | zero => rfl
    | succ i => exact h.same i (Nat.lt_of_succ_lt_succ hi)
  left := Nat.succ_lt_succ h.left
  right := Nat.succ_lt_succ h.right
  differ := h.differ

/-- Two lists of one length are the same, or there is a place. -/
theorem eq_or_exists (hlength : l.length = l'.length) :
    l = l' ∨ ∃ k, FirstDifference l l' k := by
  induction l generalizing l' with
  | nil => exact .inl (List.eq_nil_of_length_eq_zero hlength.symm).symm
  | cons x l ih =>
      cases l' with
      | nil => simp at hlength
      | cons y l' =>
          by_cases hxy : x = y
          · subst hxy
            rcases ih (by simpa using hlength) with rfl | ⟨k, hk⟩
            · exact .inl rfl
            · exact .inr ⟨k + 1, hk.cons x⟩
          · exact .inr ⟨0, zero_of_ne hxy⟩

/-- There is no other place. -/
theorem unique {i : Nat} (h : FirstDifference l l' i) (h' : FirstDifference l l' k) : i = k := by
  rcases Nat.lt_trichotomy i k with hlt | heq | hgt
  · exact absurd (h'.same i hlt) h.differ
  · exact heq
  · exact absurd (h.same k hgt) h'.differ

theorem take {n : Nat} (hk : k < n) (h : FirstDifference l l' k) :
    FirstDifference (l.take n) (l'.take n) k where
  same i hi := by
    rw [List.getElem?_take_of_lt (Nat.lt_trans hi hk), List.getElem?_take_of_lt
      (Nat.lt_trans hi hk), h.same i hi]
  left := by
    rw [List.length_take]
    exact Nat.lt_min.mpr ⟨hk, h.left⟩
  right := by
    rw [List.length_take]
    exact Nat.lt_min.mpr ⟨hk, h.right⟩
  differ := by
    rw [List.getElem?_take_of_lt hk, List.getElem?_take_of_lt hk]
    exact h.differ

theorem ne (h : FirstDifference l l' k) : l ≠ l' := by
  rintro rfl
  exact h.differ rfl

/-- The items at the place decide. -/
theorem compare_eq [Ord α] [Std.LawfulEqOrd α] {x y : α} (h : FirstDifference l l' k)
    (hx : l[k]? = some x) (hy : l'[k]? = some y) : compare l l' = compare x y := by
  induction k generalizing l l' with
  | zero =>
      cases l with
      | nil => simp at hx
      | cons a l =>
          cases l' with
          | nil => simp at hy
          | cons b l' =>
              obtain rfl := Option.some.inj hx
              obtain rfl := Option.some.inj hy
              have hne : compare a b ≠ .eq := fun heq =>
                h.differ (congrArg some (Std.LawfulEqOrd.eq_of_compare heq))
              rw [List.compare_cons_cons]
              cases hab : compare a b with
              | lt => rfl
              | eq => exact absurd hab hne
              | gt => rfl
  | succ k ih =>
      cases l with
      | nil => simp at hx
      | cons a l =>
          cases l' with
          | nil => simp at hy
          | cons b l' =>
              obtain rfl : a = b := Option.some.inj (h.same 0 k.succ_pos)
              rw [List.compare_cons_cons, Std.ReflOrd.compare_self]
              refine ih ⟨fun i hi => h.same (i + 1) (Nat.succ_lt_succ hi),
                Nat.lt_of_succ_lt_succ h.left, Nat.lt_of_succ_lt_succ h.right, h.differ⟩ hx hy

theorem compare_ne_eq [Ord α] [Std.LawfulEqOrd α] (h : FirstDifference l l' k) :
    compare l l' ≠ .eq :=
  fun heq => h.ne (Std.LawfulEqOrd.eq_of_compare heq)

end FirstDifference

namespace BitString

open FirstDifference

variable {x y : UInt8} {xs ys : List UInt8} {i k : Nat}

/-- Of two bytes the lesser one has no bit where they first differ. -/
theorem lt_of_byteBit (hi : i < 8) (hsame : ∀ j < i, byteBit x j = byteBit y j)
    (hx : byteBit x i = false) (hy : byteBit y i = true) : x < y := by
  apply UInt8.lt_iff_toNat_lt.mpr
  apply Nat.lt_of_testBit (7 - i) hx hy
  intro j hj
  by_cases hsmall : j < 8
  · have hbit := hsame (7 - j) (by omega)
    unfold byteBit at hbit
    rwa [show 7 - (7 - j) = j by omega] at hbit
  · have hhigh : ∀ b : UInt8, b.toNat.testBit j = false := by
      intro b
      apply Nat.testBit_lt_two_pow
      exact Nat.lt_of_lt_of_le b.toNat_lt (Nat.pow_le_pow_right (by omega) (by omega))
    rw [hhigh, hhigh]

theorem compare_byte (hi : i < 8) (hsame : ∀ j < i, byteBit x j = byteBit y j)
    (hdiffer : byteBit x i ≠ byteBit y i) :
    compare x y = compare (byteBit x i) (byteBit y i) := by
  cases hx : byteBit x i with
  | false =>
      have hy : byteBit y i = true := by
        rw [hx] at hdiffer
        simpa using hdiffer.symm
      rw [hy]
      exact Std.compare_eq_lt.mpr (lt_of_byteBit hi hsame hx hy)
  | true =>
      have hy : byteBit y i = false := by
        rw [hx] at hdiffer
        simpa using hdiffer.symm
      rw [hy]
      exact Std.compare_eq_gt.mpr (lt_of_byteBit hi (fun j hj => (hsame j hj).symm) hy hx)

theorem getElem?_bits_of_lt {q r : Nat} (hr : r < 8) (hq : q < xs.length) :
    (bits xs)[8 * q + r]? = some (byteBit xs[q] r) := by
  rw [getElem?_bits_at xs q hr, List.getElem?_eq_getElem hq, Option.map_some]

/-- The bytes of two lists have the same bits in front of the place. -/
theorem byteBit_eq_of_lt (h : FirstDifference (bits xs) (bits ys) k) {q r : Nat} (hr : r < 8)
    (hlt : 8 * q + r < k) (hxs : q < xs.length) (hys : q < ys.length) :
    byteBit xs[q] r = byteBit ys[q] r := by
  have hsame := h.same (8 * q + r) hlt
  rw [getElem?_bits_of_lt hr hxs, getElem?_bits_of_lt hr hys] at hsame
  exact Option.some.inj hsame

/-- Bytes whose bits first differ at a place first differ in the byte of the place, and are
compared as the bits. -/
theorem firstDifference_bytes (h : FirstDifference (bits xs) (bits ys) k) :
    FirstDifference xs ys (k / 8) ∧ compare xs ys = compare (bits xs) (bits ys) := by
  have hleft := h.left
  have hright := h.right
  rw [length_bits] at hleft hright
  have hxs : k / 8 < xs.length := by omega
  have hys : k / 8 < ys.length := by omega
  have hplace : k = 8 * (k / 8) + k % 8 := by omega
  have hbit : k % 8 < 8 := by omega
  have hx : (bits xs)[k]? = some (byteBit xs[k / 8] (k % 8)) := by
    rw [← getElem?_bits_of_lt hbit hxs, ← hplace]
  have hy : (bits ys)[k]? = some (byteBit ys[k / 8] (k % 8)) := by
    rw [← getElem?_bits_of_lt hbit hys, ← hplace]
  have hdiffer : byteBit xs[k / 8] (k % 8) ≠ byteBit ys[k / 8] (k % 8) := by
    intro heq
    apply h.differ
    rw [hx, hy, heq]
  have hfirst : FirstDifference xs ys (k / 8) := by
    refine ⟨fun i hi => ?_, hxs, hys, fun heq => hdiffer ?_⟩
    · rw [List.getElem?_eq_getElem (show i < xs.length by omega),
        List.getElem?_eq_getElem (show i < ys.length by omega)]
      apply congrArg some
      apply byte_ext
      exact fun j hj => byteBit_eq_of_lt h hj (by omega) _ _
    · rw [List.getElem?_eq_getElem hxs, List.getElem?_eq_getElem hys] at heq
      rw [Option.some.inj heq]
  refine ⟨hfirst, ?_⟩
  rw [h.compare_eq hx hy, hfirst.compare_eq (List.getElem?_eq_getElem hxs)
    (List.getElem?_eq_getElem hys)]
  exact compare_byte hbit (fun j hj => byteBit_eq_of_lt h (by omega) (by omega) hxs hys) hdiffer

end BitString
