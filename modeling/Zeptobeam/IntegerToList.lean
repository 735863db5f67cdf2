/-
Integers as lists of their decimal digits: the digits come out from the last one on, and each
is put before the list that is there.
-/
import Mathlib.Data.Nat.Digits.Lemmas
import Zeptobeam.IntegerBifs
import Zeptobeam.ListBifs

namespace Zeptobeam

open ListBuilder StateExcept

/-- The loop over the digits. -/
def prependDigits (i : Nat) : ListOp Unit :=
  if i = 0 then pure () else do
    prepend (.small ((48 + i % 10 : Nat) : Int))
    prependDigits (i / 10)
termination_by i
decreasing_by omega

/-- A small integer is narrower than a machine word, so that its negation always fits one. -/
def putInteger (value : Int) : ListOp Unit :=
  let sign := decide (value < 0)
  let i := value.natAbs
  if i = 0 then append (.small 48)
  else do
    prependDigits i
    if sign then prepend (.small 45)

def integerToList : IntegerResult → ListOp Word
  | .big _ _ => throw (.panic (.unimplemented "TODO: impl integer_to_list for bigint"))
  | .small value => do
      new
      putInteger value
      makeTerm

/-! ## Decimal notation -/

def parseDigits (chars : List Nat) : Nat :=
  chars.foldl (fun n c => 10 * n + (c - 48)) 0

def parseInteger : List Nat → Int
  | 45 :: digits => -parseDigits digits
  | digits => parseDigits digits

/-- Digits, the first of which is no zero unless it is the only one, behind a sign if the
integer has one. -/
structure IsDecimal (n : Int) (chars : List Nat) : Prop where
  digits : ∃ digits, chars = (if n < 0 then [45] else []) ++ digits ∧ digits ≠ [] ∧
    (∀ c ∈ digits, 48 ≤ c ∧ c ≤ 57) ∧ (digits.head? = some 48 → digits = [48])
  value : parseInteger chars = n

/-- Characters in a list. -/
def charWords (chars : List Nat) : List Word :=
  chars.map fun c : Nat => .small (c : Int)

/-- The digits of a positive number. -/
def digitChars (i : Nat) : List Nat :=
  (Nat.digits 10 i).reverse.map (48 + ·)

def decimal (n : Int) : List Nat :=
  if n = 0 then [48] else (if n < 0 then [45] else []) ++ digitChars n.natAbs

theorem parseDigits_digitChars (i : Nat) : parseDigits (digitChars i) = i := by
  have hvalue (l : List Nat) :
      parseDigits (l.reverse.map (48 + ·)) = Nat.ofDigits 10 l := by
    induction l with
    | nil => rfl
    | cons d l ih =>
        rw [parseDigits] at ih ⊢
        rw [List.reverse_cons, List.map_append, List.foldl_append, ih, Nat.ofDigits_cons]
        simp only [List.map_cons, List.map_nil, List.foldl_cons, List.foldl_nil]
        omega
  rw [digitChars, hvalue, Nat.ofDigits_digits]

theorem mem_digitChars {i c : Nat} (h : c ∈ digitChars i) : 48 ≤ c ∧ c ≤ 57 := by
  obtain ⟨d, hd, rfl⟩ := List.mem_map.mp h
  have hlt := Nat.digits_lt_base (b := 10) (by decide) (List.mem_reverse.mp hd)
  omega

theorem digitChars_of_pos {i : Nat} (hi : i ≠ 0) :
    digitChars i = digitChars (i / 10) ++ [48 + i % 10] := by
  rw [digitChars, Nat.digits_def' (by decide) (Nat.pos_of_ne_zero hi), List.reverse_cons,
    List.map_append]
  rfl

theorem head?_digitChars (i : Nat) : (digitChars i).head? ≠ some 48 := by
  induction i using Nat.strongRecOn with
  | _ i ih =>
      by_cases hi : i = 0
      · rw [hi]
        nofun
      · rw [digitChars_of_pos hi, List.head?_append]
        by_cases hlast : i / 10 = 0
        · have hdigit : 48 + i % 10 ≠ 48 := by omega
          rw [hlast]
          simpa [digitChars] using hdigit
        · have hlater := ih (i / 10) (by omega)
          cases hhead : (digitChars (i / 10)).head? with
          | none =>
              rw [digitChars_of_pos hlast, List.head?_eq_none_iff] at hhead
              simp at hhead
          | some c => rwa [hhead] at hlater

theorem isDecimal_decimal (n : Int) : IsDecimal n (decimal n) := by
  by_cases hzero : n = 0
  · subst hzero
    exact ⟨⟨[48], rfl, by decide, by decide, fun _ => rfl⟩, rfl⟩
  · have hpos : n.natAbs ≠ 0 := Int.natAbs_ne_zero.mpr hzero
    have hne : digitChars n.natAbs ≠ [] := by
      rw [digitChars_of_pos hpos]
      simp
    rw [decimal, if_neg hzero]
    refine ⟨⟨_, rfl, hne, fun c => mem_digitChars, fun hhead => ?_⟩, ?_⟩
    · exact absurd hhead (head?_digitChars _)
    · have hvalue := parseDigits_digitChars n.natAbs
      by_cases hsign : n < 0
      · rw [if_pos hsign, List.singleton_append, parseInteger, hvalue]
        omega
      · rw [if_neg hsign, List.nil_append, parseInteger, hvalue]
        · omega
        · intro digits heq
          have hminus := mem_digitChars (i := n.natAbs) (c := 45) (by rw [heq]; simp)
          omega

/-! ## The list -/

section Build

variable {start s : ListProcess} {xs : List Word}

theorem makeCell_full (hfull : s.memory.heap.stackTop ≤ s.memory.heap.heapTop + 2) :
    makeCell s = .error (.panic .heapIsFull) := by
  simp only [makeCell, HeapMemory.allocNil, alloc_eq_error hfull, bind, Except.bind]

theorem prepend_full (hfull : s.memory.heap.stackTop ≤ s.memory.heap.heapTop + 2) (x : Word) :
    prepend x s = .error (.panic .heapIsFull) := by
  have hcell := makeCell_full hfull
  rw [prepend, bind_eq_of_ok rfl]
  cases s.builder with
  | none => exact bind_eq_of_error hcell
  | some ends => exact bind_eq_of_error hcell

/-- The digits are put before the list when there is room for them. -/
theorem prependDigits_builds (h : BuildsList start s xs) (i : Nat)
    (hroom : i = 0 ∨ s.memory.heap.heapTop + 2 * (digitChars i).length < s.memory.heap.stackTop) :
    ∃ s', prependDigits i s = .ok ((), s') ∧
      BuildsList start s' (charWords (digitChars i) ++ xs) := by
  induction i using Nat.strongRecOn generalizing s xs with
  | _ i ih =>
      by_cases hi : i = 0
      · subst hi
        exact ⟨s, by rw [prependDigits]; rfl, h⟩
      · have hroom := hroom.resolve_left hi
        rw [digitChars_of_pos hi, List.length_append, List.length_singleton] at hroom
        obtain ⟨s₁, hprepend, hbuilds⟩ :=
          prepend_builds h (.small ((48 + i % 10 : Nat) : Int)) (by omega)
        have htop := hbuilds.heapTop
        have hstack := hbuilds.stackTop
        rw [h.heapTop, h.stackTop] at hroom
        rw [List.length_cons] at htop
        obtain ⟨s', hdigits, hlist⟩ := ih (i / 10) (by omega) hbuilds (.inr (by omega))
        refine ⟨s', ?_, ?_⟩
        · rw [prependDigits, if_neg hi, bind_eq_of_ok hprepend, hdigits]
        · rwa [digitChars_of_pos hi, charWords, List.map_append, List.append_assoc]

theorem prependDigits_full (h : BuildsList start s xs) {i : Nat} (hi : i ≠ 0)
    (hfull : s.memory.heap.stackTop ≤ s.memory.heap.heapTop + 2 * (digitChars i).length) :
    prependDigits i s = .error (.panic .heapIsFull) := by
  induction i using Nat.strongRecOn generalizing s xs with
  | _ i ih =>
      rw [digitChars_of_pos hi, List.length_append, List.length_singleton] at hfull
      rw [prependDigits, if_neg hi]
      by_cases hroom : s.memory.heap.heapTop + 2 < s.memory.heap.stackTop
      · obtain ⟨s₁, hprepend, hbuilds⟩ :=
          prepend_builds h (.small ((48 + i % 10 : Nat) : Int)) hroom
        have htop := hbuilds.heapTop
        have hstack := hbuilds.stackTop
        rw [h.heapTop, h.stackTop] at hfull hroom
        rw [List.length_cons] at htop
        have hlater : i / 10 ≠ 0 := by
          intro hzero
          rw [hzero] at hfull
          have hnone : (digitChars 0).length = 0 := rfl
          omega
        rw [bind_eq_of_ok hprepend]
        exact ih (i / 10) (by omega) hbuilds hlater (by omega)
      · exact bind_eq_of_error (prepend_full (Nat.le_of_not_lt hroom) _)

/-- The text of an integer, when there is room for it. -/
theorem putInteger_builds (h : BuildsList start s []) (hempty : s.builder = none) (n : Int) :
    if s.memory.heap.heapTop + 2 * (decimal n).length < s.memory.heap.stackTop then
      ∃ s', putInteger n s = .ok ((), s') ∧
        BuildsList start s' (charWords (decimal n))
    else putInteger n s = .error (.panic .heapIsFull) := by
  by_cases hzero : n = 0
  · subst hzero
    have hput : putInteger 0 s = append (.small 48) s := rfl
    rw [hput, show decimal 0 = [48] from rfl]
    split
    next hroom => exact append_builds h (.small 48) hroom
    next hfull =>
      rw [append, bind_eq_of_ok rfl, hempty]
      exact bind_eq_of_error (makeCell_full (Nat.le_of_not_lt hfull))
  · have hpos : n.natAbs ≠ 0 := Int.natAbs_ne_zero.mpr hzero
    have hput : putInteger n = (do
        prependDigits n.natAbs
        if n < 0 then prepend (.small 45)) := by
      simp only [putInteger, if_neg hpos, decide_eq_true_eq]
    rw [hput, decimal, if_neg hzero]
    by_cases hdigits : s.memory.heap.heapTop + 2 * (digitChars n.natAbs).length <
        s.memory.heap.stackTop
    · obtain ⟨s₁, hrun, hbuilds⟩ := prependDigits_builds h n.natAbs (.inr hdigits)
      rw [List.append_nil] at hbuilds
      have htop := hbuilds.heapTop
      have hstack := hbuilds.stackTop
      have hstartTop := h.heapTop
      have hstartStack := h.stackTop
      rw [charWords, List.length_map] at htop
      rw [List.length_nil] at hstartTop
      rw [bind_eq_of_ok hrun]
      by_cases hsign : n < 0
      · simp only [if_pos hsign, List.singleton_append, List.length_cons]
        split
        next hroom => exact prepend_builds hbuilds (.small 45) (by omega)
        next hfull => exact prepend_full (by omega) _
      · simp only [if_neg hsign, List.nil_append]
        rw [if_pos hdigits]
        exact ⟨s₁, rfl, hbuilds⟩
    · rw [if_neg]
      · exact bind_eq_of_error (prependDigits_full h hpos (Nat.le_of_not_lt hdigits))
      · rw [List.length_append]
        omega

end Build

/-- The list of a small integer is its decimal notation, whenever the heap has room for it. -/
theorem integerToList_decimal (n : Int) (s : ListProcess) :
    ∃ chars, IsDecimal n chars ∧
      if s.memory.heap.heapTop + 2 * chars.length < s.memory.heap.stackTop then
        ∃ w s', integerToList (.small n) s = .ok (w, s') ∧
          IsList s'.memory w (charWords chars) ∧ Grown s s' chars.length
      else integerToList (.small n) s = .error (.panic .heapIsFull) := by
  refine ⟨decimal n, isDecimal_decimal n, ?_⟩
  have hput := putInteger_builds (builds_new s) rfl n
  split
  next hroom =>
    rw [if_pos hroom] at hput
    obtain ⟨s', hput, hbuilds⟩ := hput
    obtain ⟨digits, hchars, hne, -⟩ := (isDecimal_decimal n).digits
    obtain ⟨headP, tailP, hends⟩ := hbuilds.exists_ends (by simp [charWords, hchars, hne])
    have hempty : IsList s.memory Word.nil [] := rfl
    obtain ⟨hlist, hgrown⟩ := hbuilds.close hends hempty (m := s'.memory) rfl
      (hbuilds.tail headP tailP hends) fun _ _ => rfl
    rw [List.append_nil] at hlist
    rw [charWords, List.length_map] at hgrown
    refine ⟨.consPtr headP, s', ?_, hlist, hgrown⟩
    rw [integerToList, bind_eq_of_ok rfl, bind_eq_of_ok hput, makeTerm, bind_eq_of_ok rfl, hends]
    rfl
  next hfull =>
    rw [if_neg hfull] at hput
    rw [integerToList, bind_eq_of_ok rfl]
    exact bind_eq_of_error hput

end Zeptobeam
