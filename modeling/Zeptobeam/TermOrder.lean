/-
The comparison of terms as an order.  Every plain term has a code, a list of integers, and
wherever the two readings of two terms are each other's reverse, the comparison finds the
order of their codes; so it is a total order on any set of terms of which that holds, and
on no other one.
-/
import Zeptobeam.TermLoop

namespace Zeptobeam

open SideBySide LexCode

/-- Bytes with an end mark, which is below every byte, in place of the zeros at the end. -/
def significant : List UInt8 → List Int
  | [] => [-1]
  | x :: xs =>
      if x = 0 ∧ significant xs = [-1] then [-1] else (x.toNat : Int) :: significant xs

theorem significant_eq_mark_iff (xs : List UInt8) :
    significant xs = [-1] ↔ xs.all (· == 0) = true := by
  induction xs with
  | nil => simp [significant]
  | cons x xs ih =>
      rw [significant, List.all_cons, Bool.and_eq_true, ← ih, beq_iff_eq]
      split
      · simp_all
      · rename_i hne
        constructor
        · intro heq
          have hx : (x.toNat : Int) = -1 := (List.cons.inj heq).1
          omega
        · exact fun h => (hne h).elim

theorem significant_cases (xs : List UInt8) :
    significant xs = [-1] ∨ ∃ (n : Nat) (rest : List Int), significant xs = (n : Int) :: rest := by
  cases xs with
  | nil => exact .inl rfl
  | cons x xs =>
      rw [significant]
      split
      · exact .inl rfl
      · exact .inr ⟨x.toNat, significant xs, rfl⟩

theorem compare_mark_lt (n : Nat) (rest : List Int) :
    compare [-1] ((n : Int) :: rest) = .lt := by
  have hlt : compare (-1) (n : Int) = .lt := by
    rw [Std.compare_eq_lt]
    omega
  rw [List.compare_cons_cons, hlt]
  rfl

theorem compare_mark_gt (n : Nat) (rest : List Int) :
    compare ((n : Int) :: rest) [-1] = .gt := by
  rw [Std.OrientedOrd.eq_swap, compare_mark_lt]
  rfl

theorem separate_mark (xs : List UInt8) :
    Separate [-1] (significant xs) ∧ Separate (significant xs) [-1] := by
  obtain hmark | ⟨n, rest, hrest⟩ := significant_cases xs
  · rw [hmark]
    exact ⟨Separate.of_length_eq rfl, Separate.of_length_eq rfl⟩
  · rw [hrest]
    have hne : (-1 : Int) ≠ n := by omega
    refine ⟨Separate.cons fun h => ?_, Separate.cons fun h => ?_⟩
    · exact (hne (Std.LawfulEqOrd.eq_of_compare h)).elim
    · exact (hne (Std.LawfulEqOrd.eq_of_compare h).symm).elim

theorem separate_significant (xs ys : List UInt8) :
    Separate (significant xs) (significant ys) := by
  induction xs generalizing ys with
  | nil => exact (separate_mark ys).1
  | cons x xs ih =>
      cases ys with
      | nil => exact (separate_mark (x :: xs)).2
      | cons y ys =>
          rw [significant]
          split
          · exact (separate_mark (y :: ys)).1
          · rename_i hx
            rw [significant]
            split
            · have hmark := (separate_mark (x :: xs)).2
              rwa [significant, if_neg hx] at hmark
            · exact Separate.cons fun _ => ih ys

theorem compare_significant_cons (x : UInt8) (xs ys : List UInt8) :
    compare (significant (x :: xs)) (significant (x :: ys))
      = compare (significant xs) (significant ys) := by
  rw [significant, significant]
  by_cases hxs : x = 0 ∧ significant xs = [-1]
  · by_cases hys : x = 0 ∧ significant ys = [-1]
    · rw [if_pos hxs, if_pos hys, hxs.2, hys.2]
    · obtain hmark | ⟨n, rest, hrest⟩ := significant_cases ys
      · exact (hys ⟨hxs.1, hmark⟩).elim
      · rw [if_pos hxs, if_neg hys, hxs.2, hrest, compare_mark_lt, compare_mark_lt]
  · by_cases hys : x = 0 ∧ significant ys = [-1]
    · obtain hmark | ⟨n, rest, hrest⟩ := significant_cases xs
      · exact (hxs ⟨hys.1, hmark⟩).elim
      · rw [if_neg hxs, if_pos hys, hys.2, hrest, compare_mark_gt, compare_mark_gt]
    · rw [if_neg hxs, if_neg hys, compare_cons_self]

theorem compare_toNat (x y : UInt8) : compare (x.toNat : Int) (y.toNat : Int) = compare x y := by
  simp only [compare, compareOfLessAndEq, UInt8.lt_iff_toNat_lt, ← UInt8.toNat_inj, Int.ofNat_lt,
    Int.natCast_inj]

/-- Bytes that differ are told apart as their first difference is. -/
theorem compare_significant_of_ne {x y : UInt8} (hxy : x ≠ y) (xs ys : List UInt8) :
    compare (significant (x :: xs)) (significant (y :: ys)) = compare x y := by
  rw [significant, significant]
  by_cases hxs : x = 0 ∧ significant xs = [-1]
  · have hys : ¬ (y = 0 ∧ significant ys = [-1]) := fun h => hxy (hxs.1.trans h.1.symm)
    have hlt : compare x y = .lt := by
      rw [Std.compare_eq_lt, hxs.1]
      exact UInt8.pos_iff_ne_zero.mpr fun h => hxy (hxs.1.trans h.symm)
    rw [if_pos hxs, if_neg hys, compare_mark_lt, hlt]
  · by_cases hys : y = 0 ∧ significant ys = [-1]
    · have hgt : compare x y = .gt := by
        rw [Std.compare_eq_gt, hys.1]
        exact UInt8.pos_iff_ne_zero.mpr fun h => hxy (h.trans hys.1.symm)
      rw [if_neg hxs, if_pos hys, compare_mark_gt, hgt]
    · have hne : compare x y ≠ .eq := fun h => hxy (Std.LawfulEqOrd.eq_of_compare h)
      rw [if_neg hxs, if_neg hys, List.compare_cons_cons, compare_toNat]
      cases hcompare : compare x y with
      | lt => rfl
      | eq => exact (hne hcompare).elim
      | gt => rfl

theorem DataReader.sightBytes_shows (a b : DataReader) (xs ys : List UInt8) :
    (sightBytes a b xs ys).Shows (compare (significant xs) (significant ys)) := by
  induction xs generalizing ys with
  | nil =>
      cases ys with
      | nil => rfl
      | cons y ys =>
          rw [sightBytes]
          split
          · split
            · rename_i hzero
              rw [(significant_eq_mark_iff (y :: ys)).mpr hzero]
              rfl
            · rename_i hzero
              rw [← significant_eq_mark_iff] at hzero
              obtain hmark | ⟨n, rest, hrest⟩ := significant_cases (y :: ys)
              · exact (hzero hmark).elim
              · rw [hrest]
                exact compare_mark_lt n rest
          · trivial
  | cons x xs ih =>
      cases ys with
      | nil =>
          rw [sightBytes]
          split
          · split
            · rename_i hzero
              rw [(significant_eq_mark_iff (x :: xs)).mpr hzero]
              rfl
            · rename_i hzero
              rw [← significant_eq_mark_iff] at hzero
              obtain hmark | ⟨n, rest, hrest⟩ := significant_cases (x :: xs)
              · exact (hzero hmark).elim
              · rw [hrest]
                exact compare_mark_gt n rest
          · trivial
      | cons y ys =>
          rw [sightBytes]
          by_cases hxy : x = y
          · rw [if_pos hxy, hxy, compare_significant_cons]
            exact ih ys
          · rw [if_neg hxy, compare_significant_of_ne hxy]
            exact Sight.shows_ofOrdering _

mutual

/-- The code of a term: its class, then what it is compared by inside its class. -/
def code : Term → List Int
  | .small value => [classNumber, value]
  | .atom name => classAtom :: (nameBytes name).length :: (nameBytes name).map (·.toNat)
  | .emptyTuple => [classTuple, 0]
  | .nil => [classList, 0]
  | .emptyBinary => [classBinary, 0]
  | .cons _ hd tl => classList :: 1 :: (code hd ++ code tl)
  | .tuple _ data0 rest =>
      classTuple :: ((rest.length + 1 : Nat) : Int) :: (code data0 ++ codeOfAll rest)
  | .binary _ data => classBinary :: data.1.bitSize :: significant data.1.reader.contents
  | _ => []

def codeOfAll : List Term → List Int
  | [] => []
  | t :: ts => code t ++ codeOfAll ts

end

theorem compare_natCast (m n : Nat) : compare (m : Int) (n : Int) = compare m n := by
  simp only [compare, compareOfLessAndEq, Int.ofNat_lt, Int.natCast_inj]

theorem compare_code_atom (x y : String) :
    compare (code (.atom x)) (code (.atom y)) = cmpAtoms x y := by
  rw [code, code, compare_cons_self, List.compare_cons_cons, compare_natCast, cmpAtoms]
  by_cases hlength : (nameBytes x).length = (nameBytes y).length
  · rw [if_pos hlength, hlength, Std.ReflOrd.compare_self]
    exact compare_map compare_toNat (nameBytes x) (nameBytes y)
  · have hne : compare (nameBytes x).length (nameBytes y).length ≠ .eq :=
      fun h => hlength (Std.LawfulEqOrd.eq_of_compare h)
    rw [if_neg hlength]
    cases hcompare : compare (nameBytes x).length (nameBytes y).length with
    | lt => rfl
    | eq => exact (hne hcompare).elim
    | gt => rfl

theorem compare_zero_lt {n : Nat} (hn : 0 < n) : compare (0 : Int) (n : Int) = .lt := by
  rw [Std.compare_eq_lt]
  omega

theorem compare_zero_gt {n : Nat} (hn : 0 < n) : compare (n : Int) (0 : Int) = .gt := by
  rw [Std.compare_eq_gt]
  omega

theorem code_tuple (addr : Nat) (data0 : Term) (rest : List Term) :
    code (.tuple addr data0 rest)
      = (classTuple : Int) :: ((rest.length + 1 : Nat) : Int) :: codeOfAll (data0 :: rest) :=
  rfl

/-- An empty container against one of its kind that is not empty. -/
theorem compare_class_zero_lt (c : Int) {n : Nat} (hn : 0 < n) (p q : List Int) :
    compare (c :: 0 :: p) (c :: (n : Int) :: q) = .lt := by
  rw [compare_cons_self, List.compare_cons_cons, compare_zero_lt hn]
  rfl

theorem compare_class_zero_gt (c : Int) {n : Nat} (hn : 0 < n) (p q : List Int) :
    compare (c :: (n : Int) :: p) (c :: 0 :: q) = .gt := by
  rw [compare_cons_self, List.compare_cons_cons, compare_zero_gt hn]
  rfl

/-- Two tuples of different sizes, or binaries, are told apart by the sizes. -/
theorem compare_class_of_ne (c : Int) {m n : Nat} (hmn : m ≠ n) (p q : List Int) :
    compare (c :: (m : Int) :: p) (c :: (n : Int) :: q) = compare m n := by
  rw [compare_cons_self, List.compare_cons_cons, compare_natCast]
  cases hcompare : compare m n with
  | lt => rfl
  | eq => exact (hmn (Std.LawfulEqOrd.eq_of_compare hcompare)).elim
  | gt => rfl

theorem TBinary.sight_shows (x y : TBinary) (addr addr' : Nat) (hx : x.WellFormed)
    (hy : y.WellFormed) :
    (x.sight y).Shows (compare (code (.binary addr ⟨x, hx⟩)) (code (.binary addr' ⟨y, hy⟩))) := by
  rw [TBinary.sight, code, code]
  by_cases hsize : x.bitSize = y.bitSize
  · rw [if_neg (not_not.mpr hsize), hsize, compare_cons_self, compare_cons_self]
    exact DataReader.sightBytes_shows x.reader y.reader _ _
  · rw [if_pos hsize, compare_class_of_ne _ hsize]
    exact Sight.shows_ofOrdering _

/-- What is seen at a place is the order of the codes there. -/
theorem termSight_shows {a b : Term} (ha : Plain a) (hb : Plain b) (hraw : a.raw ≠ b.raw)
    (hleaf : ¬ goesInto a b) : (termSight a b).Shows (compare (code a) (code b)) := by
  cases ha with
  | small x =>
      cases hb with
      | small y =>
          have hcompare : compare (code (.small x)) (code (.small y)) = compare x y := by
            rw [code, code, compare_cons_self, List.compare_cons_cons]
            cases compare x y <;> rfl
          rw [hcompare]
          exact Sight.shows_ofOrdering _
      | _ => rfl
  | atom x =>
      cases hb with
      | atom y =>
          rw [compare_code_atom]
          exact Sight.shows_ofOrdering _
      | _ => rfl
  | emptyTuple =>
      cases hb with
      | emptyTuple => exact (hraw rfl).elim
      | tuple hdata0 hrest =>
          rw [code, code_tuple]
          exact compare_class_zero_lt _ (Nat.succ_pos _) _ _
      | _ => rfl
  | nil =>
      cases hb with
      | nil => exact (hraw rfl).elim
      | _ => rfl
  | emptyBinary =>
      cases hb with
      | emptyBinary => exact (hraw rfl).elim
      | binary addr data => exact compare_class_zero_lt _ (TBinary.bitSize_pos data.2) _ _
      | _ => rfl
  | cons hhd htl =>
      cases hb with
      | cons hhd' htl' => exact (hleaf trivial).elim
      | _ => rfl
  | tuple hdata0 hrest =>
      cases hb with
      | emptyTuple =>
          rw [code_tuple, code]
          exact compare_class_zero_gt _ (Nat.succ_pos _) _ _
      | tuple hdata0' hrest' =>
          rw [goesInto] at hleaf
          rw [code_tuple, code_tuple, compare_class_of_ne _ (by simpa using hleaf)]
          exact Sight.shows_ofOrdering _
      | binary addr data => exact trivial
      | _ => rfl
  | binary addr data =>
      cases hb with
      | emptyBinary => exact compare_class_zero_gt _ (TBinary.bitSize_pos data.2) _ _
      | tuple hdata0 hrest => exact trivial
      | binary addr' data' => exact TBinary.sight_shows data.1 data'.1 addr addr' data.2 data'.2
      | _ => rfl

theorem separate_of_class_ne {a b : Term} (ha : Plain a) (hb : Plain b)
    (hclass : a.classifyTerm ≠ b.classifyTerm) : Separate (code a) (code b) := by
  have hcode : ∀ {t : Term}, Plain t → ∃ rest, code t = (t.classifyTerm : Int) :: rest := by
    intro t ht
    cases ht <;> exact ⟨_, rfl⟩
  obtain ⟨restA, hrestA⟩ := hcode ha
  obtain ⟨restB, hrestB⟩ := hcode hb
  rw [hrestA, hrestB]
  refine Separate.cons fun h => (hclass ?_).elim
  rw [compare_natCast] at h
  exact Std.LawfulEqOrd.eq_of_compare h

/-- Two sizes after the same class: the codes are separate where the sizes differ. -/
theorem separate_class_of_ne (c : Int) {m n : Nat} (hmn : m ≠ n) (p q : List Int) :
    Separate (c :: (m : Int) :: p) (c :: (n : Int) :: q) := by
  refine Separate.cons fun _ => Separate.cons fun h => (hmn ?_).elim
  rw [compare_natCast] at h
  exact Std.LawfulEqOrd.eq_of_compare h

theorem separate_leaf {a b : Term} (ha : Plain a) (hb : Plain b) (hleaf : ¬ goesInto a b) :
    Separate (code a) (code b) := by
  by_cases hclass : a.classifyTerm = b.classifyTerm
  · cases ha with
    | small x =>
        cases hb with
        | small y => exact Separate.of_length_eq rfl
        | _ => exact absurd hclass (Nat.ne_of_beq_eq_false rfl)
    | atom x =>
        cases hb with
        | atom y =>
            rw [code, code]
            by_cases hlength : (nameBytes x).length = (nameBytes y).length
            · exact Separate.of_length_eq (by simp [hlength])
            · exact separate_class_of_ne _ hlength _ _
        | _ => exact absurd hclass (Nat.ne_of_beq_eq_false rfl)
    | emptyTuple =>
        cases hb with
        | emptyTuple => exact Separate.of_length_eq rfl
        | tuple hdata0 hrest => exact separate_class_of_ne _ (Nat.succ_ne_zero _).symm _ _
        | _ => exact absurd hclass (Nat.ne_of_beq_eq_false rfl)
    | nil =>
        cases hb with
        | nil => exact Separate.of_length_eq rfl
        | cons hhd htl => exact separate_class_of_ne _ Nat.zero_ne_one _ _
        | _ => exact absurd hclass (Nat.ne_of_beq_eq_false rfl)
    | emptyBinary =>
        cases hb with
        | emptyBinary => exact Separate.of_length_eq rfl
        | binary addr data =>
            exact separate_class_of_ne _ (Nat.ne_of_lt (TBinary.bitSize_pos data.2)) _ _
        | _ => exact absurd hclass (Nat.ne_of_beq_eq_false rfl)
    | cons hhd htl =>
        cases hb with
        | nil => exact separate_class_of_ne _ Nat.one_ne_zero _ _
        | cons hhd' htl' => exact (hleaf trivial).elim
        | _ => exact absurd hclass (Nat.ne_of_beq_eq_false rfl)
    | tuple hdata0 hrest =>
        cases hb with
        | emptyTuple => exact separate_class_of_ne _ (Nat.succ_ne_zero _) _ _
        | tuple hdata0' hrest' =>
            rw [goesInto] at hleaf
            rw [code_tuple, code_tuple]
            exact separate_class_of_ne _ (by simpa using hleaf) _ _
        | _ => exact absurd hclass (Nat.ne_of_beq_eq_false rfl)
    | binary addr data =>
        cases hb with
        | emptyBinary =>
            exact separate_class_of_ne _ (Nat.ne_of_gt (TBinary.bitSize_pos data.2)) _ _
        | binary addr' data' =>
            rw [code, code]
            exact Separate.cons fun _ => Separate.cons fun _ => separate_significant _ _
        | _ => exact absurd hclass (Nat.ne_of_beq_eq_false rfl)
  · exact separate_of_class_ne ha hb hclass

/-- The order of the codes at a place. -/
def Place.order : Place → Ordering
  | between a b => compare (code a) (code b)
  | tails a b => compare (code a) (code b)

/-- The codes of two terms are compared as their places are, one after the other. -/
def ReadByPlaces (codeA codeB : List Int) (seen : List Place) : Prop :=
  Separate codeA codeB ∧ compare codeA codeB = firstOrder (seen.map Place.order)

theorem ReadByPlaces.append {p q p' q' : List Int} {front back : List Place}
    (h : ReadByPlaces p q front) (h' : ReadByPlaces p' q' back) :
    ReadByPlaces (p ++ p') (q ++ q') (front ++ back) := by
  refine ⟨h.1.append h'.1, ?_⟩
  rw [h.1.compare_append, h.2, h'.2, List.map_append, firstOrder_append]

theorem ReadByPlaces.cons {p q : List Int} {seen : List Place} (c : Int)
    (h : ReadByPlaces p q seen) : ReadByPlaces (c :: p) (c :: q) seen := by
  refine ⟨Separate.cons fun _ => h.1, ?_⟩
  rw [compare_cons_self, h.2]

theorem readByPlaces_self (p : List Int) : ReadByPlaces p p [] :=
  ⟨Separate.of_length_eq rfl, Std.ReflOrd.compare_self⟩

theorem readByPlaces_ofAll {as bs : List Term} (hlength : as.length = bs.length)
    (hread : ∀ a ∈ as, ∀ b ∈ bs, ReadByPlaces (code a) (code b) (places a b)) :
    ReadByPlaces (codeOfAll as) (codeOfAll bs) (placesOfAll as bs) := by
  induction as generalizing bs with
  | nil =>
      have hbs : bs = [] := List.eq_nil_of_length_eq_zero hlength.symm
      rw [hbs]
      exact readByPlaces_self []
  | cons a as ih =>
      cases bs with
      | nil => simp at hlength
      | cons b bs =>
          have hhead := hread a List.mem_cons_self b List.mem_cons_self
          have hrest := ih (by simpa using hlength) fun x hx y hy =>
            hread x (List.mem_cons_of_mem a hx) y (List.mem_cons_of_mem b hy)
          exact hhead.append hrest

theorem readByPlaces (memory : Memory) {a : Term} (ha : Plain a) (hmem : a ∈ memory.terms)
    {b : Term} (hb : Plain b) (hmem' : b ∈ memory.terms) :
    ReadByPlaces (code a) (code b) (places a b) := by
  refine memory.pair_induction (R := fun a b => ReadByPlaces (code a) (code b) (places a b))
    ?same ?leaf ?cons ?tuple ha hmem hb hmem'
  case same =>
    intro a _
    rw [places_of_raw_eq rfl]
    exact readByPlaces_self (code a)
  case leaf =>
    intro a b ha hb hraw hleaf
    rw [places_leaf hraw hleaf]
    refine ⟨separate_leaf ha hb hleaf, ?_⟩
    rw [List.map_singleton, Place.order, firstOrder_singleton]
  case cons =>
    intro addr addr' aHead atl bHead btl haddr hsame hheads htails
    rw [places_cons haddr]
    split
    · rename_i hends
      have hboth : ReadByPlaces (code atl) (code btl) [.tails atl btl] := by
        refine ⟨htails.1, ?_⟩
        rw [List.map_singleton, Place.order, firstOrder_singleton]
      rw [← hsame hends.1]
      exact ((readByPlaces_self (code aHead)).append hboth).cons 1 |>.cons classList
    · exact (hheads.append htails).cons 1 |>.cons classList
  case tuple =>
    intro addr addr' a0 b0 restA restB haddr hlength helements
    rw [places_tuple haddr hlength, code_tuple, code_tuple, hlength]
    exact (readByPlaces_ofAll (by simp [hlength]) helements).cons _ |>.cons _

/-- What is seen at a place of two terms is the order of the codes there. -/
theorem places_show (memory : Memory) {a : Term} (ha : Plain a) (hmem : a ∈ memory.terms)
    {b : Term} (hb : Plain b) (hmem' : b ∈ memory.terms) :
    ∀ place ∈ places a b, place.sight.Shows place.order := by
  intro place hplace
  have hof := of_mem_places memory ha hmem hb hmem' place hplace
  cases place with
  | between x y =>
      obtain ⟨hx, hy, hraw, hleaf⟩ := hof
      exact termSight_shows (ha.part hx) (hb.part hy) hraw hleaf
  | tails x y => exact trivial

/-- Reading them side by side, the comparison of `a` with `b` and of `b` with `a` both find
the first place where they differ. -/
def OrderlyPair (a b : Term) : Prop :=
  Orderly (sights a b)

/-- The comparison of the two terms ends in both directions, one result being the reverse
of the other. -/
def Reversed (exact : Bool) (a b : Term) : Prop :=
  ∃ order, Ends exact a b order ∧ Ends exact b a order.swap

def LessEq (exact : Bool) (a b : Term) : Prop :=
  ∃ order, Ends exact a b order ∧ order.isLE

/-- `cmp_terms` is a total order on the terms. -/
structure TotalOrderOn (exact : Bool) (terms : Set Term) : Prop where
  reversed : ∀ a ∈ terms, ∀ b ∈ terms, Reversed exact a b
  trans : ∀ a ∈ terms, ∀ b ∈ terms, ∀ c ∈ terms,
    LessEq exact a b → LessEq exact b c → LessEq exact a c

theorem reversed_iff (memory : Memory) {a : Term} (ha : Plain a) (hmem : a ∈ memory.terms)
    {b : Term} (hb : Plain b) (hmem' : b ∈ memory.terms) (exact : Bool) :
    Reversed exact a b ↔ OrderlyPair a b := by
  rw [OrderlyPair, orderly_iff, sights_swap memory ha hmem hb hmem']
  constructor
  · rintro ⟨order, hab, hba⟩
    exact ⟨order, (ends_iff memory ha hmem hb hmem' exact order).mp hab,
      (ends_iff memory hb hmem' ha hmem exact order.swap).mp hba⟩
  · rintro ⟨order, hab, hba⟩
    exact ⟨order, (ends_iff memory ha hmem hb hmem' exact order).mpr hab,
      (ends_iff memory hb hmem' ha hmem exact order.swap).mpr hba⟩

/-- Where the two readings are each other's reverse, the comparison is that of the codes. -/
theorem OrderlyPair.ends_iff (memory : Memory) {a : Term} (ha : Plain a)
    (hmem : a ∈ memory.terms) {b : Term} (hb : Plain b) (hmem' : b ∈ memory.terms)
    (h : OrderlyPair a b) (exact : Bool) (order : Ordering) :
    Ends exact a b order ↔ order = compare (code a) (code b) := by
  have hforward := Orderly.forward_eq (places_show memory ha hmem hb hmem') h
  rw [← (readByPlaces memory ha hmem hb hmem').2] at hforward
  rw [Zeptobeam.ends_iff memory ha hmem hb hmem', sights, hforward, Option.some.injEq, eq_comm]

theorem OrderlyPair.lessEq_iff (memory : Memory) {a : Term} (ha : Plain a)
    (hmem : a ∈ memory.terms) {b : Term} (hb : Plain b) (hmem' : b ∈ memory.terms)
    (h : OrderlyPair a b) (exact : Bool) :
    LessEq exact a b ↔ (compare (code a) (code b)).isLE := by
  constructor
  · rintro ⟨order, hends, hle⟩
    rwa [← (h.ends_iff memory ha hmem hb hmem' exact order).mp hends]
  · intro hle
    exact ⟨_, (h.ends_iff memory ha hmem hb hmem' exact _).mpr rfl, hle⟩

/-- `cmp_terms` is a total order on a set of plain terms exactly where every two of them,
read side by side, are told apart by both directions at the first place where they differ,
or where what the one direction overlooks is made good by what follows. -/
theorem totalOrderOn_iff (memory : Memory) (terms : Set Term)
    (hterms : ∀ t ∈ terms, t ∈ memory.terms ∧ Plain t) (exact : Bool) :
    TotalOrderOn exact terms ↔ ∀ a ∈ terms, ∀ b ∈ terms, OrderlyPair a b := by
  constructor
  · intro horder a ha b hb
    have hreversed := horder.reversed a ha b hb
    rwa [reversed_iff memory (hterms a ha).2 (hterms a ha).1 (hterms b hb).2
      (hterms b hb).1] at hreversed
  · intro horderly
    have hle : ∀ a ∈ terms, ∀ b ∈ terms,
        (LessEq exact a b ↔ (compare (code a) (code b)).isLE) := fun a ha b hb =>
      (horderly a ha b hb).lessEq_iff memory (hterms a ha).2 (hterms a ha).1 (hterms b hb).2
        (hterms b hb).1 exact
    refine ⟨fun a ha b hb => ?_, fun a ha b hb c hc hab hbc => ?_⟩
    · exact (reversed_iff memory (hterms a ha).2 (hterms a ha).1 (hterms b hb).2
        (hterms b hb).1 exact).mpr (horderly a ha b hb)
    · rw [hle a ha b hb] at hab
      rw [hle b hb c hc] at hbc
      rw [hle a ha c hc]
      exact Std.TransOrd.isLE_trans hab hbc

theorem totalOrderOn_iff_oneList :
    TotalOrderOn true {.small 1, .cons 0 (.small 1) .nil} := by
  refine (totalOrderOn_iff oneList {.small 1, .cons 0 (.small 1) .nil} ?_ true).mpr ?_
  · rintro t (rfl | rfl)
    · exact ⟨.inl rfl, .small 1⟩
    · exact ⟨.inr (.inr rfl), .cons (.small 1) .nil⟩
  · rintro a (rfl | rfl) b (rfl | rfl) <;> exact trivial

/-- `[]` is equal to `[1]`, which is greater; `[1]` against `[1, 2]` takes the pointer to a
list cell of nil; a tuple against a binary is not implemented. -/
theorem nil_equals_list :
    ¬ TotalOrderOn true {.nil, .cons 0 (.small 1) .nil} ∧
      (∀ fuel, cmpTerms (fuel + 2) (.cons 0 (.small 1) .nil)
        (.cons 1 (.small 1) (.cons 2 (.small 2) .nil)) true = .error .invalidDereference) ∧
      ∀ fuel, cmpTerms (fuel + 2) (.tuple 0 (.small 1) [])
        (.binary 1 ⟨.processHeap 8 [1], by decide⟩) true
          = .error (.unimplemented "cmp_mixed_types") := by
  refine ⟨fun horder => ?_, fun _ => rfl, fun _ => rfl⟩
  obtain ⟨order, ⟨least, hab⟩, ⟨least', hba⟩⟩ :=
    horder.reversed .nil (.inl rfl) (.cons 0 (.small 1) .nil) (.inr rfl)
  have hequal : order = .eq :=
    (Except.ok.inj (hab (least + least' + 2) (by omega))).symm
  have hgreater : order.swap = .gt :=
    (Except.ok.inj (hba (least + least' + 2) (by omega))).symm
  rw [hequal] at hgreater
  cases hgreater

end Zeptobeam
