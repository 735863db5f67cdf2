/-
`lists:keyfind`: the scan compares the key with the element behind the one that it is asked for,
as the position counts from one and the elements of a tuple from zero; and what it returns for a
match is a boxed pointer to the cell of the list.
-/
import Zeptobeam.HeapMemory
import Zeptobeam.MatchState
import Zeptobeam.TermFuel

namespace Zeptobeam

open Fuelled StateExcept

/-- What an element of the list is asked. -/
def keyfindPredicate (fuel : Nat) (sample : Term) (pos : Nat) (elem : Term) :
    Except NativeErr Bool :=
  if elem.isTuple then
    match elem with
    | .tuple _ data0 rest =>
        if _ : (data0 :: rest).length ≤ pos then .ok false
        else
          -- the comparison never returns an error, which would count as different
          match cmpTerms fuel sample (data0 :: rest)[pos] true with
          | .ok cmpResult => .ok (cmpResult == .eq)
          | .error fault => .error (.panic (.comparing fault))
    -- the empty tuple is no pointer
    | _ => .error .invalidDereference
  else .ok false

/-- Finds the first cell whose element satisfies the predicate. -/
def findFirst (predicate : Term → Except NativeErr Bool) : Term → Except NativeErr (Option Nat)
  | .cons addr hd tl => do
      if ← predicate hd then return some addr
      else findFirst predicate tl
  | _ => return none

/-- The word that the function returns. -/
def keyfind3 (debug : Bool) (fuel : Nat) (sample pos list : Term) : Except NativeErr Word :=
  match pos with
  | .small value => do
      let pos ← (getSmallUnsigned debug value).mapError .panic
      if ¬ list.isList then throw .badarg
      match ← findFirst (keyfindPredicate fuel sample pos) list with
      | some first => return .boxPtr first
      | none => return .atom "false"
  | _ => .error .badarg

/-! ## What it is to return -/

/-- A proper list of cells at these addresses. -/
def listOf : List (Nat × Term) → Term
  | [] => .nil
  | (addr, hd) :: cells => .cons addr hd (listOf cells)

/-- A positive integer; one that does not fit a small is boxed. -/
def positionTerm (addr n : Nat) : Term :=
  if n < 2 ^ 60 then .small n else .boxed addr .bigInteger

/-- A tuple of size at least N whose N-th element, counted from one, is equal to the key. -/
def Matches (equal : Term → Term → Prop) (key : Term) (n : Nat) (t : Term) : Prop :=
  ∃ addr data0 rest element, t = .tuple addr data0 rest ∧ 0 < n ∧
    (data0 :: rest)[n - 1]? = some element ∧ equal key element

/-- The first match of a list, or `false` when there is none. -/
def KeyfindResult (equal : Term → Term → Prop) (key : Term) (n : Nat) (elements : List Term)
    (result : Word) : Prop :=
  (∃ before t after, elements = before ++ t :: after ∧ (∀ x ∈ before, ¬ Matches equal key n x) ∧
      Matches equal key n t ∧ result = t.raw) ∨
    ((∀ x ∈ elements, ¬ Matches equal key n x) ∧ result = .atom "false")

/-- With enough fuel the function returns the first match. -/
def KeyfindRight (equal : Term → Term → Prop) (debug : Bool) (key : Term) (addr n : Nat)
    (cells : List (Nat × Term)) : Prop :=
  ∃ result, Settles (fun fuel => keyfind3 debug fuel key (positionTerm addr n) (listOf cells))
    result ∧ KeyfindResult equal key n (cells.map Prod.snd) result

/-- No tuple in the list lies where a cell of the list does. -/
def CellsApart (cells : List (Nat × Term)) : Prop :=
  ∀ c ∈ cells, ∀ c' ∈ cells, c'.2.raw ≠ .boxPtr c.1

/-- The scan goes past the element: it is no tuple, or its element behind the N-th one is missing
or different from the key. -/
def PassedOver (key : Term) (n : Nat) : Term → Prop
  | .tuple _ data0 rest =>
      ∀ element, (data0 :: rest)[n]? = some element →
        ∃ order, Ends true key element order ∧ order ≠ .eq
  | .emptyTuple => False
  | _ => True

section Scan

variable {key t : Term} {n fuel : Nat} {cells : List (Nat × Term)}

theorem cmpTerms_keeps (a b : Term) : Keeps fun fuel => cmpTerms fuel a b true :=
  fun fuel order => (cmpTerms_succ fuel).1 a b true order

theorem keyfindPredicate_tuple (addr : Nat) (data0 : Term) (rest : List Term) :
    keyfindPredicate fuel key n (.tuple addr data0 rest) =
      match (data0 :: rest)[n]? with
      | none => .ok false
      | some element =>
          match cmpTerms fuel key element true with
          | .ok cmpResult => .ok (cmpResult == .eq)
          | .error fault => .error (.panic (.comparing fault)) := by
  have htuple : (Term.tuple addr data0 rest).isTuple = true := by simp [Term.isTuple, Term.boxType]
  by_cases hn : (data0 :: rest).length ≤ n
  · rw [List.getElem?_eq_none hn]
    simp only [keyfindPredicate, htuple, if_true, hn, dif_pos]
  · rw [List.getElem?_eq_getElem (Nat.not_le.mp hn)]
    simp only [keyfindPredicate, htuple, if_true, hn, dif_neg, not_false_eq_true]

theorem keyfindPredicate_eq_ok_iff {addr : Nat} {data0 element : Term} {rest : List Term}
    {r : Bool} (helement : (data0 :: rest)[n]? = some element) :
    keyfindPredicate fuel key n (.tuple addr data0 rest) = .ok r ↔
      ∃ order, cmpTerms fuel key element true = .ok order ∧ (order == .eq) = r := by
  rw [keyfindPredicate_tuple]
  simp only [helement]
  cases hcmp : cmpTerms fuel key element true with
  | error fault => simp
  | ok order => simp

theorem keyfindPredicate_keeps (key : Term) (n : Nat) (t : Term) :
    Keeps fun fuel => keyfindPredicate fuel key n t := by
  intro fuel r h
  cases t with
  | tuple addr data0 rest =>
      cases helement : (data0 :: rest)[n]? with
      | none =>
          simp only [keyfindPredicate_tuple, helement] at h ⊢
          exact h
      | some element =>
          obtain ⟨order, horder, hr⟩ := (keyfindPredicate_eq_ok_iff helement).mp h
          exact (keyfindPredicate_eq_ok_iff helement).mpr
            ⟨order, cmpTerms_keeps key element fuel order horder, hr⟩
  | _ => exact h

/-- What the predicate says of a tuple that has the element. -/
theorem settles_tuple_iff {addr : Nat} {data0 element : Term} {rest : List Term} {r : Bool}
    (helement : (data0 :: rest)[n]? = some element) :
    Settles (fun fuel => keyfindPredicate fuel key n (.tuple addr data0 rest)) r ↔
      ∃ order, Ends true key element order ∧ (order == .eq) = r := by
  constructor
  · rintro ⟨least, h⟩
    obtain ⟨order, horder, hr⟩ :=
      (keyfindPredicate_eq_ok_iff helement).mp (h least (Nat.le_refl least))
    exact ⟨order, (cmpTerms_keeps key element).settles horder, hr⟩
  · rintro ⟨order, ⟨least, h⟩, hr⟩
    exact ⟨least, fun fuel hfuel =>
      (keyfindPredicate_eq_ok_iff helement).mpr ⟨order, h fuel hfuel, hr⟩⟩

theorem settles_false_iff :
    Settles (fun fuel => keyfindPredicate fuel key n t) false ↔ PassedOver key n t := by
  cases t with
  | tuple addr data0 rest =>
      cases helement : (data0 :: rest)[n]? with
      | none =>
          refine iff_of_true ⟨0, fun fuel _ => ?_⟩ ?_
          · simp only [keyfindPredicate_tuple, helement]
          · intro element h
            rw [helement] at h
            cases h
      | some element =>
          rw [settles_tuple_iff helement]
          simp only [PassedOver, helement, Option.some.injEq, forall_eq', beq_eq_false_iff_ne]
  | emptyTuple =>
      refine iff_of_false (fun ⟨least, h⟩ => ?_) id
      cases h least (Nat.le_refl least)
  | boxed addr object =>
      have hfalse : (Term.boxed addr object).isTuple = false := by cases object <;> rfl
      refine iff_of_true ⟨0, fun fuel _ => ?_⟩ trivial
      simp only [keyfindPredicate, hfalse, Bool.false_eq_true, if_false]
  | _ => exact iff_of_true ⟨0, fun _ _ => rfl⟩ trivial

theorem findFirst_keeps (key : Term) (n : Nat) (cells : List (Nat × Term)) :
    Keeps fun fuel => findFirst (keyfindPredicate fuel key n) (listOf cells) := by
  induction cells with
  | nil => exact fun _ _ h => h
  | cons c cells ih =>
      intro fuel found h
      obtain ⟨r, hr, h⟩ := except_bind_eq_ok_iff.mp h
      refine except_bind_eq_ok_iff.mpr ⟨r, keyfindPredicate_keeps key n c.2 fuel r hr, ?_⟩
      cases r with
      | true => exact h
      | false => exact ih fuel found h

/-- The scan finds nothing when it goes past every element, and else it can only find a cell of
the list. -/
theorem settles_findFirst {found : Option Nat}
    (h : Settles (fun fuel => findFirst (keyfindPredicate fuel key n) (listOf cells)) found) :
    (found = none ∧ ∀ c ∈ cells, PassedOver key n c.2) ∨ ∃ c ∈ cells, found = some c.1 := by
  induction cells with
  | nil =>
      obtain ⟨least, h⟩ := h
      cases h least (Nat.le_refl least)
      exact .inl ⟨rfl, fun c hc => absurd hc List.not_mem_nil⟩
  | cons c cells ih =>
      simp only [listOf, findFirst] at h
      obtain ⟨r, hr, hrest⟩ := (keyfindPredicate_keeps key n c.2).settles_bind_iff.mp h
      cases r with
      | true =>
          obtain ⟨least, h⟩ := hrest
          cases h least (Nat.le_refl least)
          exact .inr ⟨c, List.mem_cons_self, rfl⟩
      | false =>
          rcases ih hrest with ⟨rfl, hpassed⟩ | ⟨c', hc', rfl⟩
          · exact .inl ⟨rfl, List.forall_mem_cons.mpr ⟨settles_false_iff.mp hr, hpassed⟩⟩
          · exact .inr ⟨c', List.mem_cons_of_mem c hc', rfl⟩

theorem settles_findFirst_none (h : ∀ c ∈ cells, PassedOver key n c.2) :
    Settles (fun fuel => findFirst (keyfindPredicate fuel key n) (listOf cells)) none := by
  induction cells with
  | nil => exact ⟨0, fun _ _ => rfl⟩
  | cons c cells ih =>
      obtain ⟨hc, hcells⟩ := List.forall_mem_cons.mp h
      simp only [listOf, findFirst]
      exact (keyfindPredicate_keeps key n c.2).settles_bind_iff.mpr
        ⟨false, settles_false_iff.mpr hc, ih hcells⟩

theorem isList_listOf (cells : List (Nat × Term)) : (listOf cells).isList = true := by
  cases cells with
  | nil => rfl
  | cons c cells => simp [listOf, Term.isList, Term.isCons, Term.getTermTag, Term.raw]

theorem keyfind3_eq (debug : Bool) (fuel addr : Nat) (hn : n < 2 ^ 60) :
    keyfind3 debug fuel key (positionTerm addr n) (listOf cells) =
      (findFirst (keyfindPredicate fuel key n) (listOf cells)).map fun found =>
        found.elim (Word.atom "false") Word.boxPtr := by
  have hpos : getSmallUnsigned debug (n : Int) = .ok n := by
    unfold getSmallUnsigned
    rw [if_neg (by omega)]
    congr 1
    omega
  have hpos' : (getSmallUnsigned debug (n : Int)).mapError NativeErr.panic = .ok n := by
    rw [hpos]
    rfl
  rw [positionTerm, if_pos hn]
  simp only [keyfind3, hpos', isList_listOf, not_true_eq_false, if_false, bind, Except.bind,
    pure, Except.pure]
  cases findFirst (keyfindPredicate fuel key n) (listOf cells) with
  | error e => rfl
  | ok found => cases found <;> rfl

/-- A position that is no small is an error, and any other is handed to the scan. -/
theorem settles_keyfind3 {debug : Bool} {addr : Nat} {result : Word}
    (h : Settles (fun fuel => keyfind3 debug fuel key (positionTerm addr n) (listOf cells))
      result) :
    n < 2 ^ 60 ∧ ∃ found,
      Settles (fun fuel => findFirst (keyfindPredicate fuel key n) (listOf cells)) found ∧
      result = found.elim (Word.atom "false") Word.boxPtr := by
  obtain ⟨least, h⟩ := h
  by_cases hn : n < 2 ^ 60
  · simp only [keyfind3_eq debug _ addr hn] at h
    cases hfound : findFirst (keyfindPredicate least key n) (listOf cells) with
    | error e =>
        have hleast := h least (Nat.le_refl least)
        rw [hfound] at hleast
        cases hleast
    | ok found =>
        have hleast := h least (Nat.le_refl least)
        rw [hfound] at hleast
        exact ⟨hn, found, (findFirst_keeps key n cells).settles hfound,
          (Except.ok.inj hleast).symm⟩
  · have hleast := h least (Nat.le_refl least)
    rw [positionTerm, if_neg hn] at hleast
    cases hleast

end Scan

end Zeptobeam
