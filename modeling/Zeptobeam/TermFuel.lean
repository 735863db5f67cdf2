/-
More fuel leaves the results of a comparison, of a search in a map and of what is added to
it: a round that returns makes the same round, and the rounds after it return as well.
-/
import Zeptobeam.ExtTermFormat

namespace Zeptobeam

open Fuelled

/-- What the one comparison returns the other one returns as well. -/
def Extends (cmp cmp' : Term → Term → Except Fault Ordering) : Prop :=
  ∀ a b order, cmp a b = .ok order → cmp' a b = .ok order

theorem concluded_extends {x x' : Except Fault Ordering} {result : EqResult}
    (hx : ∀ order, x = .ok order → x' = .ok order)
    (h : EqResult.concluded <$> x = .ok result) : EqResult.concluded <$> x' = .ok result := by
  cases hcases : x with
  | error fault => simp [hcases] at h
  | ok order =>
      rw [hcases] at h
      rw [hx order hcases]
      exact h

/-- Two terms are compared by their tags, or at once. -/
theorem cmpTermsAnyType_cases (a b : Term) (exact : Bool) :
    (∀ cmp, cmpTermsAnyType cmp a b exact = cmpTermsPrimary cmp a b) ∨
      ∃ r, ∀ cmp, cmpTermsAnyType cmp a b exact = r := by
  unfold cmpTermsAnyType
  split
  next => exact .inr ⟨_, fun _ => rfl⟩
  next => exact .inr ⟨_, fun _ => rfl⟩
  next =>
    split
    next => exact .inr ⟨_, fun _ => rfl⟩
    next =>
      split
      next => exact .inr ⟨_, fun _ => rfl⟩
      next => exact .inl fun _ => rfl

section Extends

variable {cmp cmp' : Term → Term → Except Fault Ordering} (h : Extends cmp cmp')

include h

theorem cmpElements_extends {as bs : List Term} {order : Ordering}
    (hcmp : cmpElements cmp as bs = .ok order) : cmpElements cmp' as bs = .ok order := by
  induction as generalizing bs with
  | nil => exact hcmp
  | cons a as ih =>
      cases bs with
      | nil => exact hcmp
      | cons b bs =>
          rw [cmpElements] at hcmp ⊢
          cases hab : cmp a b with
          | error fault => simp [hab] at hcmp
          | ok result =>
              rw [hab] at hcmp
              rw [h a b result hab]
              cases result with
              | eq => exact ih hcmp
              | lt | gt => exact hcmp

theorem cmpTermsImmedBox_extends {a b : Term} {order : Ordering}
    (hcmp : cmpTermsImmedBox cmp a b = .ok order) :
    cmpTermsImmedBox cmp' a b = .ok order := by
  unfold cmpTermsImmedBox at hcmp ⊢
  split
  next =>
    dsimp only at hcmp ⊢
    split at hcmp
    next => exact cmpElements_extends h hcmp
    next => exact hcmp
  next htuples =>
    split at hcmp
    next => exact absurd rfl (htuples _ _ _ _ _ _ rfl)
    next => exact hcmp

theorem cmpTermsImmed_extends {a b : Term} {order : Ordering}
    (hcmp : cmpTermsImmed cmp a b = .ok order) : cmpTermsImmed cmp' a b = .ok order := by
  unfold cmpTermsImmed at hcmp ⊢
  split
  next hsame => rwa [if_pos hsame] at hcmp
  next hdiffer =>
    rw [if_neg hdiffer] at hcmp
    split
    next hpid => rwa [if_pos hpid] at hcmp
    next hpid =>
      rw [if_neg hpid] at hcmp
      split
      next hbox =>
        rw [if_pos hbox] at hcmp
        exact cmpTermsImmedBox_extends h hcmp
      next hbox => rwa [if_neg hbox] at hcmp

theorem cmpTermsPrimary_extends {a b : Term} {result : EqResult}
    (hcmp : cmpTermsPrimary cmp a b = .ok result) :
    cmpTermsPrimary cmp' a b = .ok result := by
  unfold cmpTermsPrimary at hcmp ⊢
  split
  next htag => rwa [if_pos htag] at hcmp
  next htag =>
    rw [if_neg htag] at hcmp
    cases hcase : a.getTermTag with
    | boxPtr =>
        rw [hcase] at hcmp
        exact concluded_extends (fun order => cmpTermsImmedBox_extends h) hcmp
    | consPtr =>
        rw [hcase] at hcmp
        exact hcmp
    | smallInt | atom | localPid | special =>
        rw [hcase] at hcmp
        exact concluded_extends (fun order => cmpTermsImmed_extends h) hcmp

theorem cmpTermsAnyType_extends {a b : Term} {exact : Bool} {result : EqResult}
    (hcmp : cmpTermsAnyType cmp a b exact = .ok result) :
    cmpTermsAnyType cmp' a b exact = .ok result := by
  rcases cmpTermsAnyType_cases a b exact with hprimary | ⟨r, hr⟩
  · rw [hprimary] at hcmp ⊢
    exact cmpTermsPrimary_extends h hcmp
  · rw [hr] at hcmp ⊢
    exact hcmp

end Extends

/-- The comparison and its loop, with one more unit of fuel. -/
theorem cmpTerms_succ (fuel : Nat) :
    (∀ a b exact order, cmpTerms fuel a b exact = .ok order →
        cmpTerms (fuel + 1) a b exact = .ok order) ∧
      ∀ stack op exact order, cmpTerms1 fuel stack op exact = .ok order →
        cmpTerms1 (fuel + 1) stack op exact = .ok order := by
  induction fuel with
  | zero => exact ⟨fun _ _ _ _ h => (by cases h), fun _ _ _ _ h => (by cases h)⟩
  | succ fuel ih =>
      refine ⟨fun a b exact order h => ?_, fun stack op exact order h => ?_⟩
      · rw [cmpTerms] at h ⊢
        split
        next hraw => rwa [if_pos hraw] at h
        next hraw =>
          rw [if_neg hraw] at h
          exact ih.2 _ _ _ _ h
      · have hany : ∃ a b, op = .anyType a b ∨ op = .cons a b := by
          cases op with
          | anyType a b => exact ⟨a, b, .inl rfl⟩
          | cons a b => exact ⟨a, b, .inr rfl⟩
        obtain ⟨a, b, hop⟩ := hany
        have hround : ∀ fuel, cmpTerms1 fuel stack op exact
            = cmpTerms1 fuel stack (.anyType a b) exact := by
          rcases hop with rfl | rfl
          · exact fun _ => rfl
          · exact fun fuel => cmpTerms1_cons fuel stack a b exact
        rw [hround, cmpTerms1_succ] at h
        rw [hround, cmpTerms1_succ]
        cases hresult : cmpTermsAnyType (nested fuel) a b exact with
        | error fault => simp [hresult] at h
        | ok result =>
            have hnested : Extends (nested fuel) (nested (fuel + 1)) :=
              fun x y order => ih.1 x y true order
            rw [cmpTermsAnyType_extends hnested hresult]
            rw [hresult] at h
            cases result with
            | compareNested x y state => exact ih.2 _ _ _ _ h
            | concluded result =>
                cases result with
                | eq =>
                    cases stack with
                    | nil => exact h
                    | cons next stack => exact ih.2 _ _ _ _ h
                | lt | gt => exact h

theorem nested_extends (fuel : Nat) :
    Extends (fun x y => cmpTerms fuel x y true) (fun x y => cmpTerms (fuel + 1) x y true) :=
  fun x y order => (cmpTerms_succ fuel).1 x y true order

theorem searchLoop_extends {cmp cmp' : Term → Term → Except Fault Ordering}
    (h : Extends cmp cmp') (m : FlatMap) (key : Term) {fuel a b : Nat} {r : MapGetResult}
    (hsearch : m.searchLoop cmp key fuel a b = .ok r) :
    m.searchLoop cmp' key (fuel + 1) a b = .ok r := by
  induction fuel generalizing a b with
  | zero => cases hsearch
  | succ fuel ih =>
      cases hp : m.pairs[a + (b - a) / 2]? with
      | none => simp [FlatMap.searchLoop, hp] at hsearch
      | some p =>
          cases horder : cmp p.1 key with
          | error fault => simp [FlatMap.searchLoop, hp, horder] at hsearch
          | ok order =>
              have horder' := h p.1 key order horder
              cases order with
              | eq =>
                  rw [FlatMap.searchLoop_of_eq hp horder] at hsearch
                  rw [FlatMap.searchLoop_of_eq hp horder', hsearch]
              | lt =>
                  rw [FlatMap.searchLoop_step_left hp horder] at hsearch
                  rw [FlatMap.searchLoop_step_left hp horder']
                  split
                  next hone => rwa [if_pos hone] at hsearch
                  next hone => exact ih (by rwa [if_neg hone] at hsearch)
              | gt =>
                  rw [FlatMap.searchLoop_step_right hp horder] at hsearch
                  rw [FlatMap.searchLoop_step_right hp horder']
                  split
                  next hone => rwa [if_pos hone] at hsearch
                  next hone => exact ih (by rwa [if_neg hone] at hsearch)

theorem getFlatmap_keeps (m : FlatMap) (key : Term) :
    Keeps fun fuel => m.getFlatmap fuel key := by
  intro fuel r h
  simp only [FlatMap.getFlatmap] at h ⊢
  split
  next hzero => rwa [if_pos hzero] at h
  next hzero =>
    rw [if_neg hzero] at h
    exact searchLoop_extends (nested_extends fuel) m key h

theorem addToMap_keeps (capacity : Nat) (pairs : List (Built × Built)) (key value : Built) :
    Keeps fun fuel => ExtTermFormat.addToMap fuel capacity pairs key value := by
  intro fuel r h
  unfold ExtTermFormat.addToMap at h ⊢
  cases hget : FlatMap.getFlatmap fuel ⟨capacity, pairs.map fun p => (p.1.term, p.2.term)⟩
      key.term with
  | error p => simp [hget, bind, Except.bind] at h
  | ok r' =>
      have hget' := getFlatmap_keeps _ _ fuel r' hget
      simp only [hget] at h
      simp only [hget']
      exact h

end Zeptobeam
