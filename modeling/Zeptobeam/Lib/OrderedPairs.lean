/-
Pairs of keys and values under a comparison of the keys.  A list of pairs is looked up from
its front.  A list in ascending order has one pair for a key, which may be written over in
its place, and another pair may be put between the lesser and the greater ones.
-/
import Mathlib.Data.List.Basic

namespace OrderedPairs

universe u v

variable {K : Type u} {V : Type v} (cmp : K → K → Ordering)

/-- The value of the first pair with an equal key. -/
def lookup (pairs : List (K × V)) (k : K) : Option V :=
  (pairs.find? fun p => cmp p.1 k = .eq).map Prod.snd

def Ascending (pairs : List (K × V)) : Prop :=
  pairs.Pairwise fun p q => cmp p.1 q.1 = .lt

/-- How many different keys the pairs have. -/
def distinct : List (K × V) → Nat
  | [] => 0
  | p :: pairs => (if (lookup cmp pairs p.1).isSome then 0 else 1) + distinct pairs

variable {cmp} {pairs : List (K × V)} {p : K × V} {k k' : K} {v : V} {i : Nat}

@[simp]
theorem lookup_nil : lookup cmp ([] : List (K × V)) k = none := rfl

theorem lookup_cons :
    lookup cmp (p :: pairs) k = if cmp p.1 k = .eq then some p.2 else lookup cmp pairs k := by
  unfold lookup
  rw [List.find?_cons]
  by_cases h : cmp p.1 k = .eq <;> simp [h]

theorem lookup_eq_none_iff : lookup cmp pairs k = none ↔ ∀ p ∈ pairs, cmp p.1 k ≠ .eq := by
  simp [lookup]

theorem distinct_le_cons : distinct cmp pairs ≤ distinct cmp (p :: pairs) :=
  Nat.le_add_left _ _

theorem distinct_pos (h : pairs ≠ []) : 0 < distinct cmp pairs := by
  induction pairs with
  | nil => exact absurd rfl h
  | cons p pairs ih =>
      cases pairs with
      | nil => simp [distinct]
      | cons q pairs => exact Nat.lt_of_lt_of_le (ih (by simp)) distinct_le_cons

theorem Ascending.lt (h : Ascending cmp pairs) {j : Nat} (hij : i < j)
    (hj : j < pairs.length) : cmp pairs[i].1 pairs[j].1 = .lt :=
  List.pairwise_iff_getElem.mp h i j (Nat.lt_trans hij hj) hj hij

section Ordered

variable [Std.TransCmp cmp]

/-- A pair in ascending order is the one that its key is looked up at. -/
theorem lookup_getElem (h : Ascending cmp pairs) (hi : i < pairs.length)
    (heq : cmp pairs[i].1 k = .eq) : lookup cmp pairs k = some pairs[i].2 := by
  induction pairs generalizing i with
  | nil => simp at hi
  | cons p pairs ih =>
      obtain ⟨hhead, hrest⟩ := List.pairwise_cons.mp h
      rw [lookup_cons]
      cases i with
      | zero => rw [if_pos (by simpa using heq)]; rfl
      | succ i =>
          have hi' : i < pairs.length := by simpa using hi
          have heq' : cmp pairs[i].1 k = .eq := heq
          have hlt := Std.TransCmp.lt_of_lt_of_eq (hhead _ (List.getElem_mem hi')) heq'
          rw [if_neg (by simp [hlt]), ih hrest hi' heq']
          rfl

/-- The pair of an equal key is written over. -/
theorem lookup_set (h : Ascending cmp pairs) (hi : i < pairs.length)
    (heq : cmp pairs[i].1 k = .eq) :
    lookup cmp (pairs.set i (k, v)) k'
      = if cmp k k' = .eq then some v else lookup cmp pairs k' := by
  induction pairs generalizing i with
  | nil => simp at hi
  | cons p pairs ih =>
      obtain ⟨hhead, hrest⟩ := List.pairwise_cons.mp h
      cases i with
      | zero =>
          have hp : cmp p.1 k = .eq := heq
          rw [List.set_cons_zero, lookup_cons, lookup_cons, Std.TransCmp.congr_left hp]
          split <;> rfl
      | succ i =>
          have hi' : i < pairs.length := by simpa using hi
          have heq' : cmp pairs[i].1 k = .eq := heq
          have hlt := Std.TransCmp.lt_of_lt_of_eq (hhead _ (List.getElem_mem hi')) heq'
          rw [List.set_cons_succ, lookup_cons, lookup_cons, ih hrest hi' heq']
          by_cases hp : cmp p.1 k' = .eq
          · have hne : cmp k k' ≠ .eq := by
              intro hk
              rw [Std.TransCmp.congr_right hk, hp] at hlt
              cases hlt
            rw [if_pos hp, if_neg hne, if_pos hp]
          · rw [if_neg hp, if_neg hp]

theorem ascending_set (h : Ascending cmp pairs) (hi : i < pairs.length)
    (heq : cmp pairs[i].1 k = .eq) : Ascending cmp (pairs.set i (k, v)) := by
  refine List.pairwise_iff_getElem.mpr fun j l hj hl hjl => ?_
  rw [List.length_set] at hj hl
  have hlt := h.lt hjl hl
  rw [List.getElem_set, List.getElem_set]
  split
  next hij =>
    subst hij
    rw [if_neg (by omega), ← Std.TransCmp.congr_left heq]
    exact hlt
  next hij =>
    split
    next hil =>
      subst hil
      rw [← Std.TransCmp.congr_right heq]
      exact hlt
    next => exact hlt

/-- A pair with a new key may be put anywhere. -/
theorem lookup_insertIdx (habsent : lookup cmp pairs k = none) (hi : i ≤ pairs.length) :
    lookup cmp (pairs.insertIdx i (k, v)) k'
      = if cmp k k' = .eq then some v else lookup cmp pairs k' := by
  induction pairs generalizing i with
  | nil =>
      obtain rfl : i = 0 := by simpa using hi
      rw [List.insertIdx_zero, lookup_cons]
  | cons p pairs ih =>
      cases i with
      | zero => rw [List.insertIdx_zero, lookup_cons]
      | succ i =>
          have habsent' : lookup cmp pairs k = none := by
            rw [lookup_eq_none_iff] at habsent ⊢
            exact fun q hq => habsent q (List.mem_cons_of_mem p hq)
          rw [List.insertIdx_succ_cons, lookup_cons, lookup_cons,
            ih habsent' (by simpa using hi)]
          by_cases hp : cmp p.1 k' = .eq
          · have hne : cmp k k' ≠ .eq := by
              intro hk
              apply lookup_eq_none_iff.mp habsent p List.mem_cons_self
              rw [Std.TransCmp.congr_right hk, hp]
            rw [if_pos hp, if_neg hne, if_pos hp]
          · rw [if_neg hp, if_neg hp]

end Ordered

end OrderedPairs
