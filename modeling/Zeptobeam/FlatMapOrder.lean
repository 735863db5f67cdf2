/-
Boxed maps whose keys are totally ordered by the comparison of terms.  Pairs over a set of
such keys stand for the pairs of the map; what a search of them comes to, and with it what
is added where, depends on the pair in the middle alone.
-/
import Mathlib.Data.List.InsertIdx
import Mathlib.Data.Set.CoeSort
import Zeptobeam.Lib.OrderedPairs
import Zeptobeam.FlatMap
import Zeptobeam.TermOrder

namespace Zeptobeam

open Fuelled OrderedPairs

section Order

variable {keys : Set Term} (h : TotalOrderOn true keys)

/-- The order of two keys. -/
noncomputable def keyOrder (a b : keys) : Ordering :=
  (h.reversed a a.2 b b.2).choose

theorem ends_keyOrder (a b : keys) : Ends true a.1 b.1 (keyOrder h a b) :=
  (h.reversed a a.2 b b.2).choose_spec.1

theorem ends_iff_keyOrder {a b : keys} {order : Ordering} :
    Ends true a.1 b.1 order ↔ keyOrder h a b = order := by
  constructor
  · exact fun hends => Settles.unique (ends_keyOrder h a b) hends
  · rintro rfl
    exact ends_keyOrder h a b

theorem lessEq_iff_keyOrder {a b : keys} : LessEq true a.1 b.1 ↔ (keyOrder h a b).isLE := by
  constructor
  · rintro ⟨order, hends, hle⟩
    rwa [(ends_iff_keyOrder h).mp hends]
  · exact fun hle => ⟨_, ends_keyOrder h a b, hle⟩

instance transCmp_keyOrder : Std.TransCmp (keyOrder h) where
  eq_swap {a b} := by
    have hswap := (h.reversed a a.2 b b.2).choose_spec.2
    rw [(ends_iff_keyOrder h).mp hswap, Ordering.swap_swap]
    rfl
  isLE_trans {a b c} hab hbc := by
    rw [← lessEq_iff_keyOrder] at hab hbc ⊢
    exact h.trans a a.2 b b.2 c c.2 hab hbc

end Order

/-- The pairs as the map has them. -/
def termPairs {keys : Set Term} (pairs : List (keys × Term)) : List (Term × Term) :=
  pairs.map fun p => (p.1.1, p.2)

section Search

variable {K V : Type} (cmp : K → K → Ordering)

/-- What a search comes to, if it ends, from the order of the key in the middle and the one
that is searched. -/
def searchEnd (count : Nat) : Ordering → Option MapGetResult
  | .eq => some (.foundAt ((count - 1) / 2))
  | .lt => some (.closestLarger 1)
  | .gt => if count = 1 then some (.closestLarger 0) else none

def searched (pairs : List (K × V)) (key : K) : Option MapGetResult :=
  match pairs[(pairs.length - 1) / 2]? with
  | none => some (.closestLarger 0)
  | some p => searchEnd pairs.length (cmp p.1 key)

/-- The pairs after a pair was added to them. -/
def addPair (pairs : List (K × V)) (key : K) (value : V) : Option (List (K × V)) :=
  (searched cmp pairs key).map fun
    | .foundAt pos => pairs.set pos (key, value)
    | .closestLarger pos => pairs.insertIdx pos (key, value)

def getPair (pairs : List (K × V)) (key : K) : Option (Option V) :=
  (searched cmp pairs key).map fun
    | .foundAt pos => (pairs[pos]?).map Prod.snd
    | .closestLarger _ => none

/-- A pair is added where it should be. -/
def AddFinds (pairs : List (K × V)) (key : K) : Prop :=
  pairs.length ≤ 1 ∨ ∃ p, pairs[(pairs.length - 1) / 2]? = some p ∧
    (cmp p.1 key = .eq ∨ pairs.length = 2 ∧ cmp p.1 key = .lt ∧
      ∀ q, pairs[1]? = some q → cmp key q.1 = .lt)

/-- A search gives the value, if there is one. -/
def GetFinds (pairs : List (K × V)) (key : K) : Prop :=
  pairs.length ≤ 1 ∨ ∃ p, pairs[(pairs.length - 1) / 2]? = some p ∧
    (cmp p.1 key = .eq ∨ cmp p.1 key = .lt ∧ ∀ q ∈ pairs, cmp q.1 key ≠ .eq)

variable {cmp} {pairs pairs' : List (K × V)} {key : K} {value : V}

theorem searched_of_middle {p : K × V} (hp : pairs[(pairs.length - 1) / 2]? = some p) :
    searched cmp pairs key = searchEnd pairs.length (cmp p.1 key) := by
  rw [searched, hp]

/-- What is asked of adding a pair. -/
structure Added (cmp : K → K → Ordering) (pairs : List (K × V)) (key : K) (value : V)
    (pairs' : List (K × V)) : Prop where
  sorted : Ascending cmp pairs'
  values : ∀ k, lookup cmp pairs' k = if cmp key k = .eq then some value else lookup cmp pairs k
  size : pairs'.length = pairs.length + if (lookup cmp pairs key).isSome then 0 else 1

variable [Std.TransCmp cmp]

theorem added_set (hascending : Ascending cmp pairs) {i : Nat} (hi : i < pairs.length)
    (heq : cmp pairs[i].1 key = .eq) : Added cmp pairs key value (pairs.set i (key, value)) where
  sorted := ascending_set hascending hi heq
  values _ := lookup_set hascending hi heq
  size := by simp [lookup_getElem hascending hi heq]

theorem added_insertIdx {i : Nat} (hi : i ≤ pairs.length)
    (hascending : Ascending cmp (pairs.insertIdx i (key, value)))
    (hnone : lookup cmp pairs key = none) :
    Added cmp pairs key value (pairs.insertIdx i (key, value)) where
  sorted := hascending
  values _ := lookup_insertIdx hnone hi
  size := by simp [hnone, List.length_insertIdx_of_le_length hi]

/-- No key is equal to one that may be put between them. -/
theorem lookup_eq_none_of_ascending {i : Nat} (hi : i ≤ pairs.length)
    (hascending : Ascending cmp (pairs.insertIdx i (key, value))) :
    lookup cmp pairs key = none := by
  induction pairs generalizing i with
  | nil => rfl
  | cons p pairs ih =>
      cases i with
      | zero =>
          rw [lookup_eq_none_iff]
          intro q hq heq
          have hlt : cmp key q.1 = .lt := (List.pairwise_cons.mp hascending).1 q hq
          rw [Std.OrientedCmp.eq_comm, hlt] at heq
          cases heq
      | succ i =>
          have hi' : i ≤ pairs.length := by simpa using hi
          obtain ⟨hhead, hrest⟩ := List.pairwise_cons.mp hascending
          have hlt : cmp p.1 key = .lt :=
            hhead (key, value) ((List.mem_insertIdx hi').mpr (.inl rfl))
          rw [lookup_cons, if_neg (by simp [hlt]), ih hi' hrest]

theorem addPair_of_finds (hascending : Ascending cmp pairs) (h : AddFinds cmp pairs key)
    (value : V) : ∃ pairs', addPair cmp pairs key value = some pairs' ∧ Added cmp pairs key value pairs' := by
  have hinsert : ∀ i ≤ pairs.length, Ascending cmp (pairs.insertIdx i (key, value)) →
      Added cmp pairs key value (pairs.insertIdx i (key, value)) :=
    fun i hi hsorted => added_insertIdx hi hsorted (lookup_eq_none_of_ascending hi hsorted)
  cases hp : pairs[(pairs.length - 1) / 2]? with
  | none =>
      have hnil : pairs = [] := by
        rw [List.getElem?_eq_none_iff] at hp
        exact List.eq_nil_of_length_eq_zero (by omega)
      rw [addPair, searched, hp]
      exact ⟨_, rfl, hinsert 0 (by omega) (by rw [hnil]; exact List.pairwise_singleton _ _)⟩
  | some p =>
      rw [addPair, searched_of_middle hp]
      obtain ⟨hmiddle, hget⟩ := List.getElem?_eq_some_iff.mp hp
      cases horder : cmp p.1 key with
      | eq => exact ⟨_, rfl, added_set hascending hmiddle (by rw [hget]; exact horder)⟩
      | lt =>
          refine ⟨_, rfl, hinsert 1 (by omega) ?_⟩
          rcases h with hone | ⟨p', hp', heq | ⟨htwo, hlt, hnext⟩⟩
          · obtain ⟨q, rfl⟩ := List.length_eq_one_iff.mp (by omega : pairs.length = 1)
            obtain rfl : q = p := by simpa using hp
            exact List.pairwise_pair.mpr horder
          · rw [hp, Option.some.injEq] at hp'
            rw [hp', heq] at horder
            cases horder
          · obtain ⟨q, r, rfl⟩ := List.length_eq_two.mp htwo
            obtain rfl : q = p := by simpa using hp
            have hkey : cmp key r.1 = .lt := hnext r rfl
            have hqr : cmp q.1 r.1 = .lt := by simpa [Ascending] using hascending
            simp [Ascending, horder, hkey, hqr]
      | gt =>
          rcases h with hone | ⟨p', hp', heq | ⟨htwo, hlt, hnext⟩⟩
          · obtain ⟨q, rfl⟩ := List.length_eq_one_iff.mp (by omega : pairs.length = 1)
            obtain rfl : q = p := by simpa using hp
            refine ⟨_, rfl, hinsert 0 (by omega) ?_⟩
            exact List.pairwise_pair.mpr (Std.OrientedCmp.lt_of_gt horder)
          · rw [hp, Option.some.injEq] at hp'
            rw [hp', heq] at horder
            cases horder
          · rw [hp, Option.some.injEq] at hp'
            rw [hp', hlt] at horder
            cases horder

/-- Off these cases a pair is put in a wrong place, if the search ends. -/
theorem not_ascending_of_addPair (hascending : Ascending cmp pairs)
    (h : ¬ AddFinds cmp pairs key) (hadd : addPair cmp pairs key value = some pairs') :
    ¬ Ascending cmp pairs' := by
  rw [AddFinds, not_or, Nat.not_le] at h
  obtain ⟨hmany, hnot⟩ := h
  have hmiddle : (pairs.length - 1) / 2 < pairs.length := by omega
  have hp := List.getElem?_eq_getElem hmiddle
  rw [addPair, searched_of_middle hp] at hadd
  cases horder : cmp pairs[(pairs.length - 1) / 2].1 key with
  | eq => exact absurd ⟨_, hp, .inl horder⟩ hnot
  | gt =>
      rw [horder, searchEnd, if_neg (by omega)] at hadd
      cases hadd
  | lt =>
      obtain rfl : pairs.insertIdx 1 (key, value) = pairs' := by
        rw [horder] at hadd
        exact Option.some.inj hadd
      intro hsorted
      by_cases htwo : pairs.length = 2
      · obtain ⟨q, r, rfl⟩ := List.length_eq_two.mp htwo
        refine hnot ⟨_, hp, .inr ⟨htwo, horder, fun q' hq' => ?_⟩⟩
        obtain rfl : r = q' := by simpa using hq'
        have hlater := (List.pairwise_cons.mp hsorted).2
        exact (List.pairwise_cons.mp hlater).1 r List.mem_cons_self
      · have hafter : (pairs.length - 1) / 2 + 1 < (pairs.insertIdx 1 (key, value)).length := by
          rw [List.length_insertIdx_of_le_length (by omega)]
          omega
        have hlt := hsorted.lt (by omega : 1 < (pairs.length - 1) / 2 + 1) hafter
        rw [List.getElem_insertIdx_self, List.getElem_insertIdx_of_gt (by omega)] at hlt
        simp only [Nat.add_sub_cancel] at hlt
        rw [Std.OrientedCmp.gt_of_lt hlt] at horder
        cases horder

theorem getPair_eq_iff (hascending : Ascending cmp pairs) :
    getPair cmp pairs key = some (lookup cmp pairs key) ↔ GetFinds cmp pairs key := by
  cases hp : pairs[(pairs.length - 1) / 2]? with
  | none =>
      have hnil : pairs = [] := by
        rw [List.getElem?_eq_none_iff] at hp
        exact List.eq_nil_of_length_eq_zero (by omega)
      subst hnil
      exact iff_of_true rfl (.inl (by simp))
  | some p =>
      have hone : ∀ order, order ≠ .eq → cmp p.1 key = order → pairs.length = 1 →
          lookup cmp pairs key = none := by
        intro order hne horder hlength
        obtain ⟨q, rfl⟩ := List.length_eq_one_iff.mp hlength
        obtain rfl : q = p := by simpa using hp
        rw [lookup_cons, if_neg (by rw [horder]; exact hne), lookup_nil]
      obtain ⟨hmiddle, hget⟩ := List.getElem?_eq_some_iff.mp hp
      rw [getPair, searched_of_middle hp, GetFinds, hp]
      simp only [Option.some.injEq, exists_eq_left']
      cases horder : cmp p.1 key with
      | eq =>
          have hlookup := lookup_getElem hascending hmiddle (by rw [hget]; exact horder)
          simp [searchEnd, hlookup, hget, List.getElem?_eq_getElem hmiddle]
      | lt =>
          simp only [searchEnd, Option.map_some, Option.some.injEq, reduceCtorEq, false_or,
            true_and, eq_comm (a := none)]
          rw [← lookup_eq_none_iff]
          exact ⟨.inr, fun h => h.elim
            (fun hlength => hone .lt (by simp) horder (by omega)) id⟩
      | gt =>
          simp only [searchEnd, reduceCtorEq, false_and, or_false]
          by_cases hlength : pairs.length = 1
          · simp [hlength, hone .gt (by simp) horder hlength]
          · simp [hlength]
            omega

end Search

section Keys

variable {keys : Set Term} (h : TotalOrderOn true keys) {pairs : List (keys × Term)}
  {m : FlatMap}

theorem getElem?_termPairs (i : Nat) :
    (termPairs pairs)[i]? = (pairs[i]?).map fun p => (p.1.1, p.2) := by
  simp [termPairs]

theorem ascending_iff :
    Ascending (keyOrder h) pairs ↔
      (termPairs pairs).Pairwise fun p q => Ends true p.1 q.1 .lt := by
  rw [termPairs, List.pairwise_map]
  simp only [ends_iff_keyOrder h]
  rfl

theorem searched_of_nil (hpairs : pairs = []) (key : keys) :
    searched (keyOrder h) pairs key = some (.closestLarger 0) := by
  rw [hpairs]
  rfl

theorem searched_of_pos (hmiddle : (pairs.length - 1) / 2 < pairs.length) (key : keys) :
    searched (keyOrder h) pairs key
      = searchEnd pairs.length (keyOrder h pairs[(pairs.length - 1) / 2].1 key) := by
  rw [searched, List.getElem?_eq_getElem hmiddle]

/-- The loop, with fuel for as many rounds as there are pairs. -/
theorem searchLoop_eq {cmp : Term → Term → Except Fault Ordering} {key : keys}
    (hm : m.pairs = termPairs pairs) (hascending : Ascending (keyOrder h) pairs)
    (hcmp : ∀ p ∈ pairs, cmp p.1.1 key.1 = .ok (keyOrder h p.1 key))
    (hmiddle : (pairs.length - 1) / 2 < pairs.length) {fuel : Nat}
    (hfuel : pairs.length < fuel) :
    m.searchLoop cmp key fuel 0 (pairs.length - 1)
      = (searchEnd pairs.length (keyOrder h pairs[(pairs.length - 1) / 2].1 key)).elim
          (.error .outOfFuel) .ok := by
  have hcount : m.getCount = pairs.length := by simp [FlatMap.getCount, hm, termPairs]
  have hpair : ∀ i (hi : i < pairs.length), m.pairs[i]? = some (pairs[i].1.1, pairs[i].2) := by
    intro i hi
    rw [hm, getElem?_termPairs, List.getElem?_eq_getElem hi, Option.map_some]
  have horders : ∀ i (hi : i < pairs.length) order, keyOrder h pairs[i].1 key = order →
      ∀ p, m.pairs[i]? = some p → cmp p.1 key.1 = .ok order := by
    intro i hi order horder p hp
    rw [hpair i hi, Option.some.injEq] at hp
    rw [← hp, ← horder]
    exact hcmp _ (List.getElem_mem hi)
  obtain ⟨fuel, rfl⟩ := Nat.exists_eq_add_of_le' (Nat.zero_lt_of_lt hfuel)
  rw [Nat.succ_eq_add_one, Nat.zero_add] at hfuel ⊢
  have hmid : 0 + (pairs.length - 1 - 0) / 2 = (pairs.length - 1) / 2 := by omega
  have hfirst : m.pairs[0 + (pairs.length - 1 - 0) / 2]?
      = some (pairs[(pairs.length - 1) / 2].1.1, pairs[(pairs.length - 1) / 2].2) := by
    rw [hmid, hpair _ hmiddle]
  have horder := horders _ hmiddle _ rfl _ (hpair _ hmiddle)
  cases hmiddleOrder : keyOrder h pairs[(pairs.length - 1) / 2].1 key with
  | eq =>
      rw [hmiddleOrder] at horder
      rw [FlatMap.searchLoop_of_eq hfirst horder, hmid]
      rfl
  | lt =>
      rw [hmiddleOrder] at horder
      rw [FlatMap.searchLoop_step_left hfirst horder, hmid]
      split
      next => rfl
      next hmany =>
        apply FlatMap.searchLoop_of_lt (by omega) _ (by omega)
        intro i hi
        refine horders i (by omega) .lt ?_
        rcases Nat.lt_or_eq_of_le hi with hlt | heq
        · exact Std.TransCmp.lt_trans (hascending.lt hlt hmiddle) hmiddleOrder
        · simpa only [heq] using hmiddleOrder
  | gt =>
      rw [hmiddleOrder] at horder
      rw [FlatMap.searchLoop_step_right hfirst horder, hmid]
      split
      next hone =>
        rw [searchEnd, if_pos (by omega)]
        rfl
      next hmany =>
        rw [searchEnd, if_neg (by omega)]
        apply FlatMap.searchLoop_of_gt (by omega) (by omega)
        intro i hi p hp
        have hi' : i < pairs.length := by
          rw [← hcount]
          exact (List.getElem?_eq_some_iff.mp hp).1
        refine horders i hi' .gt ?_ p hp
        rcases Nat.lt_or_eq_of_le hi with hlt | heq
        · have hgt := Std.OrientedCmp.gt_of_lt (hascending.lt hlt hi')
          exact Std.TransCmp.gt_trans hgt hmiddleOrder
        · simpa only [← heq] using hmiddleOrder

/-- A search ends as the pair in the middle says, or never. -/
theorem getFlatmap_comesTo (hm : m.pairs = termPairs pairs)
    (hascending : Ascending (keyOrder h) pairs) (key : keys) :
    ComesTo (fun fuel => m.getFlatmap fuel key) .outOfFuel
      (searched (keyOrder h) pairs key) := by
  have hcount : m.getCount = pairs.length := by simp [FlatMap.getCount, hm, termPairs]
  have hends : ∀ p ∈ pairs, Settles (fun fuel => cmpTerms fuel p.1.1 key.1 true)
      (keyOrder h p.1 key) := fun p _ => ends_keyOrder h p.1 key
  obtain ⟨least, hleast⟩ := exists_least hends
  by_cases hzero : pairs.length = 0
  · rw [searched_of_nil h (List.eq_nil_of_length_eq_zero hzero)]
    exact ⟨0, fun fuel _ => if_pos (hcount.trans hzero)⟩
  · have hmiddle : (pairs.length - 1) / 2 < pairs.length := by omega
    refine ⟨least + pairs.length + 1, fun fuel hfuel => ?_⟩
    have hget : m.getFlatmap fuel key = m.searchLoop
        (fun x y => cmpTerms fuel x y true) key fuel 0 (m.getCount - 1) := if_neg (by omega)
    rw [searched_of_pos h hmiddle]
    simp only [hget, hcount]
    exact searchLoop_eq h hm hascending (hleast fuel (by omega)) hmiddle (by omega)

theorem settled_add (hm : m.pairs = termPairs pairs)
    (hascending : Ascending (keyOrder h) pairs) (hroom : m.getCount < m.capacity)
    (key : keys) (value : Term) :
    settled (fun fuel => m.add fuel key value)
      = (addPair (keyOrder h) pairs key value).map
          fun pairs' => { m with pairs := termPairs pairs' } := by
  rw [addPair, Option.map_map]
  apply ComesTo.settled_eq
  apply (getFlatmap_comesTo h hm hascending key).bind
  rintro (pos | pos) -
  · simp [hm, termPairs, List.map_set]
  · simp [Nat.not_le.mpr hroom, hm, termPairs, List.map_insertIdx]

theorem settled_get (hm : m.pairs = termPairs pairs)
    (hascending : Ascending (keyOrder h) pairs) (key : keys) :
    settled (fun fuel => m.get fuel key) = getPair (keyOrder h) pairs key := by
  rw [getPair]
  apply ComesTo.settled_eq
  apply (getFlatmap_comesTo h hm hascending key).bind
  rintro (pos | pos) -
  · simp [hm, getElem?_termPairs, Function.comp_def]
  · rfl

end Keys

end Zeptobeam
