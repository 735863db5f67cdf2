/-
Counting keys in a map from keys to numbers.  What the map holds of a key is how often the key
was counted, in whatever order its entries are listed; of a list of entries the last one with
the greatest number may be taken, and the keys may be named anew.
-/
import Mathlib.Data.Finmap
import Mathlib.Data.List.AList
import Mathlib.Data.Finset.Image

namespace Tally

universe u v

variable {K : Type u} {L : Type v}

/-- A key and how often it was counted. -/
abbrev Entry (K : Type u) := Sigma fun _ : K => Nat

def add [DecidableEq K] (counts : AList fun _ : K => Nat) (key : K) : AList fun _ : K => Nat :=
  counts.insert key ((counts.lookup key).getD 0 + 1)

def tally [DecidableEq K] (keys : List K) : AList fun _ : K => Nat :=
  keys.foldl add ∅

def later (best next : Entry K) : Entry K :=
  if next.2 < best.2 then best else next

/-- The last of the entries that have the greatest number. -/
def lastMax : List (Entry K) → Option (Entry K)
  | [] => none
  | e :: rest => some (rest.foldl later e)

/-- The entries in a map under other names; of entries with one name the last one stays. -/
def relabel [DecidableEq L] (name : K → L) (entries : List (Entry K)) : Finmap fun _ : L => Nat :=
  entries.foldl (fun named e => named.insert (name e.1) e.2) ∅

/-! ## Counting -/

section Counting

variable [DecidableEq K] {keys : List K}

theorem lookup_foldl_add (keys : List K) (counts : AList fun _ : K => Nat) (key : K) :
    (keys.foldl add counts).lookup key =
      if key ∈ keys then some ((counts.lookup key).getD 0 + keys.count key)
      else counts.lookup key := by
  induction keys generalizing counts with
  | nil => rfl
  | cons first rest ih =>
      rw [List.foldl_cons, ih]
      by_cases hself : key = first
      · subst hself
        rw [add, AList.lookup_insert, if_pos List.mem_cons_self, List.count_cons_self]
        by_cases hrest : key ∈ rest
        · rw [if_pos hrest, Option.getD_some, Nat.add_assoc, Nat.add_comm 1]
        · rw [if_neg hrest, List.count_eq_zero_of_not_mem hrest]
      · rw [add, AList.lookup_insert_ne hself, List.count_cons_of_ne (Ne.symm hself)]
        simp only [List.mem_cons, hself, false_or]

theorem lookup_tally (keys : List K) (key : K) :
    (tally keys).lookup key = if key ∈ keys then some (keys.count key) else none := by
  rw [tally, lookup_foldl_add, AList.lookup_empty, Option.getD_none, Nat.zero_add]

theorem mem_entries_tally {e : Entry K} :
    e ∈ (tally keys).entries ↔ e.1 ∈ keys ∧ e.2 = keys.count e.1 := by
  have hlookup : e ∈ (tally keys).entries ↔ (tally keys).lookup e.1 = some e.2 :=
    AList.mem_lookup_iff.symm
  rw [hlookup, lookup_tally]
  split
  · rename_i hkey
    simp [hkey, eq_comm]
  · rename_i hkey
    simp [hkey]

end Counting

/-! ## The greatest number -/

section Greatest

variable {entries front : List (Entry K)} {best e : Entry K}

theorem lastMax_eq_none_iff : lastMax entries = none ↔ entries = [] := by
  cases entries <;> simp [lastMax]

theorem lastMax_append (h : lastMax front = some best) (e : Entry K) :
    lastMax (front ++ [e]) = some (later best e) := by
  cases front with
  | nil => contradiction
  | cons first rest =>
      cases h
      rw [List.cons_append, lastMax, List.foldl_concat]

/-- It is one of the entries, and none has a greater number. -/
theorem lastMax_spec (h : lastMax entries = some e) :
    e ∈ entries ∧ ∀ other ∈ entries, other.2 ≤ e.2 := by
  induction entries using List.reverseRecOn generalizing e with
  | nil => contradiction
  | append_singleton front last ih =>
      cases hfront : lastMax front with
      | none =>
          rw [lastMax_eq_none_iff.mp hfront] at h ⊢
          obtain rfl : last = e := Option.some.inj h
          exact ⟨List.mem_singleton_self last, fun other hother => by
            rw [List.mem_singleton.mp hother]⟩
      | some best =>
          obtain ⟨hmem, hmax⟩ := ih hfront
          rw [lastMax_append hfront] at h
          cases h
          rw [later]
          split
          · rename_i hless
            refine ⟨List.mem_append_left [last] hmem, fun other hother => ?_⟩
            rcases List.mem_append.mp hother with hold | hlast
            · exact hmax other hold
            · rw [List.mem_singleton.mp hlast]
              exact Nat.le_of_lt hless
          · rename_i hless
            refine ⟨List.mem_append_right _ (List.mem_singleton_self last), fun other hother => ?_⟩
            rcases List.mem_append.mp hother with hold | hlast
            · exact Nat.le_trans (hmax other hold) (Nat.le_of_not_lt hless)
            · rw [List.mem_singleton.mp hlast]

/-- An entry that no other one exceeds is taken when it comes last. -/
theorem lastMax_concat (hmax : ∀ other ∈ front, other.2 ≤ e.2) :
    lastMax (front ++ [e]) = some e := by
  cases hfront : lastMax front with
  | none =>
      rw [lastMax_eq_none_iff.mp hfront]
      rfl
  | some best =>
      have hbest := hmax best (lastMax_spec hfront).1
      rw [lastMax_append hfront, later, if_neg (Nat.not_lt.mpr hbest)]

end Greatest

/-! ## Other names -/

section Names

variable [DecidableEq L] {name : K → L} {entries : List (Entry K)}

theorem mem_relabel {l : L} : l ∈ relabel name entries ↔ ∃ e ∈ entries, name e.1 = l := by
  induction entries using List.reverseRecOn with
  | nil => simp [relabel, Finmap.notMem_empty]
  | append_singleton front e ih =>
      rw [relabel, List.foldl_concat, Finmap.mem_insert, ← relabel, ih]
      simp only [List.mem_append, List.mem_singleton]
      constructor
      · rintro (rfl | ⟨other, hother, rfl⟩)
        · exact ⟨e, .inr rfl, rfl⟩
        · exact ⟨other, .inl hother, rfl⟩
      · rintro ⟨other, hother | rfl, rfl⟩
        · exact .inr ⟨other, hother, rfl⟩
        · exact .inl rfl

/-- Under names that keep the keys apart every entry keeps its number. -/
theorem lookup_relabel (hkeys : (entries.map Sigma.fst).Nodup)
    (hname : Set.InjOn name {k | k ∈ entries.map Sigma.fst}) {e : Entry K} (he : e ∈ entries) :
    (relabel name entries).lookup (name e.1) = some e.2 := by
  induction entries using List.reverseRecOn with
  | nil => contradiction
  | append_singleton front last ih =>
      rw [relabel, List.foldl_concat, ← relabel]
      rw [List.map_append, List.nodup_append] at hkeys
      have hfrontKeys : ∀ {k}, k ∈ front.map Sigma.fst → k ∈ (front ++ [last]).map Sigma.fst := by
        intro k hk
        rw [List.map_append]
        exact List.mem_append_left _ hk
      have hlastKey : last.1 ∈ (front ++ [last]).map Sigma.fst := by simp
      rcases List.mem_append.mp he with hfront | hlast
      · have hkey : e.1 ∈ front.map Sigma.fst := List.mem_map_of_mem hfront
        have hne : name e.1 ≠ name last.1 := by
          intro hsame
          have hself := hname (hfrontKeys hkey) hlastKey hsame
          exact hkeys.2.2 e.1 hkey last.1 (by simp) hself
        rw [Finmap.lookup_insert_of_ne _ hne]
        exact ih hkeys.1 (hname.mono fun k hk => hfrontKeys hk) hfront
      · rw [List.mem_singleton.mp hlast, Finmap.lookup_insert]

end Names

end Tally
