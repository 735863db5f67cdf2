/-
A map kept as a snapshot and a log of puts and deletes that is replayed over it.
The last record of a key decides its value, so a log changes nothing on top of a
map that already has its effects.  Association lists stand for the maps.
-/
import Mathlib.Data.List.AList
import Mathlib.Logic.Function.Basic

namespace ReplayLog

universe u v

variable {K : Type u} {V : Type v} [DecidableEq K]

inductive Record (K : Type u) (V : Type v) where
  | put (key : K) (value : V)
  | delete (key : K)

def Record.key : Record K V → K
  | .put key _ => key
  | .delete key => key

/-- What the record makes of its key. -/
def Record.value? : Record K V → Option V
  | .put _ value => some value
  | .delete _ => none

def Record.apply (m : K → Option V) (record : Record K V) : K → Option V :=
  Function.update m record.key record.value?

def replay (m : K → Option V) (log : List (Record K V)) : K → Option V :=
  log.foldl Record.apply m

/-- A key without a record keeps its value. -/
theorem replay_other {log : List (Record K V)} {k : K} (hk : ∀ record ∈ log, record.key ≠ k)
    (m : K → Option V) : replay m log k = m k := by
  induction log generalizing m with
  | nil => rfl
  | cons record log ih =>
      have hhead := hk record List.mem_cons_self
      have htail := ih fun other hother => hk other (List.mem_cons_of_mem record hother)
      calc
        replay m (record :: log) k = replay (record.apply m) log k := rfl
        _ = record.apply m k := htail _
        _ = m k := Function.update_of_ne (Ne.symm hhead) _ _

/-- A key with a record has the value of its last one, whatever it had before. -/
theorem replay_congr {log : List (Record K V)} {k : K} {m m' : K → Option V}
    (h : (∃ record ∈ log, record.key = k) ∨ m k = m' k) :
    replay m log k = replay m' log k := by
  induction log generalizing m m' with
  | nil =>
      rcases h with ⟨record, hmem, _⟩ | heq
      · exact absurd hmem List.not_mem_nil
      · exact heq
  | cons record log ih =>
      refine @ih (record.apply m) (record.apply m') ?_
      by_cases hhead : record.key = k
      · right
        rw [← hhead, Record.apply, Record.apply, Function.update_self, Function.update_self]
      · rcases h with ⟨other, hmem, hother⟩ | heq
        · rcases List.mem_cons.mp hmem with rfl | htail
          · exact absurd hother hhead
          · exact Or.inl ⟨other, htail, hother⟩
        · right
          rw [Record.apply, Record.apply, Function.update_of_ne (Ne.symm hhead),
            Function.update_of_ne (Ne.symm hhead), heq]

/-- A log changes nothing on top of its own result. -/
theorem replay_replay (m : K → Option V) (log : List (Record K V)) :
    replay (replay m log) log = replay m log := by
  funext k
  by_cases hk : ∃ record ∈ log, record.key = k
  · exact replay_congr (Or.inl hk)
  · apply replay_other
    intro record hrecord hkey
    exact hk ⟨record, hrecord, hkey⟩

/-! ## Association lists -/

def applyTo (m : AList fun _ : K => V) : Record K V → AList fun _ : K => V
  | .put key value => m.insert key value
  | .delete key => m.erase key

theorem lookup_applyTo (m : AList fun _ : K => V) (record : Record K V) (k : K) :
    (applyTo m record).lookup k = record.apply (fun k => m.lookup k) k := by
  by_cases hk : k = record.key
  · cases record with
    | put key value =>
        obtain rfl : k = key := hk
        simp [applyTo, Record.apply, Record.key, Record.value?]
    | delete key =>
        obtain rfl : k = key := hk
        simp [applyTo, Record.apply, Record.key, Record.value?]
  · rw [Record.apply, Function.update_of_ne hk]
    cases record with
    | put key value => exact AList.lookup_insert_ne hk
    | delete key => exact AList.lookup_erase_ne hk

/-- Replaying on association lists is replaying on the maps they stand for. -/
theorem lookup_foldl_applyTo (log : List (Record K V)) (m : AList fun _ : K => V) :
    (fun k => (log.foldl applyTo m).lookup k) = replay (fun k => m.lookup k) log := by
  induction log generalizing m with
  | nil => rfl
  | cons record log ih =>
      have hhead : (fun k => (applyTo m record).lookup k) =
          record.apply fun k => m.lookup k := funext (lookup_applyTo m record)
      calc
        (fun k => ((record :: log).foldl applyTo m).lookup k) =
            replay (fun k => (applyTo m record).lookup k) log := ih _
        _ = replay (record.apply fun k => m.lookup k) log := by rw [hhead]

theorem lookup_foldl_erase (keys : List K) (m : AList fun _ : K => V) (k : K) :
    (keys.foldl (fun m key => m.erase key) m).lookup k =
      if k ∈ keys then none else m.lookup k := by
  induction keys generalizing m with
  | nil => simp
  | cons key rest ih =>
      rw [List.foldl_cons, ih]
      by_cases hrest : k ∈ rest
      · rw [if_pos hrest, if_pos (List.mem_cons_of_mem key hrest)]
      · rw [if_neg hrest]
        by_cases hk : k = key
        · rw [hk, AList.lookup_erase, if_pos List.mem_cons_self]
        · rw [AList.lookup_erase_ne hk,
            if_neg (List.not_mem_cons_of_ne_of_not_mem hk hrest)]

/-- The map of a list of entries, each inserted in turn. -/
def load (entries : List (Sigma fun _ : K => V)) : AList fun _ : K => V :=
  entries.foldl (fun m entry => m.insert entry.1 entry.2) ∅

theorem lookup_foldl_insert {entries : List (Sigma fun _ : K => V)}
    (hkeys : entries.NodupKeys) (m : AList fun _ : K => V) (k : K) :
    (entries.foldl (fun m entry => m.insert entry.1 entry.2) m).lookup k =
      (entries.dlookup k).or (m.lookup k) := by
  induction entries generalizing m with
  | nil => rfl
  | cons entry entries ih =>
      obtain ⟨key, value⟩ := entry
      obtain ⟨hkey, htail⟩ := List.nodupKeys_cons.mp hkeys
      rw [List.foldl_cons, ih htail]
      by_cases hk : k = key
      · subst hk
        have hnone : entries.dlookup k = none := List.dlookup_eq_none.mpr hkey
        rw [hnone, Option.none_or, AList.lookup_insert, List.dlookup_cons_eq]
        rfl
      · rw [AList.lookup_insert_ne hk, List.dlookup_cons_ne _ _ hk]

/-- Walking a map in any order and loading the entries gives the map back. -/
theorem lookup_load_of_perm {entries : List (Sigma fun _ : K => V)}
    {m : AList fun _ : K => V} (hperm : entries.Perm m.entries) (k : K) :
    (load entries).lookup k = m.lookup k := by
  have hkeys : entries.NodupKeys := (List.perm_nodupKeys hperm).mpr m.nodupKeys
  rw [load, lookup_foldl_insert hkeys, List.perm_dlookup k hkeys hperm,
    AList.lookup_empty, Option.or_none]
  rfl

end ReplayLog
