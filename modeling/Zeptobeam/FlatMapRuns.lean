/-
Sequences of calls on one boxed map, whose keys are totally ordered.  The map has the pairs
that were added last, and a search ends with them, exactly as long as every call finds its
key by the pair in the middle.
-/
import Zeptobeam.Lib.GuardedRun
import Zeptobeam.FlatMapOrder

namespace Zeptobeam

open Fuelled OrderedPairs GuardedRun

/-- The value that was added last for an equal key; the pair added last comes first. -/
noncomputable def lastAdded (added : List (Term × Term)) (key : Term) : Option Term :=
  open Classical in (added.find? fun p => Ends true p.1 key .eq).map Prod.snd

/-- How many different keys were added. -/
noncomputable def distinctKeys : List (Term × Term) → Nat
  | [] => 0
  | p :: added => (if (lastAdded added p.1).isSome then 0 else 1) + distinctKeys added

/-- A call of `add` or `get`. -/
inductive MapCall (keys : Set Term) where
  | add (key : keys) (value : Term)
  | get (key : keys)

/-- A map that was made for so many pairs, and what was called on it. -/
structure MapRun where
  numPairs : Nat
  map : FlatMap
  /-- The pairs that were added, the last one first. -/
  added : List (Term × Term)
  /-- What the last call searched, and what it found. -/
  found : Option (Term × Option Term)
  /-- A call does not return. -/
  stuck : Bool

namespace MapRun

def start (boxHeader numPairs : Nat) : MapRun where
  numPairs := numPairs
  map := .new boxHeader numPairs
  added := []
  found := none
  stuck := false

noncomputable def step {keys : Set Term} (s : MapRun) : MapCall keys → MapRun
  | .add key value =>
      let s := { s with added := (key.1, value) :: s.added, found := none }
      match settled (fun fuel => s.map.add fuel key value) with
      | some map => { s with map }
      | none => { s with stuck := true }
  | .get key =>
      match settled (fun fuel => s.map.get fuel key) with
      | some value => { s with found := some (key, value) }
      | none => { s with stuck := true }

/-- The state of a map that has worked so far. -/
structure Works (s : MapRun) : Prop where
  returned : s.stuck = false
  ascending : s.map.pairs.Pairwise fun p q => Ends true p.1 q.1 .lt
  count : s.map.getCount = distinctKeys s.added
  found : ∀ key value, s.found = some (key, value) → value = lastAdded s.added key

/-- The pairs that have been added after a call. -/
def recorded {keys : Set Term} (s : MapRun) : MapCall keys → List (Term × Term)
  | .add key value => (key.1, value) :: s.added
  | .get _ => s.added

/-- The key that is added is that of the pair in the middle, or the map has one pair at
most, or the key goes between two. -/
def AddsWell (m : FlatMap) (key : Term) : Prop :=
  m.getCount ≤ 1 ∨ ∃ p, m.pairs[(m.getCount - 1) / 2]? = some p ∧
    (Ends true p.1 key .eq ∨ m.getCount = 2 ∧ Ends true p.1 key .lt ∧
      ∀ q, m.pairs[1]? = some q → Ends true key q.1 .lt)

/-- The key that is searched is that of the pair in the middle, or a greater one that is
not in the map, or the map has one pair at most. -/
def GetsWell (m : FlatMap) (key : Term) : Prop :=
  m.getCount ≤ 1 ∨ ∃ p, m.pairs[(m.getCount - 1) / 2]? = some p ∧
    (Ends true p.1 key .eq ∨
      Ends true p.1 key .lt ∧ ∀ q ∈ m.pairs, ¬ Ends true q.1 key .eq)

def CallsWell {keys : Set Term} (s : MapRun) : MapCall keys → Prop
  | .add key _ => AddsWell s.map key
  | .get key => GetsWell s.map key

end MapRun

section Bridge

variable {keys : Set Term} (h : TotalOrderOn true keys)

theorem lastAdded_termPairs (added : List (keys × Term)) (key : keys) :
    lastAdded (termPairs added) key = lookup (keyOrder h) added key := by
  induction added with
  | nil => rfl
  | cons p added ih =>
      rw [lookup_cons, ← ih]
      simp only [lastAdded, termPairs, List.map_cons, List.find?_cons, ends_iff_keyOrder h]
      by_cases heq : keyOrder h p.1 key = .eq <;> simp [heq]

theorem distinctKeys_termPairs (added : List (keys × Term)) :
    distinctKeys (termPairs added) = distinct (keyOrder h) added := by
  induction added with
  | nil => rfl
  | cons p added ih =>
      have hp : termPairs (p :: added) = (p.1.1, p.2) :: termPairs added := rfl
      rw [hp, distinctKeys, distinct, lastAdded_termPairs h, ih]

variable {m : FlatMap} {pairs : List (keys × Term)}

theorem exists_map_eq_some {A B : Type} {f : A → B} {x : Option A} {Q : B → Prop} :
    (∃ b, x.map f = some b ∧ Q b) ↔ ∃ a, x = some a ∧ Q (f a) := by
  cases x <;> simp

theorem forall_map_eq_some {A B : Type} {f : A → B} {x : Option A} {Q : B → Prop} :
    (∀ b, x.map f = some b → Q b) ↔ ∀ a, x = some a → Q (f a) := by
  cases x <;> simp

theorem addsWell_iff (hm : m.pairs = termPairs pairs) (key : keys) :
    MapRun.AddsWell m key ↔ AddFinds (keyOrder h) pairs key := by
  have hcount : m.getCount = pairs.length := by simp [FlatMap.getCount, hm, termPairs]
  simp only [MapRun.AddsWell, AddFinds, hcount, hm, getElem?_termPairs, exists_map_eq_some,
    forall_map_eq_some, ends_iff_keyOrder h]

theorem getsWell_iff (hm : m.pairs = termPairs pairs) (key : keys) :
    MapRun.GetsWell m key ↔ GetFinds (keyOrder h) pairs key := by
  have hcount : m.getCount = pairs.length := by simp [FlatMap.getCount, hm, termPairs]
  have hall : (∀ q ∈ m.pairs, ¬ Ends true q.1 key .eq) ↔
      ∀ q ∈ pairs, keyOrder h q.1 key ≠ .eq := by
    simp only [hm, termPairs, List.forall_mem_map, ends_iff_keyOrder h, ne_eq]
  simp only [MapRun.GetsWell, GetFinds, hall]
  simp only [hcount, hm, getElem?_termPairs, exists_map_eq_some, ends_iff_keyOrder h]

end Bridge

namespace MapRun

variable {keys : Set Term} (h : TotalOrderOn true keys)

/-- The map has pairs that stand for those that were added. -/
structure Holds (s : MapRun) (pairs history : List (keys × Term)) : Prop where
  map : s.map.pairs = termPairs pairs
  added : s.added = termPairs history
  capacity : 2 * s.numPairs ≤ s.map.capacity
  returned : s.stuck = false
  ascending : Ascending (keyOrder h) pairs
  values : ∀ key, lookup (keyOrder h) pairs key = lookup (keyOrder h) history key
  count : pairs.length = distinct (keyOrder h) history
  found : ∀ key value, s.found = some (key, value) → value = lastAdded s.added key

/-- The invariant, as long as there is room for the different keys. -/
def Inv (s : MapRun) : Prop :=
  (∃ history : List (keys × Term), s.added = termPairs history) ∧
    (distinctKeys s.added ≤ s.numPairs → ∃ pairs history, Holds h s pairs history)

def WorksWithin (s : MapRun) : Prop :=
  distinctKeys s.added ≤ s.numPairs → Works s

/-- The call finds its key, if there is room for it. -/
def CallsWellWithin (s : MapRun) (call : MapCall keys) : Prop :=
  distinctKeys (s.recorded call) ≤ s.numPairs → CallsWell s call

variable {h} {s : MapRun} {pairs history : List (keys × Term)}

@[simp]
theorem added_step (s : MapRun) (call : MapCall keys) :
    (s.step call).added = s.recorded call := by
  cases call <;> unfold step <;> dsimp only <;> split <;> rfl

@[simp]
theorem numPairs_step (s : MapRun) (call : MapCall keys) :
    (s.step call).numPairs = s.numPairs := by
  cases call <;> unfold step <;> dsimp only <;> split <;> rfl

theorem Holds.works (hs : Holds h s pairs history) : Works s where
  returned := hs.returned
  ascending := by
    rw [hs.map]
    exact (ascending_iff h).mp hs.ascending
  count := by
    rw [FlatMap.getCount, hs.map, hs.added, distinctKeys_termPairs h, ← hs.count]
    simp [termPairs]
  found := hs.found

theorem Holds.room (hs : Holds h s pairs history) {p : keys × Term}
    (hwithin : distinct (keyOrder h) (p :: history) ≤ s.numPairs) :
    s.map.getCount < s.map.capacity := by
  have hpos : 0 < distinct (keyOrder h) (p :: history) := distinct_pos (by simp)
  have hle : distinct (keyOrder h) history ≤ distinct (keyOrder h) (p :: history) :=
    distinct_le_cons
  have hcapacity := hs.capacity
  have hcount : s.map.getCount = distinct (keyOrder h) history := by
    rw [← hs.count, FlatMap.getCount, hs.map]
    simp [termPairs]
  omega

theorem Holds.step_add (hs : Holds h s pairs history) {key : keys} {value : Term}
    (hwithin : distinct (keyOrder h) ((key, value) :: history) ≤ s.numPairs)
    (hfinds : AddFinds (keyOrder h) pairs key) :
    ∃ pairs', Holds h (s.step (.add key value)) pairs' ((key, value) :: history) := by
  obtain ⟨pairs', hadd, hadded⟩ := addPair_of_finds hs.ascending hfinds value
  have hsettled := settled_add h hs.map hs.ascending (hs.room hwithin) key value
  rw [hadd, Option.map_some] at hsettled
  refine ⟨pairs', ?_⟩
  have hstep : s.step (.add key value) = { s with
      map := { s.map with pairs := termPairs pairs' }
      added := (key.1, value) :: s.added
      found := none } := by
    simp only [step, hsettled]
  rw [hstep]
  refine ⟨rfl, ?_, hs.capacity, hs.returned, hadded.sorted, ?_, ?_, ?_⟩
  · simp [hs.added, termPairs]
  · intro k
    rw [hadded.values, lookup_cons, hs.values]
  · rw [hadded.size, hs.count, hs.values, distinct, Nat.add_comm]
  · intro key value hfound
    cases hfound

theorem Holds.step_add_off (hs : Holds h s pairs history) {key : keys} {value : Term}
    (hwithin : distinct (keyOrder h) ((key, value) :: history) ≤ s.numPairs)
    (hmiss : ¬ AddFinds (keyOrder h) pairs key) : ¬ Works (s.step (.add key value)) := by
  have hsettled := settled_add h hs.map hs.ascending (hs.room hwithin) key value
  cases hadd : addPair (keyOrder h) pairs key value with
  | none =>
      rw [hadd, Option.map_none] at hsettled
      intro hworks
      have hreturned := hworks.returned
      simp [step, hsettled] at hreturned
  | some pairs' =>
      rw [hadd, Option.map_some] at hsettled
      intro hworks
      apply not_ascending_of_addPair hs.ascending hmiss hadd
      have hascending := hworks.ascending
      simp only [step, hsettled] at hascending
      exact (ascending_iff h).mpr hascending

theorem Holds.step_get (hs : Holds h s pairs history) {key : keys}
    (hfinds : GetFinds (keyOrder h) pairs key) :
    Holds h (s.step (.get key)) pairs history := by
  have hsettled := settled_get h hs.map hs.ascending key
  rw [(getPair_eq_iff hs.ascending).mpr hfinds] at hsettled
  have hstep : s.step (.get key) = { s with
      found := some (key.1, lookup (keyOrder h) pairs key) } := by
    simp only [step, hsettled]
  rw [hstep]
  refine ⟨hs.map, hs.added, hs.capacity, hs.returned, hs.ascending, hs.values, hs.count, ?_⟩
  intro key' value hfound
  cases hfound
  rw [hs.values, hs.added, lastAdded_termPairs h]

theorem Holds.step_get_off (hs : Holds h s pairs history) {key : keys}
    (hmiss : ¬ GetFinds (keyOrder h) pairs key) : ¬ Works (s.step (.get key)) := by
  have hsettled := settled_get h hs.map hs.ascending key
  intro hworks
  cases hget : getPair (keyOrder h) pairs key with
  | none =>
      rw [hget] at hsettled
      have hreturned := hworks.returned
      simp [step, hsettled] at hreturned
  | some value =>
      rw [hget] at hsettled
      have hfound := hworks.found key.1 value (by simp only [step, hsettled])
      rw [added_step, recorded, hs.added, lastAdded_termPairs h, ← hs.values] at hfound
      rw [hfound] at hget
      exact hmiss ((getPair_eq_iff hs.ascending).mp hget)

/-- Whether a call finds its key, by the pairs that the map holds. -/
theorem Holds.step (hs : Holds h s pairs history) {call : MapCall keys}
    (hwithin : distinctKeys (s.recorded call) ≤ s.numPairs) :
    (CallsWell s call → ∃ pairs' history', Holds h (s.step call) pairs' history') ∧
      (¬ CallsWell s call → ¬ Works (s.step call)) := by
  cases call with
  | add key value =>
      have hrecorded : s.recorded (.add key value) = termPairs ((key, value) :: history) := by
        simp [recorded, hs.added, termPairs]
      rw [hrecorded, distinctKeys_termPairs h] at hwithin
      rw [CallsWell, addsWell_iff h hs.map]
      constructor
      · intro hfinds
        obtain ⟨pairs', hstep⟩ := hs.step_add hwithin hfinds
        exact ⟨_, _, hstep⟩
      · exact hs.step_add_off hwithin
  | get key =>
      rw [CallsWell, getsWell_iff h hs.map]
      exact ⟨fun hfinds => ⟨_, _, hs.step_get hfinds⟩, hs.step_get_off⟩

theorem distinctKeys_le_recorded (s : MapRun) (call : MapCall keys) :
    distinctKeys s.added ≤ distinctKeys (s.recorded call) := by
  cases call with
  | add key value => exact Nat.le_add_left _ _
  | get key => exact Nat.le_refl _

theorem inv_step (hs : Inv h s) (call : MapCall keys) (hguard : CallsWellWithin s call) :
    Inv h (s.step call) := by
  obtain ⟨⟨history, hadded⟩, hholds⟩ := hs
  refine ⟨?_, fun hwithin => ?_⟩
  · rw [added_step]
    cases call with
    | add key value => exact ⟨(key, value) :: history, by simp [recorded, hadded, termPairs]⟩
    | get key => exact ⟨history, hadded⟩
  · rw [added_step, numPairs_step] at hwithin
    obtain ⟨pairs, history, hs⟩ := hholds (Nat.le_trans (distinctKeys_le_recorded s call) hwithin)
    exact (hs.step hwithin).1 (hguard hwithin)

/-- A map works along a sequence of calls, as long as it has room for their keys, exactly if
every call finds its key by the pair in the middle. -/
theorem worksWithin_iff (h : TotalOrderOn true keys) (boxHeader numPairs : Nat)
    (calls : List (MapCall keys)) :
    Throughout step WorksWithin (start boxHeader numPairs) calls ↔
      Guarded step CallsWellWithin (start boxHeader numPairs) calls := by
  have hstart : Inv h (start boxHeader numPairs) := by
    refine ⟨⟨[], rfl⟩, fun _ => ⟨[], [], rfl, rfl, Nat.le_add_right _ _, rfl,
      List.Pairwise.nil, fun _ => rfl, rfl, ?_⟩⟩
    intro key value hfound
    cases hfound
  refine throughout_iff_guarded _ _ hstart (fun s call hs hguard => inv_step hs call hguard)
    ?_ ?_ calls
  · intro s hs hwithin
    obtain ⟨pairs, history, hholds⟩ := hs.2 hwithin
    exact hholds.works
  · intro s call hs hmiss hworks
    rw [CallsWellWithin, Classical.not_imp] at hmiss
    obtain ⟨pairs, history, hholds⟩ :=
      hs.2 (Nat.le_trans (distinctKeys_le_recorded s call) hmiss.1)
    apply (hholds.step hmiss.1).2 hmiss.2
    apply hworks
    rw [added_step, numPairs_step]
    exact hmiss.1

/-! ## Small integers -/

theorem ends_small (x y : Int) : Ends true (.small x) (.small y) (compare x y) := by
  refine ⟨2, fun fuel hfuel => ?_⟩
  obtain ⟨fuel, rfl⟩ := Nat.exists_eq_add_of_le' hfuel
  by_cases hxy : x = y
  · rw [hxy, Std.compare_self, cmpTerms, if_pos rfl]
  · have hraw : (Term.small x).raw ≠ (Term.small y).raw := by simpa [Term.raw] using hxy
    rw [cmpTerms, if_neg hraw, cmpTerms1_succ]
    have hround : cmpTermsAnyType (nested fuel) (.small x) (.small y) true
        = .ok (.concluded (compare x y)) := rfl
    rw [hround]
    cases compare x y <;> rfl

def smallKeys : Set Term :=
  {t | ∃ value, t = .small value}

theorem totalOrderOn_smallKeys : TotalOrderOn true smallKeys where
  reversed := by
    rintro a ⟨x, rfl⟩ b ⟨y, rfl⟩
    refine ⟨_, ends_small x y, ?_⟩
    rw [← Std.OrientedCmp.eq_swap]
    exact ends_small y x
  trans := by
    have hle : ∀ x y, LessEq true (.small x) (.small y) ↔ (compare x y).isLE := by
      intro x y
      constructor
      · rintro ⟨order, hends, horder⟩
        rwa [Settles.unique (ends_small x y) hends]
      · exact fun horder => ⟨_, ends_small x y, horder⟩
    rintro a ⟨x, rfl⟩ b ⟨y, rfl⟩ c ⟨z, rfl⟩ hab hbc
    rw [hle] at hab hbc ⊢
    exact Std.TransCmp.isLE_trans hab hbc

def smallKey (value : Int) : smallKeys :=
  ⟨.small value, value, rfl⟩

theorem worksWithin_one_key :
    Throughout step WorksWithin (start 2 1) [.add (smallKey 1) .nil] := by
  apply (worksWithin_iff totalOrderOn_smallKeys 2 1 _).mpr
  exact Guarded.cons (fun _ => .inl (Nat.zero_le 1)) Guarded.nil

/-- The second of two keys is not found. -/
theorem second_key_not_found :
    ¬ Throughout step WorksWithin (start 2 2)
      [.add (smallKey 1) .nil, .add (smallKey 2) .nil, .get (smallKey 2)] := by
  have hone : settled (fun fuel => (FlatMap.new 2 2).add fuel (.small 1) .nil)
      = some ⟨6, [(.small 1, .nil)]⟩ :=
    settled_eq_some_iff.mpr ⟨0, fun _ _ => rfl⟩
  have htwo : settled (fun fuel => FlatMap.add fuel ⟨6, [(.small 1, .nil)]⟩ (.small 2) .nil)
      = some ⟨6, [(.small 1, .nil), (.small 2, .nil)]⟩ := by
    refine settled_eq_some_iff.mpr ⟨2, fun fuel hfuel => ?_⟩
    obtain ⟨fuel, rfl⟩ := Nat.exists_eq_add_of_le' hfuel
    exact rfl
  have hget : settled (fun fuel =>
      FlatMap.get fuel ⟨6, [(.small 1, .nil), (.small 2, .nil)]⟩ (.small 2)) = some none := by
    refine settled_eq_some_iff.mpr ⟨2, fun fuel hfuel => ?_⟩
    obtain ⟨fuel, rfl⟩ := Nat.exists_eq_add_of_le' hfuel
    exact rfl
  have hend : [MapCall.add (smallKey 1) .nil, .add (smallKey 2) .nil,
      .get (smallKey 2)].foldl step (start 2 2)
        = ⟨2, ⟨6, [(.small 1, .nil), (.small 2, .nil)]⟩, [(.small 2, .nil), (.small 1, .nil)],
            some (.small 2, none), false⟩ := by
    simp only [List.foldl_cons, List.foldl_nil, start, step, smallKey, hone, htwo, hget]
  intro hworks
  have hlast := hworks _ List.prefix_rfl
  rw [hend] at hlast
  have hequal : ∀ x : Int, Ends true (.small x) (.small 2) .eq ↔ x = 2 := by
    intro x
    constructor
    · exact fun hends => Std.LawfulEqOrd.eq_of_compare
        (Settles.unique (ends_small x 2) hends)
    · rintro rfl
      have hends := ends_small 2 2
      rwa [Std.compare_self] at hends
  have hdistinct : distinctKeys [(.small 2, .nil), (.small 1, .nil)] ≤ 2 := by
    unfold distinctKeys distinctKeys distinctKeys
    split <;> split <;> omega
  have hfound := (hlast hdistinct).found (.small 2) none rfl
  simp [lastAdded, hequal] at hfound

end MapRun

end Zeptobeam
