/-
`get_map_elements`: the values under a list of keys are stored into registers.  A first pass
finds out whether all keys are there; the second loads each key again, after the stores before
it, and so comes to what the stores at once would only where these do not change what it reads.
-/
import Zeptobeam.TermFuel
import Zeptobeam.TermRegisters

namespace Zeptobeam

open MovesInTurn StateExcept Fuelled

/-- The term that the keys are looked up in; the empty map is an immediate value. -/
inductive MapSource where
  | notMap
  | emptyMap
  | flat (m : FlatMap)

/-- A key source with the register for the value. -/
abbrev KeyDst := Move Reg Term

namespace TermProcess

def jump (s : TermProcess) (label : Nat) : TermProcess :=
  { s with ip := label }

/-- `Map::get` of a loaded key; the fuel bounds the search. -/
def mapGet (fuel : Nat) (m : FlatMap) (key : Term) : Except OpStop (Option Term) :=
  (m.get fuel key).mapError .panic

/-- First pass: check all keys exist. -/
def checkKeys (fuel : Nat) (m : FlatMap) (s : TermProcess) : List KeyDst → Except OpStop Bool
  | [] => .ok true
  | p :: pairs => do
      let key ← s.load p.src
      match ← mapGet fuel m key with
      | none => return false
      | some _ => checkKeys fuel m s pairs

/-- Second pass: store values into destination registers. -/
def storeValues (fuel : Nat) (m : FlatMap) : TermProcess → List KeyDst → Except OpStop TermProcess
  | s, [] => .ok s
  | s, p :: pairs => do
      let key ← s.load p.src
      match ← mapGet fuel m key with
      | none => throw (.panic .unwrap)
      | some val =>
          let s ← s.storeValue val p.dst
          storeValues fuel m s pairs

def getMapElements (fuel fail : Nat) (src : MapSource) (pairs : List KeyDst) (s : TermProcess) :
    Except OpStop TermProcess :=
  match src with
  | .notMap => .ok (s.jump fail)
  | .emptyMap => .ok (s.jump fail)
  | .flat m => do
      -- an extended list of no elements is no pointer to a tuple
      if pairs = [] then throw .invalidDereference
      if ← checkKeys fuel m s pairs then storeValues fuel m s pairs else return s.jump fail

end TermProcess

open TermProcess

/-! ## The passes -/

/-- The source is loaded, and its key is in the map. -/
def KeyFound (m : FlatMap) (s : TermProcess) (p : KeyDst) : Prop :=
  ∃ key val, s.load p.src = .ok key ∧ Settles (fun fuel => m.get fuel key) (some val)

def KeyMissing (m : FlatMap) (s : TermProcess) (p : KeyDst) : Prop :=
  ∃ key, s.load p.src = .ok key ∧ Settles (fun fuel => m.get fuel key) none

/-- The first key that is not found is missing. -/
def SomeMissing (m : FlatMap) (s : TermProcess) (pairs : List KeyDst) : Prop :=
  ∃ earlier p later, pairs = earlier ++ p :: later ∧ (∀ q ∈ earlier, KeyFound m s q) ∧
    KeyMissing m s p

section Passes

variable {m : FlatMap} {s s' : TermProcess} {p : KeyDst} {pairs : List KeyDst} {key : Term}

theorem get_keeps (m : FlatMap) (key : Term) : Keeps fun fuel => m.get fuel key := by
  intro fuel r h
  obtain ⟨result, hresult, h⟩ := except_bind_eq_ok_iff.mp h
  exact except_bind_eq_ok_iff.mpr ⟨result, getFlatmap_keeps m key fuel result hresult, h⟩

theorem mapGet_eq_ok_iff {fuel : Nat} {found : Option Term} :
    mapGet fuel m key = .ok found ↔ m.get fuel key = .ok found :=
  mapError_eq_ok_iff

theorem mapGet_keeps (m : FlatMap) (key : Term) : Keeps fun fuel => mapGet fuel m key := by
  intro fuel found h
  exact mapGet_eq_ok_iff.mpr (get_keeps m key fuel found (mapGet_eq_ok_iff.mp h))

theorem settles_mapGet_iff {found : Option Term} :
    Settles (fun fuel => mapGet fuel m key) found ↔ Settles (fun fuel => m.get fuel key) found := by
  simp only [Settles, mapGet_eq_ok_iff]

theorem not_keyMissing_of_keyFound (h : KeyFound m s p) : ¬ KeyMissing m s p := by
  rintro ⟨key, hkey, hnone⟩
  obtain ⟨key', val, hkey', hval⟩ := h
  cases hkey.symm.trans hkey'
  cases hnone.unique hval

theorem settles_checkKeys_cons_iff {all : Bool} :
    Settles (fun fuel => checkKeys fuel m s (p :: pairs)) all ↔
      (KeyFound m s p ∧ Settles (fun fuel => checkKeys fuel m s pairs) all) ∨
        (KeyMissing m s p ∧ all = false) := by
  simp only [checkKeys]
  rw [settles_const_bind_iff]
  constructor
  · rintro ⟨key, hkey, h⟩
    obtain ⟨found, hfound, hrest⟩ := (mapGet_keeps m key).settles_bind_iff.mp h
    rw [settles_mapGet_iff] at hfound
    cases found with
    | none =>
        obtain ⟨least, hleast⟩ := hrest
        exact .inr ⟨⟨key, hkey, hfound⟩, (Except.ok.inj (hleast least (Nat.le_refl least))).symm⟩
    | some val => exact .inl ⟨⟨key, val, hkey, hfound⟩, hrest⟩
  · rintro (⟨⟨key, val, hkey, hfound⟩, hrest⟩ | ⟨⟨key, hkey, hnone⟩, rfl⟩)
    · exact ⟨key, hkey, (mapGet_keeps m key).settles_bind_iff.mpr
        ⟨some val, settles_mapGet_iff.mpr hfound, hrest⟩⟩
    · exact ⟨key, hkey, (mapGet_keeps m key).settles_bind_iff.mpr
        ⟨none, settles_mapGet_iff.mpr hnone, 0, fun _ _ => rfl⟩⟩

theorem settles_checkKeys_true_iff :
    Settles (fun fuel => checkKeys fuel m s pairs) true ↔ ∀ p ∈ pairs, KeyFound m s p := by
  induction pairs with
  | nil => exact iff_of_true ⟨0, fun _ _ => rfl⟩ (fun p hp => absurd hp List.not_mem_nil)
  | cons p pairs ih =>
      rw [settles_checkKeys_cons_iff, ih, List.forall_mem_cons]
      simp

theorem settles_checkKeys_false_iff :
    Settles (fun fuel => checkKeys fuel m s pairs) false ↔ SomeMissing m s pairs := by
  induction pairs with
  | nil =>
      refine iff_of_false (fun ⟨least, h⟩ => ?_) ?_
      · cases h least (Nat.le_refl least)
      · rintro ⟨earlier, p, later, hsplit, -⟩
        simp at hsplit
  | cons p pairs ih =>
      rw [settles_checkKeys_cons_iff, ih]
      constructor
      · rintro (⟨hfound, earlier, q, later, rfl, hearlier, hmissing⟩ | ⟨hmissing, -⟩)
        · exact ⟨p :: earlier, q, later, rfl, List.forall_mem_cons.mpr ⟨hfound, hearlier⟩,
            hmissing⟩
        · exact ⟨[], p, pairs, rfl, fun q hq => absurd hq List.not_mem_nil, hmissing⟩
      · rintro ⟨earlier, q, later, hsplit, hearlier, hmissing⟩
        cases earlier with
        | nil =>
            obtain ⟨rfl, rfl⟩ := List.cons.inj hsplit
            exact .inr ⟨hmissing, rfl⟩
        | cons p' earlier =>
            obtain ⟨rfl, rfl⟩ := List.cons.inj hsplit
            obtain ⟨hfound, hearlier⟩ := List.forall_mem_cons.mp hearlier
            exact .inl ⟨hfound, earlier, q, later, rfl, hearlier, hmissing⟩

end Passes

/-! ## The stores as moves -/

/-- The registers as places: a key is read from them, looked up in the map, and the value is
held by a register. -/
noncomputable def mapMoves (m : FlatMap) (heap : Emulator.ProcessHeap) :
    Rules Reg Contents Term where
  read r contents := (readReg (stackDepth heap) r contents).toOption
  fetch key := (settled fun fuel => m.get fuel key).join
  hold r t := (holdReg (stackDepth heap) r t).toOption

section Moves

variable {m : FlatMap} {s s' : TermProcess} {p : KeyDst} {pairs : List KeyDst}

theorem toOption_eq_some_iff {A : Type} {x : Except OpStop A} {a : A} :
    x.toOption = some a ↔ x = .ok a := by
  cases x <;> simp [Except.toOption]

theorem moved_eq_some_iff {contents : Contents} :
    (mapMoves m s.heap).moved (fun r => some (s.regs r)) p = some contents ↔
      ∃ key val, s.load p.src = .ok key ∧ Settles (fun fuel => m.get fuel key) (some val) ∧
        holdReg (stackDepth s.heap) p.dst val = .ok contents := by
  have hkey (key : Term) :
      (mapMoves m s.heap).key (fun r => some (s.regs r)) p.src = some key ↔
        s.load p.src = .ok key := by
    cases p.src with
    | place r => exact toOption_eq_some_iff
    | value t => simp [Rules.key, load]
  have hfetch (key val : Term) : (mapMoves m s.heap).fetch key = some val ↔
      Settles (fun fuel => m.get fuel key) (some val) := by
    rw [mapMoves, Option.join_eq_some_iff, settled_eq_some_iff]
  have hhold (val : Term) : (mapMoves m s.heap).hold p.dst val = some contents ↔
      holdReg (stackDepth s.heap) p.dst val = .ok contents := toOption_eq_some_iff
  simp only [Rules.moved, Option.bind_eq_some_iff, hkey, hfetch, hhold]
  constructor
  · rintro ⟨val, ⟨key, hkey, hval⟩, hhold⟩
    exact ⟨key, val, hkey, hval, hhold⟩
  · rintro ⟨key, val, hkey, hval, hhold⟩
    exact ⟨val, ⟨key, hkey, hval⟩, hhold⟩

/-- The second pass makes the moves in turn. -/
theorem settles_storeValues_iff :
    Settles (fun fuel => storeValues fuel m s pairs) s' ↔
      ∃ regs, inTurn (mapMoves m s.heap) s.regs pairs = some regs ∧ s' = { s with regs } := by
  induction pairs generalizing s with
  | nil =>
      constructor
      · rintro ⟨least, h⟩
        exact ⟨s.regs, rfl, (Except.ok.inj (h least (Nat.le_refl least))).symm⟩
      · rintro ⟨regs, hregs, rfl⟩
        cases hregs
        exact ⟨0, fun _ _ => rfl⟩
  | cons p pairs ih =>
      simp only [storeValues]
      rw [settles_const_bind_iff]
      constructor
      · rintro ⟨key, hkey, h⟩
        obtain ⟨found, hfound, hrest⟩ := (mapGet_keeps m key).settles_bind_iff.mp h
        rw [settles_mapGet_iff] at hfound
        cases found with
        | none =>
            obtain ⟨least, h⟩ := hrest
            cases h least (Nat.le_refl least)
        | some val =>
            obtain ⟨s₁, hstore, hrest⟩ := settles_const_bind_iff.mp hrest
            obtain ⟨contents, hhold, rfl⟩ := storeValue_eq_ok_iff.mp hstore
            obtain ⟨regs, hturn, rfl⟩ := ih.mp hrest
            exact ⟨regs, Option.bind_eq_some_iff.mpr
              ⟨contents, moved_eq_some_iff.mpr ⟨key, val, hkey, hfound, hhold⟩, hturn⟩, rfl⟩
      · rintro ⟨regs, hturn, rfl⟩
        obtain ⟨contents, hmoved, hturn⟩ := Option.bind_eq_some_iff.mp hturn
        obtain ⟨key, val, hkey, hfound, hhold⟩ := moved_eq_some_iff.mp hmoved
        refine ⟨key, hkey, (mapGet_keeps m key).settles_bind_iff.mpr
          ⟨some val, settles_mapGet_iff.mpr hfound, ?_⟩⟩
        exact settles_const_bind_iff.mpr
          ⟨_, storeValue_eq_ok_iff.mpr ⟨contents, hhold, rfl⟩, ih.mpr ⟨regs, hturn, rfl⟩⟩

/-- Where the moves can be made at once all keys are found. -/
theorem keyFound_of_atOnce {start env regs : Reg → Contents} (hstart : start = s.regs)
    (h : atOnce (mapMoves m s.heap) start env pairs = some regs) : ∀ p ∈ pairs, KeyFound m s p := by
  induction pairs generalizing env with
  | nil => exact fun p hp => absurd hp List.not_mem_nil
  | cons p pairs ih =>
      obtain ⟨contents, hmoved, hrest⟩ := Option.bind_eq_some_iff.mp h
      rw [hstart] at hmoved
      obtain ⟨key, val, hkey, hfound, -⟩ := moved_eq_some_iff.mp hmoved
      exact List.forall_mem_cons.mpr ⟨⟨key, val, hkey, hfound⟩, ih hrest⟩

end Moves

/-! ## The instruction -/

/-- All values are stored at once, or a key is missing and no register changes.  Nothing is in
the empty map, nor in a term that is no map. -/
def StoredAtOnce (fail : Nat) (src : MapSource) (pairs : List KeyDst) (s : TermProcess) : Prop :=
  ∃ s', Settles (fun fuel => getMapElements fuel fail src pairs s) s' ∧
    match src with
    | .notMap => s' = s.jump fail
    | .emptyMap => s' = s.jump fail
    | .flat m =>
        (∃ regs, atOnce (mapMoves m s.heap) s.regs s.regs pairs = some regs ∧
          s' = { s with regs }) ∨
        ((∃ p ∈ pairs, KeyMissing m s p) ∧ s' = s.jump fail)

/-- A key is missing, or the values can be stored at once and the stores before a key source do
not change what the last store to a register puts there. -/
def Undisturbed (src : MapSource) (pairs : List KeyDst) (s : TermProcess) : Prop :=
  match src with
  | .notMap => True
  | .emptyMap => True
  | .flat m =>
      pairs ≠ [] ∧ (SomeMissing m s pairs ∨
        ((∃ regs, atOnce (mapMoves m s.heap) s.regs s.regs pairs = some regs) ∧
          SameLast (mapMoves m s.heap) s.regs pairs))

section Instruction

variable {m : FlatMap} {s s' : TermProcess} {pairs : List KeyDst} {fail : Nat}

theorem checkKeys_keeps (m : FlatMap) (s : TermProcess) (pairs : List KeyDst) :
    Keeps fun fuel => checkKeys fuel m s pairs := by
  induction pairs with
  | nil => exact fun _ _ h => h
  | cons p pairs ih =>
      intro fuel all h
      obtain ⟨key, hkey, h⟩ := except_bind_eq_ok_iff.mp h
      obtain ⟨found, hfound, h⟩ := except_bind_eq_ok_iff.mp h
      refine except_bind_eq_ok_iff.mpr ⟨key, hkey, except_bind_eq_ok_iff.mpr
        ⟨found, mapGet_keeps m key fuel found hfound, ?_⟩⟩
      cases found with
      | none => exact h
      | some val => exact ih fuel all h

/-- The instruction jumps when a key is missing, and otherwise stores the values in turn. -/
theorem settles_getMapElements_iff :
    Settles (fun fuel => getMapElements fuel fail (.flat m) pairs s) s' ↔
      pairs ≠ [] ∧ ((SomeMissing m s pairs ∧ s' = s.jump fail) ∨
        ((∀ p ∈ pairs, KeyFound m s p) ∧
          ∃ regs, inTurn (mapMoves m s.heap) s.regs pairs = some regs ∧ s' = { s with regs })) := by
  by_cases hnil : pairs = []
  · refine iff_of_false (fun ⟨least, h⟩ => ?_) (fun h => h.1 hnil)
    have hstop := h least (Nat.le_refl least)
    simp [getMapElements, hnil, bind, Except.bind, throw, throwThe, MonadExceptOf.throw] at hstop
  · simp only [getMapElements, hnil, if_false, ne_eq, not_false_eq_true, true_and]
    rw [(checkKeys_keeps m s pairs).settles_bind_iff]
    simp only [Bool.exists_bool, settles_checkKeys_true_iff, settles_checkKeys_false_iff,
      if_true, Bool.false_eq_true, if_false, settles_storeValues_iff]
    have hjump : Settles (fun _ => (pure (s.jump fail) : Except OpStop TermProcess)) s' ↔
        s' = s.jump fail :=
      settles_const_iff.trans (by simp [pure, Except.pure, eq_comm])
    rw [hjump]

theorem keyMissing_of_someMissing (h : SomeMissing m s pairs) : ∃ p ∈ pairs, KeyMissing m s p := by
  obtain ⟨earlier, p, later, rfl, -, hmissing⟩ := h
  exact ⟨p, List.mem_append_right _ List.mem_cons_self, hmissing⟩

end Instruction

/-- The stores come to stores at once exactly when they are undisturbed. -/
theorem storedAtOnce_iff (fail : Nat) (src : MapSource) (pairs : List KeyDst) (s : TermProcess) :
    StoredAtOnce fail src pairs s ↔ Undisturbed src pairs s := by
  cases src with
  | notMap => exact iff_of_true ⟨_, ⟨0, fun _ _ => rfl⟩, rfl⟩ trivial
  | emptyMap => exact iff_of_true ⟨_, ⟨0, fun _ _ => rfl⟩, rfl⟩ trivial
  | flat m =>
      simp only [StoredAtOnce, Undisturbed, settles_getMapElements_iff]
      constructor
      · rintro ⟨s', ⟨hne, ⟨hmissing, -⟩ | ⟨hfound, regs, hturn, rfl⟩⟩, hright⟩
        · exact ⟨hne, .inl hmissing⟩
        · rcases hright with ⟨regs', honce, hregs⟩ | ⟨⟨p, hp, hmissing⟩, -⟩
          · obtain rfl : regs = regs' := congrArg TermProcess.regs hregs
            exact ⟨hne, .inr ⟨⟨regs, honce⟩, (inTurn_eq_iff honce).mp hturn⟩⟩
          · exact absurd hmissing (not_keyMissing_of_keyFound (hfound p hp))
      · rintro ⟨hne, hmissing | ⟨⟨regs, honce⟩, hsame⟩⟩
        · exact ⟨_, ⟨hne, .inl ⟨hmissing, rfl⟩⟩, .inr ⟨keyMissing_of_someMissing hmissing, rfl⟩⟩
        · exact ⟨_, ⟨hne, .inr ⟨keyFound_of_atOnce rfl honce, regs, (inTurn_eq_iff honce).mpr hsame,
            rfl⟩⟩, .inl ⟨regs, honce, rfl⟩⟩

/-- With `1` in the first register. -/
def oneInX0 : TermProcess where
  regs r := if r = .x 0 then .term (.small 1) else .nonValue
  heap := ⟨1000, 2, 0, 90, 100, by decide, by decide⟩
  ip := 0
  argsPtr := 0

def oneToTwo : FlatMap := ⟨4, [(.small 1, .small 2)]⟩

/-- The value under the key of both pairs replaces the key, which is not found the second time. -/
theorem second_key_overwritten :
    (∀ p ∈ [⟨.place (.x 0), .x 0⟩, ⟨.place (.x 0), .x 1⟩], KeyFound oneToTwo oneInX0 p) ∧
    (∀ fuel, getMapElements (fuel + 2) 7 (.flat oneToTwo)
      [⟨.place (.x 0), .x 0⟩, ⟨.place (.x 0), .x 1⟩] oneInX0 = .error (.panic .unwrap)) ∧
    ¬ StoredAtOnce 7 (.flat oneToTwo) [⟨.place (.x 0), .x 0⟩, ⟨.place (.x 0), .x 1⟩] oneInX0 := by
  have hfound : Settles (fun fuel => oneToTwo.get fuel (.small 1)) (some (.small 2)) := by
    refine ⟨2, fun fuel hfuel => ?_⟩
    obtain ⟨fuel, rfl⟩ := Nat.exists_eq_add_of_le' hfuel
    exact rfl
  have hpanics (fuel : Nat) : getMapElements (fuel + 2) 7 (.flat oneToTwo)
      [⟨.place (.x 0), .x 0⟩, ⟨.place (.x 0), .x 1⟩] oneInX0 = .error (.panic .unwrap) := rfl
  refine ⟨?_, hpanics, ?_⟩
  · simp only [List.forall_mem_cons]
    exact ⟨⟨_, _, rfl, hfound⟩, ⟨_, _, rfl, hfound⟩, fun p hp => absurd hp List.not_mem_nil⟩
  · rintro ⟨s', hsettles, -⟩
    refine not_settles (fun fuel (hfuel : 2 ≤ fuel) => ?_) s' hsettles
    obtain ⟨fuel, rfl⟩ := Nat.exists_eq_add_of_le' hfuel
    exact ⟨_, hpanics fuel⟩

end Zeptobeam
