/-
The code server.  It keeps the modules under their names, looks functions up in the current
version of a module, and loads the module when it does not find the function.
-/
import Zeptobeam.TailCalls

namespace Zeptobeam

/-- The code of a module and its functions, each at an offset into the code. -/
structure LoadedCode where
  codeLen : Nat
  funs : Term → Nat → Option Nat
  funs_lt : ∀ f arity offset, funs f arity = some offset → offset < codeLen

structure LoadedModule where
  name : String
  version : Nat
  code : LoadedCode

/-- A pointer into the code of a module. -/
structure CodePtr where
  modp : LoadedModule
  offset : Nat
  inside : offset < modp.code.codeLen

structure VersionedCodePtr where
  moduleName : String
  version : Nat
  ptr : CodePtr

/-- Two versions of the code of a module, the current and the previous. -/
structure ModuleGenerations where
  currModp : LoadedModule
  currVersion : Nat
  oldModp : Option LoadedModule
  oldVersion : Nat

/-- What the search path has under the name of a module. -/
inductive ModuleFile where
  | missing
  /-- The chunks cannot be read. -/
  | unreadable
  /-- The loader fails after the module has got its version. -/
  | rejected
  | loads (code : LoadedCode)

inductive LookupErr where
  | notAnAtom
  | moduleNotFound
  | functionNotFound
  | beamFileNotFound
  | loader
deriving DecidableEq, Repr

structure CodeServer where
  mods : String → Option ModuleGenerations
  modVersion : Nat
  /-- Every module that was ever loaded, the last one first; the code keeps no such list. -/
  loaded : List LoadedModule

/-- `file_stem` of the path of a module's file. -/
def moduleFileStem (name : String) : String :=
  let last := (name.toList.reverse.takeWhile (· ≠ '/')).reverse
  if last = [] then ".beam" else String.ofList last

def LoadedModule.lookup (m : LoadedModule) (f : Term) (arity : Nat) : Except LookupErr CodePtr :=
  match h : m.code.funs f arity with
  | some offset => .ok ⟨m, offset, m.code.funs_lt f arity offset h⟩
  | none => .error .functionNotFound

namespace CodeServer

def new : CodeServer where
  mods _ := none
  modVersion := 1
  loaded := []

/-- Modules are kept under atoms. -/
def get (cs : CodeServer) : Term → Option ModuleGenerations
  | .atom name => cs.mods name
  | _ => none

def lookupBeamCode (cs : CodeServer) (mfa : Mfa) : Except LookupErr CodePtr :=
  match cs.get mfa.m with
  | none => .error .moduleNotFound
  | some mg => mg.currModp.lookup mfa.f mfa.arity

def lookupBeamCodeVersioned (cs : CodeServer) (mfa : Mfa) : Except LookupErr VersionedCodePtr :=
  match cs.get mfa.m with
  | none => .error .moduleNotFound
  | some mg =>
      match mg.currModp.lookup mfa.f mfa.arity with
      | .error e => .error e
      | .ok ptr => .ok ⟨mg.currModp.name, mg.currVersion, ptr⟩

/-- The module takes the place of the one that was there. -/
def moduleLoaded (cs : CodeServer) (modp : LoadedModule) : CodeServer :=
  let mg : ModuleGenerations := {
    currModp := modp
    currVersion := modp.version
    oldModp := none
    oldVersion := 0 }
  { cs with mods := Function.update cs.mods modp.name (some mg), loaded := modp :: cs.loaded }

/-- `find_module_file` and `try_load_module`.  The module is named after its file. -/
def tryLoadModule (cs : CodeServer) (name : String) (file : ModuleFile) :
    Except LookupErr Unit × CodeServer :=
  match file with
  | .missing => (.error .beamFileNotFound, cs)
  | .unreadable => (.error .loader, cs)
  | .rejected => (.error .loader, { cs with modVersion := cs.modVersion + 1 })
  | .loads code =>
      (.ok (), moduleLoaded { cs with modVersion := cs.modVersion + 1 }
        ⟨moduleFileStem name, cs.modVersion, code⟩)

/-- The second lookup fails. -/
def undefErr (mfa : Mfa) : LookupErr :=
  if CallProc.isAtom mfa.f then .functionNotFound else .notAnAtom

def lookupBeamCodeAndLoad (cs : CodeServer) (mfa : Mfa) (file : ModuleFile) :
    Except LookupErr CodePtr × CodeServer :=
  match cs.lookupBeamCode mfa with
  | .ok ip => (.ok ip, cs)
  | .error _ =>
      match mfa.m with
      | .atom name =>
          match cs.tryLoadModule name file with
          | (.error e, cs) => (.error e, cs)
          | (.ok _, cs) =>
              match cs.lookupBeamCode mfa with
              | .ok ip => (.ok ip, cs)
              | .error _ => (.error (undefErr mfa), cs)
      | _ => (.error .notAnAtom, cs)

/-! ## Generations -/

/-- The code of the module has not been freed. -/
def Retained (cs : CodeServer) (m : LoadedModule) : Prop :=
  ∃ mg, cs.mods m.name = some mg ∧ (mg.currModp = m ∨ mg.oldModp = some m)

/-- Functions are looked up in it. -/
def Current (cs : CodeServer) (m : LoadedModule) : Prop :=
  ∃ mg, cs.mods m.name = some mg ∧ mg.currModp = m

/-- How often the module was loaded since this version of it. -/
def age (cs : CodeServer) (m : LoadedModule) : Nat :=
  (cs.loaded.filter fun m' => m'.name = m.name ∧ m.version < m'.version).length

/-- The current module of each name is the newest one that was loaded. -/
structure Ordered (cs : CodeServer) : Prop where
  name_eq : ∀ name mg, cs.mods name = some mg → mg.currModp.name = name
  noOld : ∀ name mg, cs.mods name = some mg → mg.oldModp = none
  curr_mem : ∀ name mg, cs.mods name = some mg → mg.currModp ∈ cs.loaded
  newest : ∀ m ∈ cs.loaded, ∃ mg, cs.mods m.name = some mg ∧ m.version ≤ mg.currModp.version
  version_lt : ∀ m ∈ cs.loaded, m.version < cs.modVersion
  version_inj : ∀ m ∈ cs.loaded, ∀ m' ∈ cs.loaded, m.version = m'.version → m = m'

theorem ordered_new : new.Ordered where
  name_eq := by
    intro name mg hmg
    cases hmg
  noOld := by
    intro name mg hmg
    cases hmg
  curr_mem := by
    intro name mg hmg
    cases hmg
  newest m hm := absurd hm List.not_mem_nil
  version_lt m hm := absurd hm List.not_mem_nil
  version_inj m hm := absurd hm List.not_mem_nil

variable {cs : CodeServer} {m : LoadedModule}

theorem Current.retained (h : cs.Current m) : cs.Retained m := by
  obtain ⟨mg, hmg, heq⟩ := h
  exact ⟨mg, hmg, .inl heq⟩

theorem Ordered.current_of_retained (hordered : cs.Ordered) (h : cs.Retained m) :
    cs.Current m := by
  obtain ⟨mg, hmg, heq | hold⟩ := h
  · exact ⟨mg, hmg, heq⟩
  · rw [hordered.noOld _ _ hmg] at hold
    cases hold

theorem Ordered.mem_of_current (hordered : cs.Ordered) (h : cs.Current m) : m ∈ cs.loaded := by
  obtain ⟨mg, hmg, rfl⟩ := h
  exact hordered.curr_mem _ _ hmg

theorem Ordered.age_current (hordered : cs.Ordered) (h : cs.Current m) : cs.age m = 0 := by
  obtain ⟨mg, hmg, rfl⟩ := h
  rw [age, List.length_eq_zero_iff, List.filter_eq_nil_iff]
  intro m' hm' hnewer
  obtain ⟨hname, hlt⟩ := of_decide_eq_true hnewer
  obtain ⟨mg', hmg', hle⟩ := hordered.newest m' hm'
  rw [hname, hmg] at hmg'
  cases hmg'
  omega

/-- A new version of a module under the name. -/
def load (cs : CodeServer) (name : String) (code : LoadedCode) : CodeServer :=
  moduleLoaded { cs with modVersion := cs.modVersion + 1 } ⟨name, cs.modVersion, code⟩

theorem Ordered.load (hordered : cs.Ordered) (name : String) (code : LoadedCode) :
    (cs.load name code).Ordered where
  name_eq := by
    intro other mg hmg
    by_cases hother : other = name
    · subst hother
      cases (Function.update_self other _ cs.mods).symm.trans hmg
      rfl
    · exact hordered.name_eq other mg ((Function.update_of_ne hother _ _).symm.trans hmg)
  noOld := by
    intro other mg hmg
    by_cases hother : other = name
    · subst hother
      cases (Function.update_self other _ cs.mods).symm.trans hmg
      rfl
    · exact hordered.noOld other mg ((Function.update_of_ne hother _ _).symm.trans hmg)
  curr_mem := by
    intro other mg hmg
    by_cases hother : other = name
    · subst hother
      cases (Function.update_self other _ cs.mods).symm.trans hmg
      exact List.mem_cons_self
    · have hold := hordered.curr_mem other mg ((Function.update_of_ne hother _ _).symm.trans hmg)
      exact List.mem_cons_of_mem _ hold
  newest := by
    intro m hm
    by_cases hname : m.name = name
    · refine ⟨⟨⟨name, cs.modVersion, code⟩, cs.modVersion, none, 0⟩, ?_, ?_⟩
      · subst hname
        exact Function.update_self m.name _ cs.mods
      · rcases List.mem_cons.mp hm with rfl | hold
        · exact Nat.le_refl _
        · exact Nat.le_of_lt (hordered.version_lt m hold)
    · rcases List.mem_cons.mp hm with rfl | hold
      · exact absurd rfl hname
      · obtain ⟨mg, hmg, hle⟩ := hordered.newest m hold
        exact ⟨mg, (Function.update_of_ne hname _ _).trans hmg, hle⟩
  version_lt := by
    intro m hm
    rcases List.mem_cons.mp hm with rfl | hold
    · exact Nat.lt_succ_self _
    · exact Nat.lt_succ_of_lt (hordered.version_lt m hold)
  version_inj := by
    intro m hm m' hm' heq
    rcases List.mem_cons.mp hm with rfl | hold
    · rcases List.mem_cons.mp hm' with rfl | hold'
      · rfl
      · exact absurd heq.symm (Nat.ne_of_lt (hordered.version_lt m' hold'))
    · rcases List.mem_cons.mp hm' with rfl | hold'
      · exact absurd heq (Nat.ne_of_lt (hordered.version_lt m hold))
      · exact hordered.version_inj m hold m' hold' heq

theorem Ordered.bump (hordered : cs.Ordered) {version : Nat} (hle : cs.modVersion ≤ version) :
    ({ cs with modVersion := version } : CodeServer).Ordered where
  name_eq := hordered.name_eq
  noOld := hordered.noOld
  curr_mem := hordered.curr_mem
  newest := hordered.newest
  version_lt m hm := Nat.lt_of_lt_of_le (hordered.version_lt m hm) hle
  version_inj := hordered.version_inj

/-- A load leaves the modules of other names as they are. -/
theorem Current.load_of_ne {name : String} (h : cs.Current m) (hne : m.name ≠ name)
    (code : LoadedCode) : (cs.load name code).Current m := by
  obtain ⟨mg, hmg, heq⟩ := h
  exact ⟨mg, (Function.update_of_ne hne _ _).trans hmg, heq⟩

/-- The version that a load replaces is gone, and has been loaded once since. -/
theorem Ordered.load_replaces (hordered : cs.Ordered) (h : cs.Current m) (code : LoadedCode) :
    (cs.load m.name code).age m = 1 ∧ ¬ (cs.load m.name code).Retained m := by
  have hmem := hordered.mem_of_current h
  have hlt := hordered.version_lt m hmem
  constructor
  · have hage := hordered.age_current h
    rw [age] at hage ⊢
    change (List.filter _ (_ :: cs.loaded)).length = 1
    rw [List.filter_cons, if_pos (decide_eq_true ⟨rfl, hlt⟩), List.length_cons, hage]
  · intro hretained
    obtain ⟨mg, hmg, heq⟩ := (hordered.load m.name code).current_of_retained hretained
    cases (Function.update_self m.name _ cs.mods).symm.trans hmg
    have hversion := congrArg LoadedModule.version heq
    exact absurd hversion.symm (Nat.ne_of_lt hlt)

/-! ## Lookups -/

theorem lookup_modp {f : Term} {arity : Nat} {c : CodePtr} (h : m.lookup f arity = .ok c) :
    c.modp = m := by
  rw [LoadedModule.lookup] at h
  split at h
  next => cases h; rfl
  next => cases h

theorem lookup_cases (m : LoadedModule) (f : Term) (arity : Nat) :
    (∃ c, m.lookup f arity = .ok c ∧ (m.code.funs f arity).isSome = true) ∨
      m.lookup f arity = .error .functionNotFound ∧ (m.code.funs f arity).isSome = false := by
  rw [LoadedModule.lookup]
  split
  next offset hsome => exact .inl ⟨_, rfl, by rw [hsome]; rfl⟩
  next hnone => exact .inr ⟨rfl, by rw [hnone]; rfl⟩

theorem get_eq_some {t : Term} {mg : ModuleGenerations} (h : cs.get t = some mg) :
    ∃ name, t = .atom name ∧ cs.mods name = some mg := by
  cases t with
  | atom name => exact ⟨name, rfl, h⟩
  | _ => cases h

theorem Ordered.lookup_current (hordered : cs.Ordered) {mfa : Mfa} {c : CodePtr}
    (h : cs.lookupBeamCode mfa = .ok c) : cs.Current c.modp := by
  rw [lookupBeamCode] at h
  cases hget : cs.get mfa.m with
  | none =>
      rw [hget] at h
      cases h
  | some mg =>
      rw [hget] at h
      obtain ⟨name, _, hmg⟩ := get_eq_some hget
      rw [lookup_modp h]
      exact ⟨mg, by rw [hordered.name_eq name mg hmg, hmg], rfl⟩

theorem Ordered.lookupVersioned_current (hordered : cs.Ordered) {mfa : Mfa}
    {dst : VersionedCodePtr} (h : cs.lookupBeamCodeVersioned mfa = .ok dst) :
    cs.Current dst.ptr.modp := by
  have hlookup : cs.lookupBeamCode mfa = .ok dst.ptr := by
    rw [lookupBeamCodeVersioned] at h
    rw [lookupBeamCode]
    cases hget : cs.get mfa.m with
    | none =>
        rw [hget] at h
        cases h
    | some mg =>
        rw [hget] at h
        cases hm : mg.currModp.lookup mfa.f mfa.arity with
        | error e =>
            simp only [hm] at h
            cases h
        | ok ptr =>
            simp only [hm] at h
            cases h
            exact hm
  exact hordered.lookup_current hlookup

/-- The load that a lookup comes to: the name of the module, and its code. -/
def loadFor (cs : CodeServer) (mfa : Mfa) (file : ModuleFile) : Option (String × LoadedCode) :=
  match cs.lookupBeamCode mfa, mfa.m, file with
  | .error _, .atom name, .loads code => some (moduleFileStem name, code)
  | _, _, _ => none

/-- The module that the file holds has the function. -/
def finds (mfa : Mfa) (file : ModuleFile) : Bool :=
  match mfa.m, file with
  | .atom name, .loads code => moduleFileStem name = name && (code.funs mfa.f mfa.arity).isSome
  | _, _ => false

theorem loadFor_eq_some {mfa : Mfa} {file : ModuleFile} {name : String} {code : LoadedCode}
    (h : cs.loadFor mfa file = some (name, code)) :
    ∃ e file_name, cs.lookupBeamCode mfa = .error e ∧ mfa.m = .atom file_name ∧
      file = .loads code ∧ name = moduleFileStem file_name := by
  unfold loadFor at h
  split at h
  next e file_name code' hlookup hm =>
    cases h
    exact ⟨e, file_name, hlookup, hm, rfl, rfl⟩
  next => cases h

/-- A lookup that loads no module changes no module. -/
theorem lookupBeamCodeAndLoad_unloaded {mfa : Mfa} {file : ModuleFile}
    (h : cs.loadFor mfa file = none) :
    (∃ c, cs.lookupBeamCode mfa = .ok c ∧ cs.lookupBeamCodeAndLoad mfa file = (.ok c, cs)) ∨
      ∃ e version, cs.modVersion ≤ version ∧
        cs.lookupBeamCodeAndLoad mfa file = (.error e, { cs with modVersion := version }) := by
  rw [lookupBeamCodeAndLoad]
  cases hlookup : cs.lookupBeamCode mfa with
  | ok c => exact .inl ⟨c, rfl, rfl⟩
  | error e =>
      cases hm : mfa.m with
      | atom name =>
          cases file with
          | missing => exact .inr ⟨_, cs.modVersion, Nat.le_refl _, rfl⟩
          | unreadable => exact .inr ⟨_, cs.modVersion, Nat.le_refl _, rfl⟩
          | rejected => exact .inr ⟨_, cs.modVersion + 1, Nat.le_succ _, rfl⟩
          | loads code =>
              unfold loadFor at h
              rw [hlookup, hm] at h
              cases h
      | _ => exact .inr ⟨_, cs.modVersion, Nat.le_refl _, rfl⟩

/-- A lookup that loads a module finds what the file holds. -/
theorem lookupBeamCodeAndLoad_load {mfa : Mfa} {file : ModuleFile} {name : String}
    {code : LoadedCode} (h : cs.loadFor mfa file = some (name, code)) :
    (∃ c, finds mfa file = true ∧ (cs.load name code).lookupBeamCode mfa = .ok c ∧
        cs.lookupBeamCodeAndLoad mfa file = (.ok c, cs.load name code)) ∨
      finds mfa file = false ∧ ∃ e,
        cs.lookupBeamCodeAndLoad mfa file = (.error e, cs.load name code) := by
  obtain ⟨e, file_name, hlookup, hm, rfl, rfl⟩ := loadFor_eq_some h
  have hload : cs.lookupBeamCodeAndLoad mfa (.loads code) =
      match (cs.load (moduleFileStem file_name) code).lookupBeamCode mfa with
      | .ok ip => (.ok ip, cs.load (moduleFileStem file_name) code)
      | .error _ => (.error (undefErr mfa), cs.load (moduleFileStem file_name) code) := by
    rw [lookupBeamCodeAndLoad, hlookup, hm]
    rfl
  have hfinds : finds mfa (.loads code) =
      (moduleFileStem file_name = file_name && (code.funs mfa.f mfa.arity).isSome) := by
    unfold finds
    rw [hm]
  rw [hload, hfinds]
  by_cases hstem : moduleFileStem file_name = file_name
  · have hnew : (cs.load (moduleFileStem file_name) code).lookupBeamCode mfa =
        (⟨moduleFileStem file_name, cs.modVersion, code⟩ : LoadedModule).lookup mfa.f mfa.arity := by
      rw [lookupBeamCode, hm, get, load, moduleLoaded, hstem]
      simp only [Function.update_self]
    rcases lookup_cases ⟨moduleFileStem file_name, cs.modVersion, code⟩ mfa.f mfa.arity with
      ⟨c, hc, hsome⟩ | ⟨herror, hnone⟩
    · refine .inl ⟨c, ?_, hnew.trans hc, ?_⟩
      · rw [decide_eq_true hstem]
        exact hsome
      · rw [hnew, hc]
    · refine .inr ⟨?_, undefErr mfa, ?_⟩
      · rw [decide_eq_true hstem]
        exact hnone
      · rw [hnew, herror]
  · have hold : (cs.load (moduleFileStem file_name) code).lookupBeamCode mfa = .error e := by
      rw [← hlookup, lookupBeamCode, lookupBeamCode, hm, get, get, load, moduleLoaded]
      simp only [Function.update_of_ne (Ne.symm hstem)]
    rw [hold]
    refine .inr ⟨?_, undefErr mfa, rfl⟩
    simp [hstem]

end CodeServer

end Zeptobeam
