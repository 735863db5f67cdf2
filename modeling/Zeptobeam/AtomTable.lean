/-
The global table of atoms: from names to indexes and back.  A name that is too long stops its
registration half way, and leaves the locks of both directions poisoned.
-/
import Mathlib.Algebra.Ring.Nat
import Mathlib.Data.List.Induction
import Mathlib.Logic.Function.Basic

namespace Zeptobeam

namespace AtomTable

/-! ## Atoms as terms -/

def makeAtom (id : Nat) : UInt64 := (id.toUInt64 <<< 3) ||| 4

def isAtom (a : UInt64) : Bool := a &&& 7 = 4

def atomIndex (a : UInt64) : Nat := (a >>> 3).toNat

theorem toNat_makeAtom {id : Nat} (hid : id < 2 ^ 61) : (makeAtom id).toNat = 8 * id + 4 := by
  have hword : id.toUInt64.toNat = id := by
    simp only [Nat.toUInt64, UInt64.toNat_ofNat']
    omega
  have hor : id <<< 3 ||| 4 = id <<< 3 + 4 :=
    (Nat.shiftLeft_add_eq_or_of_lt (by decide) id).symm
  have hshift : (id <<< 3) % 2 ^ 64 = id <<< 3 := by
    rw [Nat.shiftLeft_eq]
    omega
  rw [makeAtom, UInt64.toNat_or, UInt64.toNat_shiftLeft, hword]
  change (id <<< 3) % 2 ^ 64 ||| 4 = 8 * id + 4
  rw [hshift, hor, Nat.shiftLeft_eq]
  omega

theorem isAtom_makeAtom {id : Nat} (hid : id < 2 ^ 61) : isAtom (makeAtom id) = true := by
  have hmod : (makeAtom id).toNat &&& (2 ^ 3 - 1) = 4 := by
    rw [Nat.and_two_pow_sub_one_eq_mod, toNat_makeAtom hid]
    omega
  rw [isAtom, decide_eq_true_eq]
  apply UInt64.toNat_inj.mp
  rw [UInt64.toNat_and]
  exact hmod

theorem atomIndex_makeAtom {id : Nat} (hid : id < 2 ^ 61) : atomIndex (makeAtom id) = id := by
  rw [atomIndex, UInt64.toNat_shiftRight, toNat_makeAtom hid]
  change (8 * id + 4) >>> 3 = id
  rw [Nat.shiftRight_eq_div_pow]
  omega

/-! ## The table -/

/-- A function panics, or returns `AtomNotExist`. -/
inductive AtomStop where
  | assertion
  | poisonedLock
  | capacityOverflow
  | atomNotExist (text : String)
deriving DecidableEq, Repr

structure Atom where
  len : UInt16
  /-- First 4 bytes used for comparisons. -/
  ord0 : UInt32
  name : String
deriving DecidableEq, Repr

def firstBytes (b : List UInt8) : UInt32 :=
  ((b.take 4).zip ([24, 16, 8, 0] : List UInt32)).foldl
    (fun ord0 p => ord0 ||| p.1.toUInt32 <<< p.2) 0

def Atom.new (s : String) : Except AtomStop Atom :=
  if s.utf8ByteSize ≤ 65535 then
    .ok ⟨s.utf8ByteSize.toUInt16, firstBytes s.toUTF8.data.toList, s⟩
  else .error .assertion

/-- A `Vec` of atoms of 32 bytes, which holds at most `isize::MAX` bytes. -/
structure IndexLookup where
  atoms : List Atom
  fits : 32 * atoms.length < 2 ^ 63

def IndexLookup.push (v : IndexLookup) (atom : Atom) : Except AtomStop IndexLookup :=
  if h : 32 * (v.atoms.length + 1) < 2 ^ 63 then
    .ok ⟨v.atoms ++ [atom], by rwa [List.length_append, List.length_singleton]⟩
  else .error .capacityOverflow

structure AtomStorage where
  atomsByStr : String → Option Nat
  atomsByIndex : IndexLookup
  /-- A function panicked while it held both locks. -/
  poisoned : Bool

namespace AtomStorage

/-- The name is entered before the atom is made. -/
def registerAtom (storage : AtomStorage) (s : String) : Except AtomStop Nat × AtomStorage :=
  let index := storage.atomsByIndex.atoms.length
  let storage := { storage with
    atomsByStr := Function.update storage.atomsByStr s (some index) }
  match Atom.new s >>= storage.atomsByIndex.push with
  | .ok atomsByIndex => (.ok index, { storage with atomsByIndex })
  | .error stop => (.error stop, { storage with poisoned := true })

/-- Allocate new atom in the atom table or find existing. -/
def fromStr (storage : AtomStorage) (val : String) : Except AtomStop UInt64 × AtomStorage :=
  if storage.poisoned then (.error .poisonedLock, storage)
  else
    match storage.atomsByStr val with
    | some index => (.ok (makeAtom index), storage)
    | none =>
        let (index, storage) := storage.registerAtom val
        (index.map makeAtom, storage)

/-- The null pointer is `none`. -/
def lookup (storage : AtomStorage) (a : UInt64) : Except AtomStop (Option Atom) :=
  if isAtom a = false then .error .assertion
  else if storage.poisoned then .error .poisonedLock
  else .ok storage.atomsByIndex.atoms[atomIndex a]?

def toStr (storage : AtomStorage) (a : UInt64) : Except AtomStop String := do
  match ← storage.lookup a with
  | none => .error (.atomNotExist ("index " ++ toString (atomIndex a)))
  | some atom => .ok atom.name

/-- The loop of `add_init_atoms`. -/
def addInitAtoms (storage : AtomStorage) : Nat → List String → Except AtomStop AtomStorage
  | _, [] => .ok storage
  | index, name :: rest =>
      match storage.registerAtom name with
      | (.ok actual, storage) =>
          if index = actual then addInitAtoms storage (index + 1) rest else .error .assertion
      | (.error stop, _) => .error stop

end AtomStorage

/-- `ATOM_INIT_NAMES`. -/
def initNames : List String :=
  ["+", "-", "==", "EXIT", "all", "apply", "badarg", "badarith", "badarity", "badfun",
    "badkey", "badmap", "badmatch", "badrecord", "case_clause", "erlang", "error",
    "erts_internal", "exit", "false", "file", "function_clause", "high", "if_clause", "init",
    "kill", "killed", "line", "low", "nif_error", "nocatch", "normal", "ok", "system_limit",
    "throw", "trap_exit", "true", "try_clause", "undef", "undefined"]

def emptyStorage : AtomStorage :=
  ⟨fun _ => none, ⟨[], by decide⟩, false⟩

/-- The table of a program that starts; were its atoms not registered, its locks would be
poisoned. -/
def atoms : AtomStorage :=
  match emptyStorage.addInitAtoms 0 initNames with
  | .ok storage => storage
  | .error _ => { emptyStorage with poisoned := true }

inductive AtomOp where
  | fromStr (val : String)
  | toStr (a : UInt64)
  | lookup (a : UInt64)
deriving DecidableEq, Repr

/-- Only a creation changes the table. -/
def AtomStorage.step (storage : AtomStorage) : AtomOp → AtomStorage
  | .fromStr val => (storage.fromStr val).2
  | .toStr _ | .lookup _ => storage

def run (ops : List AtomOp) : AtomStorage :=
  ops.foldl AtomStorage.step atoms

/-- In the run the name was given, and the atom was returned. -/
def Created (ops : List AtomOp) (s : String) (a : UInt64) : Prop :=
  ∃ pre, pre ++ [.fromStr s] <+: ops ∧ ((run pre).fromStr s).1 = .ok a

/-! ## Names and indexes -/

namespace AtomStorage

def names (storage : AtomStorage) : List String :=
  storage.atomsByIndex.atoms.map Atom.name

/-- A new name fits into an atom, and the atom into the table. -/
def Fits (storage : AtomStorage) (s : String) : Prop :=
  s.utf8ByteSize ≤ 65535 ∧ 32 * (storage.names.length + 1) < 2 ^ 63

/-- Each direction is the inverse of the other; a name that was entered without an index is
none of them. -/
structure Inv (storage : AtomStorage) : Prop where
  index : ∀ i s, storage.names[i]? = some s → storage.atomsByStr s = some i
  name : ∀ s i, storage.atomsByStr s = some i → i < storage.names.length →
    storage.names[i]? = some s
  known : storage.poisoned = false → ∀ s i, storage.atomsByStr s = some i →
    i < storage.names.length

/-- What the table becomes: nothing that is in it is changed. -/
structure Later (storage storage' : AtomStorage) : Prop where
  index : ∀ s i, storage.atomsByStr s = some i → storage'.atomsByStr s = some i
  names : ∀ (i : Nat) (s : String), storage.names[i]? = some s → storage'.names[i]? = some s
  poisoned : storage.poisoned = true → storage' = storage

section Storage

variable {storage storage' : AtomStorage} {s : String}

theorem length_names_lt (storage : AtomStorage) : storage.names.length < 2 ^ 61 := by
  have hfits := storage.atomsByIndex.fits
  rw [names, List.length_map]
  omega

theorem registerAtom_of_fits (h : storage.Fits s) :
    ∃ storage', storage.registerAtom s = (.ok storage.names.length, storage') ∧
      storage'.atomsByStr = Function.update storage.atomsByStr s (some storage.names.length) ∧
      storage'.names = storage.names ++ [s] ∧ storage'.poisoned = storage.poisoned := by
  obtain ⟨hname, hroom⟩ := h
  rw [names, List.length_map] at hroom ⊢
  simp only [registerAtom, Atom.new, if_pos hname, bind, Except.bind, IndexLookup.push,
    dif_pos hroom]
  exact ⟨_, rfl, rfl, List.map_append, rfl⟩

theorem registerAtom_of_not_fits (h : ¬ storage.Fits s) :
    ∃ stop, storage.registerAtom s = (.error stop, { storage with
      atomsByStr := Function.update storage.atomsByStr s (some storage.names.length)
      poisoned := true }) := by
  rw [Fits, names, List.length_map] at h
  by_cases hname : s.utf8ByteSize ≤ 65535
  · have hfull : ¬ 32 * (storage.atomsByIndex.atoms.length + 1) < 2 ^ 63 := fun hroom =>
      h ⟨hname, hroom⟩
    simp only [registerAtom, Atom.new, if_pos hname, bind, Except.bind, IndexLookup.push,
      dif_neg hfull, names, List.length_map]
    exact ⟨_, rfl⟩
  · simp only [registerAtom, Atom.new, if_neg hname, bind, Except.bind, names, List.length_map]
    exact ⟨_, rfl⟩

theorem fromStr_cases (storage : AtomStorage) (s : String) :
    (storage.poisoned = true ∧ storage.fromStr s = (.error .poisonedLock, storage)) ∨
    (storage.poisoned = false ∧ ∃ i, storage.atomsByStr s = some i ∧
      storage.fromStr s = (.ok (makeAtom i), storage)) ∨
    (storage.poisoned = false ∧ storage.atomsByStr s = none ∧ storage.Fits s ∧
      ∃ storage', storage.fromStr s = (.ok (makeAtom storage.names.length), storage') ∧
        storage'.atomsByStr = Function.update storage.atomsByStr s (some storage.names.length) ∧
        storage'.names = storage.names ++ [s] ∧ storage'.poisoned = false) ∨
    (storage.poisoned = false ∧ storage.atomsByStr s = none ∧ ¬ storage.Fits s ∧
      ∃ stop, storage.fromStr s = (.error stop, { storage with
        atomsByStr := Function.update storage.atomsByStr s (some storage.names.length)
        poisoned := true })) := by
  unfold fromStr
  cases hpoisoned : storage.poisoned with
  | true => exact .inl ⟨rfl, rfl⟩
  | false =>
      right
      simp only [Bool.false_eq_true, if_false, true_and]
      cases hindex : storage.atomsByStr s with
      | some i => exact .inl ⟨i, rfl, rfl⟩
      | none =>
          right
          by_cases hfits : storage.Fits s
          · obtain ⟨storage', hregister, hstr, hnames, hsound⟩ := registerAtom_of_fits hfits
            refine .inl ⟨rfl, hfits, storage', ?_, hstr, hnames, hsound.trans hpoisoned⟩
            simp only [hregister]
            rfl
          · obtain ⟨stop, hregister⟩ := registerAtom_of_not_fits hfits
            refine .inr ⟨rfl, hfits, stop, ?_⟩
            simp only [hregister]
            rfl

/-- A name is entered that is not in the table. -/
theorem Inv.update (h : storage.Inv) (hsound : storage.poisoned = false)
    (hnew : storage.atomsByStr s = none)
    (hstr : storage'.atomsByStr =
      Function.update storage.atomsByStr s (some storage.names.length)) :
    (∀ other i, storage.atomsByStr other = some i → storage'.atomsByStr other = some i) ∧
    (∀ other i, storage'.atomsByStr other = some i → i < storage.names.length →
      storage.names[i]? = some other) ∧
    ∀ other i, storage'.atomsByStr other = some i → i < storage.names.length ∨
      other = s ∧ i = storage.names.length := by
  have hcases : ∀ other i, storage'.atomsByStr other = some i →
      storage.atomsByStr other = some i ∨ other = s ∧ i = storage.names.length := by
    intro other i hindex
    rw [hstr, Function.update_apply] at hindex
    split at hindex
    next heq => exact .inr ⟨heq, (Option.some.inj hindex).symm⟩
    next => exact .inl hindex
  refine ⟨fun other i hindex => ?_, fun other i hindex hi => ?_, fun other i hindex => ?_⟩
  · have hne : other ≠ s := by
      rintro rfl
      rw [hnew] at hindex
      cases hindex
    rw [hstr, Function.update_of_ne hne, hindex]
  · rcases hcases other i hindex with hold | ⟨-, rfl⟩
    · exact h.name other i hold hi
    · exact absurd hi (Nat.lt_irrefl _)
  · exact (hcases other i hindex).imp_left (h.known hsound other i)

/-- A step keeps both directions inverse, and changes nothing that is in the table. -/
theorem Inv.fromStr (h : storage.Inv) (s : String) :
    (storage.fromStr s).2.Inv ∧ storage.Later (storage.fromStr s).2 := by
  have hsame : storage.Later storage := ⟨fun _ _ => id, fun _ _ => id, fun _ => rfl⟩
  rcases storage.fromStr_cases s with ⟨-, hrun⟩ | ⟨-, i, -, hrun⟩ |
    ⟨hsound, hnew, -, storage', hrun, hstr, hnames, -⟩ | ⟨hsound, hnew, -, stop, hrun⟩ <;>
    rw [hrun]
  · exact ⟨h, hsame⟩
  · exact ⟨h, hsame⟩
  · obtain ⟨hkept, hname, hknown⟩ := h.update hsound hnew hstr
    have hlast : (storage.names ++ [s])[storage.names.length]? = some s :=
      List.getElem?_concat_length
    refine ⟨⟨fun i other hi => ?_, fun other i hother hi => ?_, fun _ other i hother => ?_⟩,
      hkept, fun i other hi => ?_, fun hpoisoned => ?_⟩
    · rw [hnames] at hi
      by_cases hlt : i < storage.names.length
      · rw [List.getElem?_append_left hlt] at hi
        exact hkept other i (h.index i other hi)
      · have hin := (List.getElem?_eq_some_iff.mp hi).1
        rw [List.length_append, List.length_singleton] at hin
        obtain rfl : i = storage.names.length := by omega
        rw [hlast] at hi
        rw [← Option.some.inj hi, hstr, Function.update_self]
    · rw [hnames]
      rcases hknown other i hother with hlt | ⟨rfl, rfl⟩
      · rw [List.getElem?_append_left hlt, hname other i hother hlt]
      · exact hlast
    · rw [hnames, List.length_append, List.length_singleton]
      rcases hknown other i hother with hlt | ⟨-, rfl⟩ <;> omega
    · rw [hnames, List.getElem?_append_left (List.getElem?_eq_some_iff.mp hi).1, hi]
    · rw [hsound] at hpoisoned
      cases hpoisoned
  · obtain ⟨hkept, hname, -⟩ := h.update hsound hnew
      (show ({ storage with
        atomsByStr := Function.update storage.atomsByStr s (some storage.names.length)
        poisoned := true } : AtomStorage).atomsByStr = _ from rfl)
    refine ⟨⟨fun i other hi => hkept other i (h.index i other hi), hname, nofun⟩, hkept,
      fun _ _ => id, fun hpoisoned => ?_⟩
    rw [hsound] at hpoisoned
    cases hpoisoned

theorem Later.trans {storage'' : AtomStorage} (h : storage.Later storage')
    (h' : storage'.Later storage'') : storage.Later storage'' where
  index s i hs := h'.index s i (h.index s i hs)
  names i s hi := h'.names i s (h.names i s hi)
  poisoned hpoisoned := by
    obtain rfl := h.poisoned hpoisoned
    exact h'.poisoned hpoisoned

theorem Inv.foldl (h : storage.Inv) (ops : List AtomOp) :
    (ops.foldl step storage).Inv ∧ storage.Later (ops.foldl step storage) := by
  induction ops generalizing storage with
  | nil => exact ⟨h, fun _ _ => id, fun _ _ => id, fun _ => rfl⟩
  | cons op rest ih =>
      cases op with
      | fromStr val =>
          obtain ⟨hinv, hlater⟩ := h.fromStr val
          obtain ⟨hinv', hlater'⟩ := ih hinv
          exact ⟨hinv', hlater.trans hlater'⟩
      | toStr a => exact ih h
      | lookup a => exact ih h

/-- The name of an atom that was made for it. -/
theorem toStr_makeAtom (hsound : storage.poisoned = false) {i : Nat}
    (hi : storage.names[i]? = some s) : storage.toStr (makeAtom i) = .ok s := by
  have hlt : i < 2 ^ 61 :=
    Nat.lt_trans (List.getElem?_eq_some_iff.mp hi).1 storage.length_names_lt
  rw [names, List.getElem?_map, Option.map_eq_some_iff] at hi
  obtain ⟨atom, hatom, rfl⟩ := hi
  rw [toStr, lookup, isAtom_makeAtom hlt, atomIndex_makeAtom hlt, hsound, hatom]
  rfl

/-- The fixed atoms are registered in the order of their names. -/
theorem Inv.addInitAtoms (h : storage.Inv) (hsound : storage.poisoned = false)
    {rest : List String} (hnew : ∀ s ∈ rest, storage.atomsByStr s = none)
    (hapart : rest.Nodup) (hshort : ∀ s ∈ rest, s.utf8ByteSize ≤ 65535)
    (hroom : 32 * (storage.names.length + rest.length) < 2 ^ 63) :
    ∃ storage', storage.addInitAtoms storage.names.length rest = .ok storage' ∧ storage'.Inv ∧
      storage'.poisoned = false ∧ storage'.names = storage.names ++ rest := by
  induction rest generalizing storage with
  | nil => exact ⟨storage, rfl, h, hsound, (List.append_nil _).symm⟩
  | cons name rest ih =>
      rw [List.length_cons] at hroom
      obtain ⟨hname, hapart⟩ := List.nodup_cons.mp hapart
      have hfits : storage.Fits name := ⟨hshort name List.mem_cons_self, by omega⟩
      have hfresh := hnew name List.mem_cons_self
      obtain ⟨next, hregister, hstr, hnames, hnext⟩ := registerAtom_of_fits hfits
      have hrun : storage.fromStr name = (.ok (makeAtom storage.names.length), next) := by
        simp only [AtomStorage.fromStr, hsound, hfresh, hregister]
        rfl
      have hinv : next.Inv := by
        have hstep := (h.fromStr name).1
        rwa [hrun] at hstep
      have hlength : next.names.length = storage.names.length + 1 := by
        rw [hnames, List.length_append, List.length_singleton]
      obtain ⟨last, hlast, hgood⟩ := ih hinv (hnext.trans hsound)
        (fun s hs => by
          have hne : s ≠ name := ne_of_mem_of_not_mem hs hname
          rw [hstr, Function.update_of_ne hne]
          exact hnew s (List.mem_cons_of_mem _ hs))
        hapart (fun s hs => hshort s (List.mem_cons_of_mem _ hs)) (by omega)
      refine ⟨last, ?_, hgood.1, hgood.2.1, ?_⟩
      · rw [AtomStorage.addInitAtoms, hregister]
        simp only [if_true]
        rw [← hlength, hlast]
      · rw [hgood.2.2, hnames, List.append_assoc, List.singleton_append]

end Storage

end AtomStorage

open AtomStorage

theorem inv_atoms : atoms.Inv ∧ atoms.poisoned = false ∧ atoms.names = initNames := by
  have hempty : emptyStorage.Inv := ⟨nofun, nofun, fun _ => nofun⟩
  have hshort : ∀ s ∈ initNames, s.utf8ByteSize ≤ 65535 := by decide +kernel
  obtain ⟨storage, hadd, hinv, hsound, hnames⟩ :=
    hempty.addInitAtoms rfl (fun _ _ => rfl) (by decide +kernel) hshort (by decide)
  have hatoms : atoms = storage := by
    rw [atoms, show emptyStorage.addInitAtoms 0 initNames = .ok storage from hadd]
  rw [hatoms]
  exact ⟨hinv, hsound, hnames⟩

theorem inv_run (ops : List AtomOp) : (run ops).Inv :=
  (inv_atoms.1.foldl ops).1

/-- Every name that was given as a new one fits. -/
def NamesFit (ops : List AtomOp) : Prop :=
  ∀ pre s, pre ++ [.fromStr s] <+: ops → (run pre).atomsByStr s = none → (run pre).Fits s

theorem NamesFit.sound {ops : List AtomOp} (h : NamesFit ops) : (run ops).poisoned = false := by
  induction ops using List.reverseRecOn with
  | nil => exact inv_atoms.2.1
  | append_singleton ops op ih =>
      have hsound := ih fun pre s hpre => h pre s (hpre.trans (List.prefix_append _ _))
      rw [run, List.foldl_append]
      cases op with
      | toStr a => exact hsound
      | lookup a => exact hsound
      | fromStr s =>
          change ((run ops).fromStr s).2.poisoned = false
          rcases (run ops).fromStr_cases s with ⟨-, hfrom⟩ | ⟨-, i, -, hfrom⟩ |
            ⟨-, -, -, storage, hfrom, -, -, hnext⟩ | ⟨-, hnew, hnot, -⟩
          · rw [hfrom]
            exact hsound
          · rw [hfrom]
            exact hsound
          · rw [hfrom]
            exact hnext
          · exact absurd (h ops s List.prefix_rfl hnew) hnot

theorem Created.index {ops : List AtomOp} {s : String} {a : UInt64} (h : Created ops s a) :
    ∃ i, a = makeAtom i ∧ (run ops).atomsByStr s = some i ∧ (run ops).names[i]? = some s := by
  obtain ⟨pre, ⟨rest, rfl⟩, hcreated⟩ := h
  have hpre := inv_run pre
  obtain ⟨hnow, -⟩ := hpre.fromStr s
  have hlater := (hnow.foldl rest).2
  have hrun : run (pre ++ [.fromStr s] ++ rest) = rest.foldl step ((run pre).fromStr s).2 := by
    rw [run, List.foldl_append, List.foldl_append]
    rfl
  obtain ⟨i, rfl, hi⟩ : ∃ i, a = makeAtom i ∧
      ((run pre).fromStr s).2.names[i]? = some s := by
    rcases (run pre).fromStr_cases s with ⟨-, hfrom⟩ | ⟨hsound, i, hindex, hfrom⟩ |
      ⟨-, -, -, storage', hfrom, -, hnames, -⟩ | ⟨-, -, -, stop, hfrom⟩
    · rw [hfrom] at hcreated
      cases hcreated
    · rw [hfrom] at hcreated ⊢
      exact ⟨i, (Except.ok.inj hcreated).symm,
        hpre.name s i hindex (hpre.known hsound s i hindex)⟩
    · rw [hfrom] at hcreated ⊢
      refine ⟨_, (Except.ok.inj hcreated).symm, ?_⟩
      rw [hnames]
      exact List.getElem?_concat_length
    · rw [hfrom] at hcreated
      cases hcreated
  rw [hrun]
  refine ⟨i, rfl, hlater.index s i (hnow.index i s hi), ?_⟩
  exact hlater.names i s hi

/-- Names and atoms correspond over any run: whenever two atoms were created, they are the same
when their names are.  As long as every new name fits, an atom and its name are found by each
other ever after, and so are the fixed ones; another name that fits can be given. -/
theorem atoms_correspond (ops : List AtomOp) :
    (∀ s a s' a', Created ops s a → Created ops s' a' → (s = s' ↔ a = a')) ∧
    (NamesFit ops →
      (∀ s a, Created ops s a →
        (run ops).fromStr s = (.ok a, run ops) ∧ (run ops).toStr a = .ok s) ∧
      (∀ i s, initNames[i]? = some s → (run ops).fromStr s = (.ok (makeAtom i), run ops)) ∧
      ∀ s, (run ops).Fits s → ∃ a storage,
        (run ops).fromStr s = (.ok a, storage) ∧ storage.toStr a = .ok s) := by
  have hinv := inv_run ops
  have hknown {i : Nat} {s : String} (hsound : (run ops).poisoned = false)
      (hi : (run ops).names[i]? = some s) :
      (run ops).fromStr s = (.ok (makeAtom i), run ops) := by
    simp only [AtomStorage.fromStr, hsound, hinv.index i s hi]
    rfl
  refine ⟨fun s a s' a' h h' => ?_, fun hfit => ?_⟩
  · obtain ⟨i, rfl, hindex, hi⟩ := h.index
    obtain ⟨j, rfl, hindex', hj⟩ := h'.index
    constructor
    · rintro rfl
      rw [hindex] at hindex'
      rw [Option.some.inj hindex']
    · intro heq
      have hlt := Nat.lt_trans (List.getElem?_eq_some_iff.mp hi).1 (length_names_lt _)
      have hlt' := Nat.lt_trans (List.getElem?_eq_some_iff.mp hj).1 (length_names_lt _)
      have hsame := congrArg atomIndex heq
      rw [atomIndex_makeAtom hlt, atomIndex_makeAtom hlt'] at hsame
      rw [hsame, hj] at hi
      exact (Option.some.inj hi).symm
  · have hsound := hfit.sound
    refine ⟨fun s a h => ?_, fun i s hi => ?_, fun s hfits => ?_⟩
    · obtain ⟨i, rfl, -, hi⟩ := h.index
      exact ⟨hknown hsound hi, toStr_makeAtom hsound hi⟩
    · obtain ⟨hatoms, -, hnames⟩ := inv_atoms
      rw [← hnames] at hi
      exact hknown hsound ((hatoms.foldl ops).2.names i s hi)
    · rcases (run ops).fromStr_cases s with ⟨hpoisoned, -⟩ | ⟨-, i, hindex, hfrom⟩ |
        ⟨-, -, -, storage, hfrom, -, hnames, hnext⟩ | ⟨-, -, hnot, -⟩
      · rw [hsound] at hpoisoned
        cases hpoisoned
      · exact ⟨_, _, hfrom, toStr_makeAtom hsound
          (hinv.name s i hindex (hinv.known hsound s i hindex))⟩
      · refine ⟨_, _, hfrom, toStr_makeAtom hnext ?_⟩
        rw [hnames]
        exact List.getElem?_concat_length
      · exact absurd hfits hnot

/-- A name that is too long is refused, and then every name. -/
theorem refused {s : String} (hlong : ¬ s.utf8ByteSize ≤ 65535) :
    (atoms.fromStr s).1 = .error .assertion ∧
      ∀ other, ((atoms.fromStr s).2.fromStr other).1 = .error .poisonedLock := by
  obtain ⟨hinv, hsound, hnames⟩ := inv_atoms
  have hnew : atoms.atomsByStr s = none := by
    cases hindex : atoms.atomsByStr s with
    | none => rfl
    | some i =>
        have hi := hinv.name s i hindex (hinv.known hsound s i hindex)
        rw [hnames] at hi
        have hshort : ∀ name ∈ initNames, name.utf8ByteSize ≤ 65535 := by decide +kernel
        exact absurd (hshort s (List.mem_of_getElem? hi)) hlong
  have hrun : (atoms.fromStr s).1 = .error .assertion ∧
      (atoms.fromStr s).2.poisoned = true := by
    simp only [AtomStorage.fromStr, hsound, hnew, registerAtom, Atom.new, if_neg hlong]
    exact ⟨rfl, rfl⟩
  refine ⟨hrun.1, fun other => ?_⟩
  rw [AtomStorage.fromStr, if_pos hrun.2]

/-- A name of `2 ^ n` bytes. -/
def longName : Nat → String
  | 0 => "a"
  | n + 1 => longName n ++ longName n

theorem utf8ByteSize_longName (n : Nat) : (longName n).utf8ByteSize = 2 ^ n := by
  induction n with
  | zero => rfl
  | succ n ih =>
      rw [longName, String.utf8ByteSize_append, ih, Nat.pow_succ]
      omega

/-- A name of 65536 bytes, which no creation accepts. -/
theorem not_atoms_correspond_longName :
    ((run []).fromStr (longName 16)).1 = .error .assertion ∧
    ((run [.fromStr (longName 16)]).fromStr "ok").1 = .error .poisonedLock ∧
    ¬ ∀ ops s, ∃ a storage, (run ops).fromStr s = (.ok a, storage) ∧
      storage.toStr a = .ok s := by
  obtain ⟨name, hname⟩ : ∃ name, name = longName 16 := ⟨_, rfl⟩
  have hlong : ¬ name.utf8ByteSize ≤ 65535 := by
    rw [hname, utf8ByteSize_longName]
    decide
  rw [← hname]
  obtain ⟨hfirst, hnext⟩ := refused hlong
  refine ⟨hfirst, hnext "ok", fun h => ?_⟩
  obtain ⟨a, storage, hfrom, -⟩ := h [] name
  have hok : (atoms.fromStr name).1 = .ok a := congrArg Prod.fst hfrom
  rw [hfirst] at hok
  cases hok

end AtomTable

end Zeptobeam
