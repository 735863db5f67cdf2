/-
Live code.  Processes hold pointers into the code of modules while modules are loaded again,
also by a call of a function that the module does not have.  A load frees the version that it
replaces, so the pointers stay good exactly when no process keeps one into that version.
-/
import Zeptobeam.CodeServer
import Zeptobeam.Lib.GuardedRun

namespace Zeptobeam

/-- A word of the stack, as far as it points to code. -/
inductive CodeWord where
  | cp (c : Option CodePtr)
  | catchAt (loc : CodePtr)
  | other

def CodeWord.pointer? : CodeWord → Option CodePtr
  | cp c => c
  | catchAt loc => some loc
  | other => none

def CodeWord.catch? : CodeWord → Option CodePtr
  | catchAt loc => some loc
  | _ => none

/-- A process, as far as it points to code. -/
structure CodeProc where
  ip : CodePtr
  cp : Option CodePtr
  stack : List CodeWord

/-- A closure on the heap of a process, with its destination when that is resolved. -/
structure HeapClosure where
  mfa : Mfa
  dst : Option VersionedCodePtr

structure CodeVm where
  codeServer : CodeServer
  procs : Nat → Option CodeProc
  pidCounter : Nat
  closures : List HeapClosure

/-- When a call saves the return address: before it looks the function up, or after, or not
at all. -/
inductive SaveCp where
  | never
  /-- `call_ext`. -/
  | before
  /-- `apply`, and a call of an export. -/
  | after

/-- What an instruction does within the process. -/
inductive CodeMove where
  /-- To the next instruction or to a label. -/
  | goto (offset : Nat)
  | call (offset : Nat)
  | returnOpcode
  | allocate (need : Nat)
  | deallocate (free : Nat)
  | trim (n : Nat)
  | tryOpcode (yreg catchLabel : Nat)
  /-- Another word goes to a Y register. -/
  | setY (yreg : Nat)
  /-- An exception is caught. -/
  | unwind

inductive CodeAction where
  | move (pid : Nat) (m : CodeMove)
  /-- A call of a function that is not native, by its name. -/
  | enter (pid : Nat) (mfa : Mfa) (save : SaveCp) (file : ModuleFile)
  | makeFun (mfa : Mfa)
  | callFun (pid index : Nat)
  /-- No process refers to the closure any more. -/
  | forget (index : Nat)
  | spawn (mfa : Mfa) (file : ModuleFile)
  | exit (pid : Nat)

namespace CodeProc

def stackPointers (p : CodeProc) : List CodePtr :=
  p.stack.filterMap CodeWord.pointer?

/-- The pointers that the process holds. -/
def pointers (p : CodeProc) : List CodePtr :=
  p.ip :: (p.cp.toList ++ p.stackPointers)

/-- A label in the code that the process runs. -/
def label (p : CodeProc) (offset : Nat) : Option CodePtr :=
  if h : offset < p.ip.modp.code.codeLen then some ⟨p.ip.modp, offset, h⟩ else none

def stackDeallocate (p : CodeProc) (n : Nat) : Option (Option CodePtr × List CodeWord) :=
  match p.stack with
  | .cp c :: _ => if n < p.stack.length then some (c, p.stack.drop (n + 1)) else none
  | _ => none

def setYWord (p : CodeProc) (yreg : Nat) (word : CodeWord) : Option CodeProc :=
  if yreg + 1 < p.stack.length then some { p with stack := p.stack.set (yreg + 1) word }
  else none

/-- One step, unless the process fails. -/
def move (p : CodeProc) : CodeMove → Option CodeProc
  | .goto offset => (p.label offset).map fun ip => { p with ip }
  | .call offset => (p.label offset).map fun ip => { p with cp := some p.ip, ip }
  | .returnOpcode => p.cp.map fun ip => { p with ip, cp := none }
  | .allocate need => some { p with stack := .cp p.cp :: (List.replicate need .other ++ p.stack) }
  | .deallocate free =>
      (p.stackDeallocate free).map fun (c, stack) => { p with cp := c, stack }
  | .trim n => (p.stackDeallocate n).map fun (c, stack) => { p with stack := .cp c :: stack }
  | .tryOpcode yreg catchLabel =>
      (p.label catchLabel).bind fun loc => p.setYWord yreg (.catchAt loc)
  | .setY yreg => p.setYWord yreg .other
  | .unwind =>
      match p.stack.findSome? CodeWord.catch? with
      | none => none
      | some loc =>
          let stackDrop := p.stack.findIdx fun w => w.catch?.isSome
          -- one word less is dropped, to preserve the return address
          if stackDrop = 0 then none
          else some { ip := loc, cp := none, stack := p.stack.drop (stackDrop - 1) }

/-- The process after the lookup of a function that it calls. -/
def entered (p : CodeProc) (save : SaveCp) (result : Except LookupErr CodePtr) : CodeProc :=
  let saved := { p with cp := some p.ip }
  match save, result with
  | .never, .ok ip => { p with ip }
  | .never, .error _ => p
  | .before, .ok ip => { saved with ip }
  | .before, .error _ => saved
  | .after, .ok ip => { saved with ip }
  | .after, .error _ => p

/-- The pointers that the process keeps over the lookup, which succeeds or not. -/
def keeps (p : CodeProc) (save : SaveCp) (found : Bool) : List CodePtr :=
  match save, found with
  | .never, true => p.cp.toList ++ p.stackPointers
  | .never, false | .after, false => p.pointers
  | .before, _ | .after, true => p.ip :: p.stackPointers

end CodeProc

namespace CodeVm

def new : CodeVm where
  codeServer := .new
  procs _ := none
  pidCounter := 0
  closures := []

def setProc (s : CodeVm) (pid : Nat) (p : CodeProc) : CodeVm :=
  { s with procs := Function.update s.procs pid (some p) }

/-- A closure is called: its destination is looked up the first time. -/
def callClosure (s : CodeVm) (pid index : Nat) (p : CodeProc) (closure : HeapClosure) : CodeVm :=
  let p := { p with cp := some p.ip }
  match closure.dst with
  | some dst => s.setProc pid { p with ip := dst.ptr }
  | none =>
      match s.codeServer.lookupBeamCodeVersioned closure.mfa with
      | .error _ => s.setProc pid p
      | .ok dst =>
          let closures := s.closures.set index { closure with dst := some dst }
          { s.setProc pid { p with ip := dst.ptr } with closures }

def step (s : CodeVm) : CodeAction → CodeVm
  | .move pid m =>
      match s.procs pid with
      | none => s
      | some p =>
          match p.move m with
          | none => s
          | some p => s.setProc pid p
  | .enter pid mfa save file =>
      match s.procs pid with
      | none => s
      | some p =>
          let (result, codeServer) := s.codeServer.lookupBeamCodeAndLoad mfa file
          { s.setProc pid (p.entered save result) with codeServer }
  | .makeFun mfa => { s with closures := s.closures ++ [⟨mfa, none⟩] }
  | .callFun pid index =>
      match s.procs pid, s.closures[index]? with
      | some p, some closure => s.callClosure pid index p closure
      | _, _ => s
  | .forget index => { s with closures := s.closures.eraseIdx index }
  | .spawn mfa file =>
      let (result, codeServer) := s.codeServer.lookupBeamCodeAndLoad mfa file
      let pid := s.pidCounter
      let s := { s with codeServer, pidCounter := s.pidCounter + 1 }
      match result with
      | .error _ => s
      | .ok ip => s.setProc pid { ip, cp := none, stack := [] }
  | .exit pid => { s with procs := Function.update s.procs pid none }

/-- A process or a closure holds the pointer. -/
def Holds (s : CodeVm) (c : CodePtr) : Prop :=
  (∃ pid p, s.procs pid = some p ∧ c ∈ p.pointers) ∨
    ∃ closure ∈ s.closures, ∃ dst, closure.dst = some dst ∧ dst.ptr = c

/-- Pointers into a version since which the module was loaded at most once point into code
that has not been freed. -/
def LiveCodeKept (s : CodeVm) : Prop :=
  ∀ c, s.Holds c → s.codeServer.age c.modp ≤ 1 → s.codeServer.Retained c.modp

/-- The module that the action loads. -/
def loadFor (s : CodeVm) : CodeAction → Option (String × LoadedCode)
  | .enter pid mfa _ file =>
      if (s.procs pid).isSome then s.codeServer.loadFor mfa file else none
  | .spawn mfa file => s.codeServer.loadFor mfa file
  | _ => none

/-- A pointer that is held before the lookup of the action and after it. -/
def Keeps (s : CodeVm) (a : CodeAction) (c : CodePtr) : Prop :=
  match a with
  | .enter pid mfa save file =>
      (∃ other p, other ≠ pid ∧ s.procs other = some p ∧ c ∈ p.pointers) ∨
        (∃ p, s.procs pid = some p ∧ c ∈ p.keeps save (CodeServer.finds mfa file)) ∨
        ∃ closure ∈ s.closures, ∃ dst, closure.dst = some dst ∧ dst.ptr = c
  | _ => s.Holds c

/-- No pointer is kept into the version of a module that the action replaces. -/
def ReplacesNoLive (s : CodeVm) (a : CodeAction) : Prop :=
  ∀ name code, s.loadFor a = some (name, code) →
    ∀ c, s.Keeps a c → c.modp.name = name → ¬ s.codeServer.Current c.modp

end CodeVm

/-! ## Steps -/

namespace CodeProc

variable {p p' : CodeProc} {c : CodePtr}

theorem mem_pointers : c ∈ p.pointers ↔ c = p.ip ∨ p.cp = some c ∨ c ∈ p.stackPointers := by
  rw [pointers, List.mem_cons, List.mem_append, Option.mem_toList]

theorem mem_stackPointers : c ∈ p.stackPointers ↔ ∃ w ∈ p.stack, w.pointer? = some c :=
  List.mem_filterMap

theorem mem_words :
    c ∈ p.pointers ↔ c = p.ip ∨ p.cp = some c ∨ ∃ w ∈ p.stack, w.pointer? = some c := by
  rw [mem_pointers, mem_stackPointers]

theorem label_modp {offset : Nat} (h : p.label offset = some c) : c.modp = p.ip.modp := by
  rw [label] at h
  split at h
  next => cases h; rfl
  next => cases h

theorem stackDeallocate_words {n : Nat} {c : Option CodePtr} {stack : List CodeWord}
    (h : p.stackDeallocate n = some (c, stack)) :
    .cp c ∈ p.stack ∧ ∀ w ∈ stack, w ∈ p.stack := by
  rw [stackDeallocate] at h
  split at h
  next c' rest hstack =>
    split at h
    next =>
      cases h
      rw [hstack]
      exact ⟨List.mem_cons_self, fun w hw => List.mem_of_mem_drop hw⟩
    next => cases h
  next => cases h

theorem setYWord_words {yreg : Nat} {word : CodeWord} (h : p.setYWord yreg word = some p') :
    p'.ip = p.ip ∧ p'.cp = p.cp ∧ ∀ w ∈ p'.stack, w = word ∨ w ∈ p.stack := by
  rw [setYWord] at h
  split at h
  next =>
    cases h
    refine ⟨rfl, rfl, fun w hw => ?_⟩
    exact (List.mem_or_eq_of_mem_set hw).symm
  next => cases h

/-- Within a process pointers are only made into code that it already points to. -/
theorem move_modp {m : CodeMove} (h : p.move m = some p') (hc : c ∈ p'.pointers) :
    ∃ c' ∈ p.pointers, c'.modp = c.modp := by
  have hip : p.ip ∈ p.pointers := List.mem_cons_self
  have hkept : ∀ c, (p.cp = some c ∨ ∃ w ∈ p.stack, w.pointer? = some c) →
      ∃ c' ∈ p.pointers, c'.modp = c.modp :=
    fun c hc => ⟨c, mem_words.mpr (.inr hc), rfl⟩
  cases m with
  | goto offset =>
      obtain ⟨ip, hlabel, rfl⟩ := Option.map_eq_some_iff.mp h
      rcases mem_words.mp hc with rfl | hrest
      · exact ⟨p.ip, hip, (label_modp hlabel).symm⟩
      · exact hkept c hrest
  | call offset =>
      obtain ⟨ip, hlabel, rfl⟩ := Option.map_eq_some_iff.mp h
      rcases mem_words.mp hc with rfl | hcp | hstack
      · exact ⟨p.ip, hip, (label_modp hlabel).symm⟩
      · cases hcp
        exact ⟨p.ip, hip, rfl⟩
      · exact hkept c (.inr hstack)
  | returnOpcode =>
      obtain ⟨ip, hcp, rfl⟩ := Option.map_eq_some_iff.mp h
      rcases mem_words.mp hc with rfl | hnone | hstack
      · exact hkept _ (.inl hcp)
      · cases hnone
      · exact hkept c (.inr hstack)
  | allocate need =>
      cases h
      rcases mem_words.mp hc with rfl | hcp | ⟨w, hw, hpointer⟩
      · exact ⟨p.ip, hip, rfl⟩
      · exact hkept c (.inl hcp)
      · rcases List.mem_cons.mp hw with rfl | hw
        · exact hkept c (.inl hpointer)
        · rcases List.mem_append.mp hw with hother | hold
          · rw [List.eq_of_mem_replicate hother] at hpointer
            cases hpointer
          · exact hkept c (.inr ⟨w, hold, hpointer⟩)
  | deallocate free =>
      obtain ⟨⟨cp, stack⟩, hstack, rfl⟩ := Option.map_eq_some_iff.mp h
      obtain ⟨htop, hold⟩ := stackDeallocate_words hstack
      rcases mem_words.mp hc with rfl | hcp | ⟨w, hw, hpointer⟩
      · exact ⟨p.ip, hip, rfl⟩
      · exact hkept c (.inr ⟨.cp cp, htop, hcp⟩)
      · exact hkept c (.inr ⟨w, hold w hw, hpointer⟩)
  | trim n =>
      obtain ⟨⟨cp, stack⟩, hstack, rfl⟩ := Option.map_eq_some_iff.mp h
      obtain ⟨htop, hold⟩ := stackDeallocate_words hstack
      rcases mem_words.mp hc with rfl | hcp | ⟨w, hw, hpointer⟩
      · exact ⟨p.ip, hip, rfl⟩
      · exact hkept c (.inl hcp)
      · rcases List.mem_cons.mp hw with rfl | hw
        · exact hkept c (.inr ⟨.cp cp, htop, hpointer⟩)
        · exact hkept c (.inr ⟨w, hold w hw, hpointer⟩)
  | tryOpcode yreg catchLabel =>
      obtain ⟨loc, hlabel, hset⟩ := Option.bind_eq_some_iff.mp h
      obtain ⟨hsame, hcp', hwords⟩ := setYWord_words hset
      rcases mem_words.mp hc with rfl | hcp | ⟨w, hw, hpointer⟩
      · exact ⟨p.ip, hip, by rw [hsame]⟩
      · exact hkept c (.inl (hcp'.symm.trans hcp))
      · rcases hwords w hw with rfl | hold
        · cases hpointer
          exact ⟨p.ip, hip, (label_modp hlabel).symm⟩
        · exact hkept c (.inr ⟨w, hold, hpointer⟩)
  | setY yreg =>
      obtain ⟨hsame, hcp', hwords⟩ := setYWord_words h
      rcases mem_words.mp hc with rfl | hcp | ⟨w, hw, hpointer⟩
      · exact ⟨p.ip, hip, by rw [hsame]⟩
      · exact hkept c (.inl (hcp'.symm.trans hcp))
      · rcases hwords w hw with rfl | hold
        · cases hpointer
        · exact hkept c (.inr ⟨w, hold, hpointer⟩)
  | unwind =>
      rw [move] at h
      cases hcatch : p.stack.findSome? CodeWord.catch? with
      | none =>
          rw [hcatch] at h
          cases h
      | some loc =>
          rw [hcatch] at h
          obtain ⟨w, hw, hloc⟩ := List.exists_of_findSome?_eq_some hcatch
          simp only at h
          split at h
          next => cases h
          next =>
            cases h
            rcases mem_words.mp hc with rfl | hnone | ⟨w', hw', hpointer⟩
            · refine hkept _ (.inr ⟨w, hw, ?_⟩)
              cases w with
              | catchAt loc' => exact hloc
              | _ => cases hloc
            · cases hnone
            · exact hkept c (.inr ⟨w', List.mem_of_mem_drop hw', hpointer⟩)

theorem mem_entered {save : SaveCp} {result : Except LookupErr CodePtr} :
    c ∈ (p.entered save result).pointers ↔ result = .ok c ∨ c ∈ p.keeps save result.isOk := by
  cases save <;> cases result <;>
    simp [entered, keeps, pointers, stackPointers, Except.isOk, Except.toBool, eq_comm]

theorem mem_pointers_of_keeps {save : SaveCp} {found : Bool} (h : c ∈ p.keeps save found) :
    c ∈ p.pointers := by
  rw [mem_pointers]
  cases save <;> cases found <;>
    simp only [keeps, mem_pointers, List.mem_cons, List.mem_append, Option.mem_toList] at h <;>
    tauto

end CodeProc

namespace CodeServer

variable {cs : CodeServer} {mfa : Mfa} {file : ModuleFile}

/-- A lookup keeps pointers current unless it replaces what they point into, and finds current
code. -/
theorem Ordered.lookupBeamCodeAndLoad (hordered : cs.Ordered) (mfa : Mfa)
    (file : ModuleFile) {K : CodePtr → Prop}
    (hcurrent : ∀ c, K c → cs.Current c.modp)
    (hload : ∀ name code, cs.loadFor mfa file = some (name, code) →
      ∀ c, K c → c.modp.name = name → ¬ cs.Current c.modp) :
    (cs.lookupBeamCodeAndLoad mfa file).2.Ordered ∧
      ∀ c, K c ∨ (cs.lookupBeamCodeAndLoad mfa file).1 = .ok c →
        (cs.lookupBeamCodeAndLoad mfa file).2.Current c.modp := by
  cases hfor : cs.loadFor mfa file with
  | none =>
      rcases lookupBeamCodeAndLoad_unloaded hfor with ⟨c, hlookup, heq⟩ | ⟨e, version, hle, heq⟩
      · rw [heq]
        refine ⟨hordered, fun c' hc' => ?_⟩
        rcases hc' with hkept | hfound
        · exact hcurrent c' hkept
        · cases hfound
          exact hordered.lookup_current hlookup
      · rw [heq]
        refine ⟨hordered.bump hle, fun c' hc' => ?_⟩
        rcases hc' with hkept | hfound
        · exact hcurrent c' hkept
        · cases hfound
  | some loaded =>
      obtain ⟨name, code⟩ := loaded
      have hordered' := hordered.load name code
      have hkept : ∀ c, K c → (cs.load name code).Current c.modp := by
        intro c hc
        have hnow := hcurrent c hc
        exact hnow.load_of_ne (fun hname => hload name code hfor c hc hname hnow) code
      rcases lookupBeamCodeAndLoad_load hfor with ⟨c, _, hlookup, heq⟩ | ⟨_, e, heq⟩
      · rw [heq]
        refine ⟨hordered', fun c' hc' => ?_⟩
        rcases hc' with hold | hfound
        · exact hkept c' hold
        · cases hfound
          exact hordered'.lookup_current hlookup
      · rw [heq]
        refine ⟨hordered', fun c' hc' => ?_⟩
        rcases hc' with hold | hfound
        · exact hkept c' hold
        · cases hfound

theorem lookupBeamCodeAndLoad_snd {name : String} {code : LoadedCode}
    (h : cs.loadFor mfa file = some (name, code)) :
    (cs.lookupBeamCodeAndLoad mfa file).2 = cs.load name code := by
  rcases lookupBeamCodeAndLoad_load h with ⟨c, _, _, heq⟩ | ⟨_, e, heq⟩
  · rw [heq]
  · rw [heq]

theorem lookupBeamCodeAndLoad_isOk {name : String} {code : LoadedCode}
    (h : cs.loadFor mfa file = some (name, code)) :
    (cs.lookupBeamCodeAndLoad mfa file).1.isOk = finds mfa file := by
  rcases lookupBeamCodeAndLoad_load h with ⟨c, hfinds, _, heq⟩ | ⟨hfinds, e, heq⟩
  · rw [heq, hfinds]
    rfl
  · rw [heq, hfinds]
    rfl

end CodeServer

namespace CodeVm

variable {s : CodeVm} {c : CodePtr}

/-- All pointers point into current versions. -/
structure Inv (s : CodeVm) : Prop where
  ordered : s.codeServer.Ordered
  current : ∀ c, s.Holds c → s.codeServer.Current c.modp
  fresh : ∀ pid, s.pidCounter ≤ pid → s.procs pid = none

theorem inv_new : new.Inv where
  ordered := CodeServer.ordered_new
  current := by
    rintro c (⟨pid, p, hp, _⟩ | ⟨closure, hclosure, _⟩)
    · cases hp
    · exact absurd hclosure List.not_mem_nil
  fresh _ _ := rfl

theorem Inv.liveCodeKept (h : s.Inv) : s.LiveCodeKept :=
  fun c hc _ => (h.current c hc).retained

/-- What is held apart from the process. -/
def HoldsElse (s : CodeVm) (pid : Nat) (c : CodePtr) : Prop :=
  (∃ other p, other ≠ pid ∧ s.procs other = some p ∧ c ∈ p.pointers) ∨
    ∃ closure ∈ s.closures, ∃ dst, closure.dst = some dst ∧ dst.ptr = c

theorem HoldsElse.holds {pid : Nat} (h : s.HoldsElse pid c) : s.Holds c := by
  rcases h with ⟨other, p, _, hp, hc⟩ | hclosure
  · exact .inl ⟨other, p, hp, hc⟩
  · exact .inr hclosure

theorem holds_setProc {pid : Nat} {p : CodeProc} :
    (s.setProc pid p).Holds c ↔ c ∈ p.pointers ∨ s.HoldsElse pid c := by
  constructor
  · rintro (⟨other, q, hq, hc⟩ | hclosure)
    · by_cases hother : other = pid
      · subst hother
        cases (Function.update_self other _ s.procs).symm.trans hq
        exact .inl hc
      · exact .inr (.inl ⟨other, q, hother, (Function.update_of_ne hother _ _).symm.trans hq, hc⟩)
    · exact .inr (.inr hclosure)
  · rintro (hc | ⟨other, q, hother, hq, hc⟩ | hclosure)
    · exact .inl ⟨pid, p, Function.update_self pid _ s.procs, hc⟩
    · exact .inl ⟨other, q, (Function.update_of_ne hother _ _).trans hq, hc⟩
    · exact .inr hclosure

theorem Inv.fresh_setProc (h : s.Inv) {pid : Nat} {p : CodeProc} (hp : s.procs pid = some p)
    (p' : CodeProc) (other : Nat) (hother : s.pidCounter ≤ other) :
    (s.setProc pid p').procs other = none := by
  have hne : other ≠ pid := by
    rintro rfl
    rw [h.fresh other hother] at hp
    cases hp
  exact (Function.update_of_ne hne _ _).trans (h.fresh other hother)

/-- A process moves within the code that is held. -/
theorem Inv.setProc (h : s.Inv) {pid : Nat} {p p' : CodeProc} (hp : s.procs pid = some p)
    (hmodp : ∀ c ∈ p'.pointers, s.codeServer.Current c.modp) : (s.setProc pid p').Inv where
  ordered := h.ordered
  current := by
    intro c hc
    rcases holds_setProc.mp hc with hnew | helse
    · exact hmodp c hnew
    · exact h.current c helse.holds
  fresh := h.fresh_setProc hp p'

theorem Inv.moveStep (h : s.Inv) (pid : Nat) (m : CodeMove) : (s.step (.move pid m)).Inv := by
  rw [step]
  cases hp : s.procs pid with
  | none => exact h
  | some p =>
      cases hmove : p.move m with
      | none =>
          simp only [hmove]
          exact h
      | some p' =>
          simp only [hmove]
          refine h.setProc hp fun c hc => ?_
          obtain ⟨c', hc', hmodp⟩ := CodeProc.move_modp hmove hc
          rw [← hmodp]
          exact h.current c' (.inl ⟨pid, p, hp, hc'⟩)

theorem Inv.callClosure (h : s.Inv) {pid index : Nat} {p : CodeProc} {closure : HeapClosure}
    (hp : s.procs pid = some p) (hclosure : closure ∈ s.closures) :
    (s.callClosure pid index p closure).Inv := by
  have hip := h.current p.ip (.inl ⟨pid, p, hp, List.mem_cons_self⟩)
  -- the process has saved its place and is at `ip`
  have hsaved : ∀ ip, s.codeServer.Current ip.modp →
      ∀ c ∈ CodeProc.pointers { p with ip, cp := some p.ip }, s.codeServer.Current c.modp := by
    intro ip hcurrent c hc
    rcases CodeProc.mem_pointers.mp hc with rfl | hcp | hstack
    · exact hcurrent
    · cases hcp
      exact hip
    · exact h.current c (.inl ⟨pid, p, hp, CodeProc.mem_pointers.mpr (.inr (.inr hstack))⟩)
  rw [CodeVm.callClosure]
  cases hdst : closure.dst with
  | some dst =>
      have hcurrent := h.current dst.ptr (.inr ⟨closure, hclosure, dst, hdst, rfl⟩)
      exact h.setProc hp (hsaved dst.ptr hcurrent)
  | none =>
      cases hlookup : s.codeServer.lookupBeamCodeVersioned closure.mfa with
      | error e => exact h.setProc hp (hsaved p.ip hip)
      | ok dst =>
          have hcurrent := h.ordered.lookupVersioned_current hlookup
          have hset := h.setProc hp (hsaved dst.ptr hcurrent)
          refine ⟨hset.ordered, ?_, hset.fresh⟩
          rintro c (hprocs | ⟨closure', hmem, dst', hdst', rfl⟩)
          · exact hset.current c (.inl hprocs)
          · rcases List.mem_or_eq_of_mem_set hmem with hold | rfl
            · exact h.current dst'.ptr (.inr ⟨closure', hold, dst', hdst', rfl⟩)
            · cases hdst'
              exact hcurrent

theorem Inv.enterStep (h : s.Inv) {pid : Nat} {mfa : Mfa} {save : SaveCp} {file : ModuleFile}
    (hguard : s.ReplacesNoLive (.enter pid mfa save file)) :
    (s.step (.enter pid mfa save file)).Inv := by
  rw [step]
  cases hp : s.procs pid with
  | none => exact h
  | some p =>
      have hlookup := h.ordered.lookupBeamCodeAndLoad mfa file
        (K := fun c => s.HoldsElse pid c ∨
          c ∈ p.keeps save (s.codeServer.lookupBeamCodeAndLoad mfa file).1.isOk)
        (by
          rintro c (helse | hkept)
          · exact h.current c helse.holds
          · exact h.current c (.inl ⟨pid, p, hp, CodeProc.mem_pointers_of_keeps hkept⟩))
        (by
          intro name code hfor c hc
          have hload : s.loadFor (.enter pid mfa save file) = some (name, code) := by
            rw [loadFor, hp]
            exact hfor
          refine hguard name code hload c ?_
          rw [CodeServer.lookupBeamCodeAndLoad_isOk hfor] at hc
          rcases hc with (hother | hclosure) | hkept
          · exact .inl hother
          · exact .inr (.inr hclosure)
          · exact .inr (.inl ⟨p, hp, hkept⟩))
      refine ⟨hlookup.1, ?_, h.fresh_setProc hp _⟩
      intro c hc
      rcases holds_setProc.mp hc with hnew | helse
      · rcases CodeProc.mem_entered.mp hnew with hfound | hkept
        · exact hlookup.2 c (.inr hfound)
        · exact hlookup.2 c (.inl (.inr hkept))
      · exact hlookup.2 c (.inl (.inl helse))

theorem Inv.spawnStep (h : s.Inv) {mfa : Mfa} {file : ModuleFile}
    (hguard : s.ReplacesNoLive (.spawn mfa file)) : (s.step (.spawn mfa file)).Inv := by
  have hlookup := h.ordered.lookupBeamCodeAndLoad mfa file (K := s.Holds)
    h.current hguard
  rw [step]
  cases hresult : s.codeServer.lookupBeamCodeAndLoad mfa file with
  | mk result codeServer =>
      rw [hresult] at hlookup
      cases result with
      | error e =>
          refine ⟨hlookup.1, fun c hc => hlookup.2 c (.inl hc), fun pid hpid => ?_⟩
          exact h.fresh pid (Nat.le_of_succ_le hpid)
      | ok ip =>
          refine ⟨hlookup.1, fun c hc => ?_, fun pid hpid => ?_⟩
          · rcases holds_setProc.mp hc with hnew | helse
            · rcases CodeProc.mem_pointers.mp hnew with rfl | hnone | hstack
              · exact hlookup.2 _ (.inr rfl)
              · cases hnone
              · cases hstack
            · exact hlookup.2 c (.inl (HoldsElse.holds (s := s) helse))
          · have hne : pid ≠ s.pidCounter := by
              rintro rfl
              exact absurd hpid (Nat.not_succ_le_self _)
            exact (Function.update_of_ne hne _ _).trans (h.fresh pid (Nat.le_of_succ_le hpid))

theorem Inv.step (h : s.Inv) (a : CodeAction) (hguard : s.ReplacesNoLive a) :
    (s.step a).Inv := by
  cases a with
  | move pid m => exact h.moveStep pid m
  | enter pid mfa save file => exact h.enterStep hguard
  | makeFun mfa =>
      refine ⟨h.ordered, ?_, h.fresh⟩
      rintro c (hprocs | ⟨closure, hclosure, dst, hdst, rfl⟩)
      · exact h.current c (.inl hprocs)
      · rcases List.mem_append.mp hclosure with hold | hnew
        · exact h.current dst.ptr (.inr ⟨closure, hold, dst, hdst, rfl⟩)
        · rw [List.mem_singleton.mp hnew] at hdst
          cases hdst
  | callFun pid index =>
      rw [CodeVm.step]
      split
      next p closure hp hclosure => exact h.callClosure hp (List.mem_of_getElem? hclosure)
      next => exact h
  | forget index =>
      refine ⟨h.ordered, ?_, h.fresh⟩
      rintro c (hprocs | ⟨closure, hclosure, hdst⟩)
      · exact h.current c (.inl hprocs)
      · exact h.current c (.inr ⟨closure, List.mem_of_mem_eraseIdx hclosure, hdst⟩)
  | spawn mfa file => exact h.spawnStep hguard
  | exit pid =>
      have hprocs : ∀ other p, Function.update s.procs pid none other = some p →
          s.procs other = some p := by
        intro other p hp
        by_cases hother : other = pid
        · subst hother
          rw [Function.update_self] at hp
          cases hp
        · rwa [Function.update_of_ne hother] at hp
      refine ⟨h.ordered, ?_, fun other hother => ?_⟩
      · rintro c (⟨other, p, hp, hc⟩ | hclosure)
        · exact h.current c (.inl ⟨other, p, hprocs other p hp, hc⟩)
        · exact h.current c (.inr hclosure)
      · by_contra hsome
        obtain ⟨p, hp⟩ := Option.ne_none_iff_exists'.mp hsome
        cases (h.fresh other hother).symm.trans (hprocs other p hp)

/-- What is kept into the version that the action replaces is held still, and its code is
freed. -/
theorem Inv.not_liveCodeKept (h : s.Inv) (a : CodeAction) (hguard : ¬ s.ReplacesNoLive a) :
    ¬ (s.step a).LiveCodeKept := by
  simp only [ReplacesNoLive, not_forall, not_not] at hguard
  obtain ⟨name, code, hload, c, hkeeps, rfl, hcurrent⟩ := hguard
  obtain ⟨hage, hfreed⟩ := h.ordered.load_replaces hcurrent code
  have hafter : (s.step a).codeServer = s.codeServer.load c.modp.name code ∧
      (s.step a).Holds c := by
    cases a with
    | enter pid mfa save file =>
        rw [loadFor] at hload
        split at hload
        next hsome =>
          obtain ⟨p, hp⟩ := Option.isSome_iff_exists.mp hsome
          rw [CodeVm.step, hp]
          refine ⟨CodeServer.lookupBeamCodeAndLoad_snd hload, holds_setProc.mpr ?_⟩
          rcases hkeeps with hother | ⟨q, hq, hkept⟩ | hclosure
          · exact .inr (.inl hother)
          · cases hp.symm.trans hq
            refine .inl (CodeProc.mem_entered.mpr (.inr ?_))
            rw [CodeServer.lookupBeamCodeAndLoad_isOk hload]
            exact hkept
          · exact .inr (.inr hclosure)
        next => cases hload
    | spawn mfa file =>
        have hsnd := CodeServer.lookupBeamCodeAndLoad_snd hload
        rw [CodeVm.step]
        cases hresult : s.codeServer.lookupBeamCodeAndLoad mfa file with
        | mk result codeServer =>
            rw [hresult] at hsnd
            cases result with
            | error e => exact ⟨hsnd, hkeeps⟩
            | ok ip =>
                refine ⟨hsnd, holds_setProc.mpr (.inr ?_)⟩
                rcases hkeeps with ⟨other, p, hp, hc⟩ | hclosure
                · refine .inl ⟨other, p, ?_, hp, hc⟩
                  rintro rfl
                  rw [h.fresh _ (Nat.le_refl _)] at hp
                  cases hp
                · exact .inr hclosure
    | _ => cases hload
  intro hkept
  rw [LiveCodeKept, hafter.1] at hkept
  exact hfreed (hkept c hafter.2 (Nat.le_of_eq hage))

/-! ## Runs -/

open GuardedRun

/-- Live code is kept throughout exactly those runs in which no load replaces a version that
is still pointed into. -/
theorem liveCodeKept_iff (actions : List CodeAction) :
    Throughout step LiveCodeKept new actions ↔ Guarded step ReplacesNoLive new actions :=
  throughout_iff_guarded ReplacesNoLive LiveCodeKept inv_new
    (fun _ a h hguard => h.step a hguard)
    (fun _ h => h.liveCodeKept)
    (fun _ a h hguard => h.not_liveCodeKept a hguard) actions

/-- A module of one instruction. -/
def startOnly : LoadedCode where
  codeLen := 1
  funs f arity := if CallProc.isAtomNamed "start" f ∧ arity = 0 then some 0 else none
  funs_lt := by
    intro f arity offset h
    split at h
    · cases h
      exact Nat.zero_lt_one
    · cases h

/-- The first instruction of its first version. -/
def startPtr : CodePtr :=
  ⟨⟨"a", 1, startOnly⟩, 0, Nat.zero_lt_one⟩

/-- A process calls a function that its own module does not have. -/
def callsUndefined : List CodeAction :=
  [.spawn ⟨.atom "a", .atom "start", 0⟩ (.loads startOnly),
    .enter 0 ⟨.atom "a", .atom "stop", 0⟩ .before (.loads startOnly)]

/-- The module is loaded again, and the code that the process runs is freed. -/
theorem not_liveCodeKept_undefined : ¬ Throughout step LiveCodeKept new callsUndefined := by
  intro hthroughout
  have hkept := hthroughout callsUndefined List.prefix_rfl
  have hholds : (callsUndefined.foldl step new).Holds startPtr :=
    .inl ⟨0, ⟨startPtr, some startPtr, []⟩, rfl, List.mem_cons_self⟩
  have hage : (callsUndefined.foldl step new).codeServer.age startPtr.modp = 1 := by decide
  obtain ⟨mg, hmg, heq⟩ := hkept startPtr hholds (Nat.le_of_eq hage)
  have hnow : (callsUndefined.foldl step new).codeServer.mods "a" =
      some ⟨⟨"a", 2, startOnly⟩, 2, none, 0⟩ := rfl
  cases hnow.symm.trans hmg
  rcases heq with heq | hold
  · exact absurd (congrArg LoadedModule.version heq) (by decide)
  · cases hold

end CodeVm

end Zeptobeam
