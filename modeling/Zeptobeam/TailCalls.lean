/-
Tail calls.  A tail call leaves the return address of its frame to the function that it
calls, and should come to the same as the call itself between saving the return address and
returning to it.
-/
import Mathlib.Data.List.TakeWhile
import Zeptobeam.CatchTags

namespace Zeptobeam

/-- A word of the stack; a return address may be null. -/
inductive CallWord where
  | cp (c : Option Nat)
  | catchTag (label : Nat)
  | term (t : Term)

def CallWord.isCatch : CallWord → Bool
  | catchTag _ => true
  | _ => false

structure Mfa where
  m : Term
  f : Term
  arity : Nat

/-- The errors of a call: an exception, or an error that ends the dispatch loop. -/
inductive CallErr where
  | exception (class_ : ExceptionType) (reason : Term)
  | other (text : String)

/-- How a function of BEAM code ends that was entered. -/
inductive BeamResult (σ : Type) where
  | returns (x : Nat → Term) (rest : σ)
  /-- It does not catch the exception. -/
  | raises (e : CallErr) (rest : σ)
  | diverges

/-- The functions there are.  A function works on the X registers and on the rest of the
machine, and leaves the stack that it is called with. -/
structure CodeEnv (σ : Type) where
  isNative : Mfa → Bool
  native : Mfa → List Term → σ → Except CallErr Term × σ
  /-- `lookup_beam_code_and_load`. -/
  loadBeam : Mfa → σ → Except CallErr Nat × σ
  beam : Nat → (Nat → Term) → σ → BeamResult σ
  /-- The error for a target that is no import. -/
  badfun : Term → σ → CallErr × σ

/-- A process in a call; `ip` is behind the instruction. -/
structure CallProc (σ : Type) where
  ip : Nat
  cp : Option Nat
  x : Nat → Term
  live : Nat
  stack : List CallWord
  rest : σ

/-- How an instruction ends. -/
inductive CallStep (σ : Type) where
  | normal (p : CallProc σ)
  /-- At the first instruction of a function. -/
  | enters (p : CallProc σ)
  /-- The process ends with reason `normal`. -/
  | finished (p : CallProc σ)
  | err (e : CallErr) (p : CallProc σ)
  | panic
  | diverges

/-- The target of an external call. -/
inductive CallTarget where
  | imported (mfa : Mfa)
  | other (t : Term)

namespace CallProc

variable {σ : Type}

def setX (p : CallProc σ) (n : Nat) (val : Term) : CallProc σ :=
  { p with x := Function.update p.x n val }

/-- The arguments, from the registers. -/
def args (p : CallProc σ) (arity : Nat) : List Term :=
  (List.range arity).map p.x

/-- The return address on top and `n` words behind it are taken off. -/
def stackDeallocate (p : CallProc σ) (n : Nat) : Option (Option Nat × CallProc σ) :=
  match p.stack with
  | .cp c :: _ =>
      if n < p.stack.length then some (c, { p with stack := p.stack.drop (n + 1) }) else none
  | _ => none

def deallocate (n : Nat) (p : CallProc σ) : CallStep σ :=
  match p.stackDeallocate n with
  | some (c, p) => .normal { p with cp := c }
  | none => .panic

/-- `allocate`, of no words but the return address. -/
def allocate (p : CallProc σ) : CallStep σ :=
  .normal { p with stack := .cp p.cp :: p.stack }

/-- `return`, and `return_and_clear_cp`. -/
def returnOpcode (p : CallProc σ) : CallStep σ :=
  match p.cp with
  | none => if p.stack.isEmpty then .finished p else .panic
  | some c => .normal { p with ip := c, cp := none }

def call (arity dst : Nat) (p : CallProc σ) : CallStep σ :=
  .enters { p with live := arity, cp := some p.ip, ip := dst }

def callLast (arity dst dealloc : Nat) (p : CallProc σ) : CallStep σ :=
  match p.stackDeallocate dealloc with
  | some (c, p) => .enters { p with live := arity, cp := c, ip := dst }
  | none => .panic

variable (env : CodeEnv σ)

/-- `call_native_fun_fn`: there are no native functions of more than three arguments. -/
def callNativeFunFn (mfa : Mfa) (arity : Nat) (p : CallProc σ) :
    Option (Except CallErr Term × CallProc σ) :=
  if arity < 4 then
    let (result, rest) := env.native mfa (p.args arity) p.rest
    some (result, { p with rest })
  else none

/-- The native function with its result in X0. -/
def findAndCallNativeFun (mfa : Mfa) (arity : Nat) (p : CallProc σ) : CallStep σ :=
  match callNativeFunFn env mfa arity p with
  | none => .panic
  | some (.error e, p) => .err e p
  | some (.ok val, p) => .normal (p.setX 0 val)

def genericCallExt (dst : CallTarget) (arity : Nat) (saveCp : Bool) (p : CallProc σ) : CallStep σ :=
  let p := { p with live := arity }
  match dst with
  | .other t =>
      let (e, rest) := env.badfun t p.rest
      .err e { p with rest }
  | .imported mfa =>
      if env.isNative mfa then
        let native := findAndCallNativeFun env mfa arity p
        if saveCp then native
        else
          -- return like a tail recursive call, whatever the result
          match native with
          | .normal p => p.returnOpcode
          | .err e p =>
              match p.returnOpcode with
              | .normal p => .err e p
              | other => other
          | other => other
      else
        let p := if saveCp then { p with cp := some p.ip } else p
        match env.loadBeam mfa p.rest with
        | (.error e, rest) => .err e { p with rest }
        | (.ok addr, rest) => .enters { p with ip := addr, rest }

def callExt (arity : Nat) (dst : CallTarget) (p : CallProc σ) : CallStep σ :=
  genericCallExt env dst arity true p

def callExtOnly (arity : Nat) (dst : CallTarget) (p : CallProc σ) : CallStep σ :=
  genericCallExt env dst arity false p

def callExtLast (arity : Nat) (dst : CallTarget) (dealloc : Nat) (p : CallProc σ) : CallStep σ :=
  match p.stackDeallocate dealloc with
  | some (c, p) => genericCallExt env dst arity false { p with cp := c }
  | none => .panic

def isAtom : Term → Bool
  | .atom _ => true
  | _ => false

def isAtomNamed (name : String) : Term → Bool
  | .atom other => other = name
  | _ => false

/-- `erlang:apply/3`. -/
def isApply3 (mfa : Mfa) : Bool :=
  isAtomNamed "erlang" mfa.m && isAtomNamed "apply" mfa.f && mfa.arity = 3

/-- `MFALookupResult`. -/
inductive Found where
  | bif
  | beamCode (addr : Nat)

/-- `lookup_mfa`; functions are exported under atoms. -/
def lookupMfa (mfa : Mfa) (rest : σ) : Option Found × σ :=
  if isAtom mfa.f && env.isNative mfa then (some .bif, rest)
  else
    match env.loadBeam mfa rest with
    | (.ok addr, rest) => (if isAtom mfa.f then some (.beamCode addr) else none, rest)
    | (.error _, rest) => (none, rest)

def undef : CallErr :=
  .exception .error (.atom "undef")

def badarg : CallErr :=
  .exception .error (.atom "badarg")

/-- The return address is saved where nothing is to be deallocated; nothing is deallocated. -/
def fixedApply (mfa : Mfa) (dealloc : Nat) (p : CallProc σ) : CallStep σ :=
  if isApply3 mfa then .panic
  else
    match lookupMfa env mfa p.rest with
    | (none, rest) => .err undef { p with rest }
    | (some (.beamCode addr), rest) =>
        let p := if dealloc = 0 then { p with cp := some p.ip } else p
        .enters { p with ip := addr, rest }
    | (some .bif, rest) =>
        match callNativeFunFn env mfa mfa.arity { p with rest } with
        | none => .panic
        | some (.error e, p) => .err e p
        | some (.ok val, p) => .normal (p.setX 0 val)

/-- The function that an application is of. -/
def appliedMfa (arity : Nat) (p : CallProc σ) : Mfa :=
  ⟨p.x arity, p.x (arity + 1), arity⟩

def apply (arity : Nat) (p : CallProc σ) : CallStep σ :=
  fixedApply env (p.appliedMfa arity) 0 { p with live := arity + 2 }

def applyLast (arity dealloc : Nat) (p : CallProc σ) : CallStep σ :=
  if isAtom (p.x (arity + 1)) then
    fixedApply env (p.appliedMfa arity) dealloc { p with live := arity + 2 }
  else .err badarg p

/-! ## Tail calls and calls -/

/-- A function that was entered runs to its end. -/
def complete : CallStep σ → CallStep σ
  | .enters p =>
      match env.beam p.ip p.x p.rest with
      | .returns x rest => returnOpcode { p with x, rest }
      | .raises e rest => .err e { p with rest }
      | .diverges => .diverges
  | other => other

/-- The next instruction, unless the process stops. -/
def andThen (next : CallProc σ → CallStep σ) (s : CallStep σ) : CallStep σ :=
  match s with
  | .normal p => next p
  | other => other

/-- The return address is saved, the function is called, and then there is a return. -/
def callAndReturn (call : CallProc σ → CallStep σ) (p : CallProc σ) : CallStep σ :=
  andThen (fun p => andThen (fun p => andThen returnOpcode (deallocate 0 p))
    (complete env (call p))) (allocate p)

inductive TailCall where
  | callLast (arity dst dealloc : Nat)
  | callExtOnly (arity : Nat) (dst : CallTarget)
  | callExtLast (arity : Nat) (dst : CallTarget) (dealloc : Nat)
  | applyLast (arity dealloc : Nat)

def perform : TailCall → CallProc σ → CallStep σ
  | .callLast arity dst dealloc => callLast arity dst dealloc
  | .callExtOnly arity dst => callExtOnly env arity dst
  | .callExtLast arity dst dealloc => callExtLast env arity dst dealloc
  | .applyLast arity dealloc => applyLast env arity dealloc

/-- The call that is not a tail call. -/
def plainCall : TailCall → CallProc σ → CallStep σ
  | .callLast arity dst _ => call arity dst
  | .callExtOnly arity dst => callExt env arity dst
  | .callExtLast arity dst _ => callExt env arity dst
  | .applyLast arity _ => apply env arity

/-- The frame is deallocated, and then there is the call and a return. -/
def reference (op : TailCall) (p : CallProc σ) : CallStep σ :=
  match op with
  | .callLast _ _ dealloc | .callExtLast _ _ dealloc | .applyLast _ dealloc =>
      andThen (callAndReturn env (plainCall env op)) (deallocate dealloc p)
  | .callExtOnly _ _ => callAndReturn env (plainCall env op) p

/-- What an exception finds: the stack from the nearest catch tag on. -/
def handlers (stack : List CallWord) : List CallWord :=
  stack.dropWhile fun w => !w.isCatch

/-- The same continuation with the same stack and registers, the same end of the process, or
the same error for the same catch. -/
def SameOutcome : CallStep σ → CallStep σ → Prop
  | .normal p, .normal q =>
      p.ip = q.ip ∧ p.cp = q.cp ∧ p.x = q.x ∧ p.stack = q.stack ∧ p.rest = q.rest
  | .finished p, .finished q => p.x = q.x ∧ p.rest = q.rest
  | .err e p, .err e' q => e = e' ∧ handlers p.stack = handlers q.stack ∧ p.rest = q.rest
  | .panic, .panic => True
  | .diverges, .diverges => True
  | _, _ => False

/-- The tail call comes to what the call and the return come to. -/
def Right (op : TailCall) (p : CallProc σ) : Prop :=
  SameOutcome (complete env (perform env op p)) (reference env op p)

/-! ## Entering and returning -/

variable {env : CodeEnv σ} {p q : CallProc σ}

theorem sameOutcome_return (hcp : p.cp = q.cp) (hstack : p.stack = q.stack) (hx : p.x = q.x)
    (hrest : p.rest = q.rest) : SameOutcome (returnOpcode p) (returnOpcode q) := by
  rw [returnOpcode, returnOpcode, ← hcp, ← hstack]
  cases p.cp with
  | none =>
      cases hempty : p.stack.isEmpty with
      | true => exact ⟨hx, hrest⟩
      | false => trivial
  | some c => exact ⟨rfl, rfl, hx, rfl, hrest⟩

/-- What comes after a call that has put its result in the registers. -/
theorem andThen_return (c : Option Nat) (below : List CallWord)
    (h : p.stack = .cp c :: below) :
    andThen returnOpcode (deallocate 0 p) = returnOpcode { p with cp := c, stack := below } := by
  rw [deallocate, stackDeallocate, h]
  rfl

/-- A function that is entered with the return address of the frame comes to the same as one
that is called above the frame. -/
theorem sameOutcome_enters {call : CallProc σ → CallStep σ} {entered called : CallProc σ}
    (hcall : call { p with stack := .cp p.cp :: p.stack } = .enters called)
    (hip : entered.ip = called.ip) (hx : entered.x = called.x)
    (hrest : entered.rest = called.rest) (hcp : entered.cp = p.cp)
    (hstack : entered.stack = p.stack) (hback : called.cp = some p.ip)
    (habove : called.stack = .cp p.cp :: p.stack) :
    SameOutcome (complete env (.enters entered)) (callAndReturn env call p) := by
  rw [callAndReturn, allocate, andThen, hcall, complete, complete, hip, hx, hrest]
  cases env.beam called.ip called.x called.rest with
  | diverges => trivial
  | raises e rest =>
      refine ⟨rfl, ?_, rfl⟩
      rw [hstack, habove]
      rfl
  | returns x rest =>
      have hreturn : returnOpcode { called with x, rest } =
          .normal { called with x, rest, ip := p.ip, cp := none } := by
        rw [returnOpcode, hback]
      dsimp only
      rw [hreturn]
      change SameOutcome _ (andThen returnOpcode (deallocate 0 _))
      rw [andThen_return (p := { called with x, rest, ip := p.ip, cp := none }) p.cp p.stack
        habove]
      exact sameOutcome_return hcp hstack rfl rfl

theorem complete_returnOpcode (p : CallProc σ) :
    complete env (returnOpcode p) = returnOpcode p := by
  rw [returnOpcode]
  cases p.cp with
  | none => cases p.stack.isEmpty <;> rfl
  | some c => rfl

/-- The process with its return address saved. -/
def saved (p : CallProc σ) : CallProc σ :=
  { p with stack := .cp p.cp :: p.stack }

section CallAndReturn

variable {call : CallProc σ → CallStep σ} {called : CallProc σ}

theorem callAndReturn_normal (hcall : complete env (call p.saved) = .normal called)
    (habove : called.stack = .cp p.cp :: p.stack) :
    callAndReturn env call p = returnOpcode { called with cp := p.cp, stack := p.stack } := by
  rw [callAndReturn, allocate, andThen, ← saved, hcall]
  exact andThen_return p.cp p.stack habove

theorem callAndReturn_err {e : CallErr} (hcall : complete env (call p.saved) = .err e called) :
    callAndReturn env call p = .err e called := by
  rw [callAndReturn, allocate, andThen, ← saved, hcall]
  rfl

theorem callAndReturn_panic (hcall : complete env (call p.saved) = .panic) :
    callAndReturn env call p = .panic := by
  rw [callAndReturn, allocate, andThen, ← saved, hcall]
  rfl

theorem callAndReturn_diverges (hcall : complete env (call p.saved) = .diverges) :
    callAndReturn env call p = .diverges := by
  rw [callAndReturn, allocate, andThen, ← saved, hcall]
  rfl

end CallAndReturn

/-! ## External calls -/

variable (env) in
/-- The target is a native function, and fails. -/
def NativeFails (mfa : Mfa) (arity : Nat) (p : CallProc σ) : Prop :=
  env.isNative mfa = true ∧ arity < 4 ∧ ∃ e, (env.native mfa (p.args arity) p.rest).1 = .error e

theorem callNativeFunFn_of_lt {mfa : Mfa} {arity : Nat} (harity : arity < 4)
    (p : CallProc σ) :
    callNativeFunFn env mfa arity p = some ((env.native mfa (p.args arity) p.rest).1,
      { p with rest := (env.native mfa (p.args arity) p.rest).2 }) :=
  if_pos harity

theorem sameOutcome_native {mfa : Mfa} (arity : Nat) (hnative : env.isNative mfa = true) :
    SameOutcome (complete env (genericCallExt env (.imported mfa) arity false p))
        (callAndReturn env (callExt env arity (.imported mfa)) p) ↔
      (p.cp = none → ¬ NativeFails env mfa arity p) := by
  have hargs : args { p with live := arity } arity = p.args arity := rfl
  have hcalled : args { p.saved with live := arity } arity = p.args arity := rfl
  unfold NativeFails
  by_cases harity : arity < 4
  · cases hresult : env.native mfa (p.args arity) p.rest with
    | mk result rest =>
        cases result with
        | ok val =>
            have htail : genericCallExt env (.imported mfa) arity false p =
                returnOpcode (setX { p with live := arity, rest } 0 val) := by
              simp only [genericCallExt, hnative, if_true, findAndCallNativeFun,
                callNativeFunFn_of_lt harity, hargs, hresult]
              rfl
            have hcall : callExt env arity (.imported mfa) p.saved =
                .normal (setX { p.saved with live := arity, rest } 0 val) := by
              simp only [callExt, genericCallExt, hnative, if_true, findAndCallNativeFun,
                callNativeFunFn_of_lt harity, hcalled]
              rw [show p.saved.rest = p.rest from rfl, hresult]
            rw [htail, complete_returnOpcode, callAndReturn_normal (congrArg (complete env) hcall) rfl]
            refine iff_of_true (sameOutcome_return rfl rfl rfl rfl) ?_
            rintro _ ⟨_, _, e, he⟩
            cases he
        | error e =>
            have hcall : callExt env arity (.imported mfa) p.saved =
                .err e { p.saved with live := arity, rest } := by
              simp only [callExt, genericCallExt, hnative, if_true, findAndCallNativeFun,
                callNativeFunFn_of_lt harity, hcalled]
              rw [show p.saved.rest = p.rest from rfl, hresult]
            have htail : genericCallExt env (.imported mfa) arity false p =
                match returnOpcode { p with live := arity, rest } with
                | .normal p => .err e p
                | other => other := by
              simp only [genericCallExt, hnative, if_true, findAndCallNativeFun,
                callNativeFunFn_of_lt harity, hargs, hresult]
              rfl
            rw [callAndReturn_err (congrArg (complete env) hcall), htail, returnOpcode]
            cases hcp : p.cp with
            | some c =>
                refine iff_of_true ⟨rfl, rfl, rfl⟩ ?_
                intro hnone
                cases hnone
            | none =>
                refine iff_of_false ?_ (fun h => h rfl ⟨hnative, harity, e, rfl⟩)
                cases p.stack.isEmpty with
                | true => exact id
                | false => exact id
  · have htail : genericCallExt env (.imported mfa) arity false p = .panic := by
      simp only [genericCallExt, hnative, if_true, findAndCallNativeFun, callNativeFunFn,
        if_neg harity]
      rfl
    have hcall : callExt env arity (.imported mfa) p.saved = .panic := by
      simp only [callExt, genericCallExt, hnative, if_true, findAndCallNativeFun,
        callNativeFunFn, if_neg harity]
    rw [htail, callAndReturn_panic (congrArg (complete env) hcall)]
    exact iff_of_true trivial (fun _ hfails => harity hfails.2.1)

/-- An external tail call goes wrong when a native function fails and there is no return
address. -/
theorem sameOutcome_ext (arity : Nat) (dst : CallTarget) :
    SameOutcome (complete env (genericCallExt env dst arity false p))
        (callAndReturn env (callExt env arity dst) p) ↔
      ∀ mfa, dst = .imported mfa → p.cp = none → ¬ NativeFails env mfa arity p := by
  cases dst with
  | other t =>
      have hcall : callExt env arity (.other t) p.saved =
          .err (env.badfun t p.rest).1
            { p.saved with live := arity, rest := (env.badfun t p.rest).2 } := rfl
      rw [callAndReturn_err (congrArg (complete env) hcall)]
      refine iff_of_true ⟨rfl, rfl, rfl⟩ ?_
      intro mfa hmfa
      cases hmfa
  | imported mfa =>
      simp only [CallTarget.imported.injEq, forall_eq']
      cases hnative : env.isNative mfa with
      | true => exact sameOutcome_native arity hnative
      | false =>
          have hnot : ¬ NativeFails env mfa arity p := by
            rintro ⟨hyes, _⟩
            rw [hnative] at hyes
            cases hyes
          refine iff_of_true ?_ (fun _ => hnot)
          cases hload : env.loadBeam mfa p.rest with
          | mk result rest =>
              cases result with
              | error e =>
                  have htail : genericCallExt env (.imported mfa) arity false p =
                      .err e { p with live := arity, rest } := by
                    simp only [genericCallExt, hnative, hload, Bool.false_eq_true, if_false]
                  have hcall : callExt env arity (.imported mfa) p.saved =
                      .err e { p.saved with live := arity, cp := some p.ip, rest } := by
                    simp only [callExt, genericCallExt, hnative, Bool.false_eq_true, if_false,
                      if_true, show p.saved.rest = p.rest from rfl, hload]
                    rfl
                  rw [htail, callAndReturn_err (congrArg (complete env) hcall)]
                  exact ⟨rfl, rfl, rfl⟩
              | ok addr =>
                  have htail : genericCallExt env (.imported mfa) arity false p =
                      .enters { p with live := arity, ip := addr, rest } := by
                    simp only [genericCallExt, hnative, hload, Bool.false_eq_true, if_false]
                  have hcall : callExt env arity (.imported mfa) p.saved =
                      .enters { p.saved with
                        live := arity, cp := some p.ip, ip := addr, rest } := by
                    simp only [callExt, genericCallExt, hnative, Bool.false_eq_true, if_false,
                      if_true, show p.saved.rest = p.rest from rfl, hload]
                    rfl
                  rw [htail]
                  exact sameOutcome_enters hcall rfl rfl rfl rfl rfl rfl rfl

/-! ## Applications -/

/-- How the target of an application ends. -/
inductive Ending where
  | returnsNative
  | returnsBeam
  | raises
  | diverges
  /-- The emulator panics. -/
  | panics
deriving DecidableEq

variable (env) in
def ending (mfa : Mfa) (p : CallProc σ) : Ending :=
  if isApply3 mfa then .panics
  else if env.isNative mfa then
    if mfa.arity < 4 then
      match (env.native mfa (p.args mfa.arity) p.rest).1 with
      | .ok _ => .returnsNative
      | .error _ => .raises
    else .panics
  else
    match env.loadBeam mfa p.rest with
    | (.error _, _) => .raises
    | (.ok addr, rest) =>
        match env.beam addr p.x rest with
        | .returns _ _ => .returnsBeam
        | .raises _ _ => .raises
        | .diverges => .diverges

section FixedApply

variable {mfa : Mfa}

theorem args_congr (hx : q.x = p.x) (arity : Nat) : q.args arity = p.args arity := by
  rw [args, args, hx]

theorem lookupMfa_native (hatom : isAtom mfa.f = true) (hnative : env.isNative mfa = true)
    (rest : σ) : lookupMfa env mfa rest = (some .bif, rest) := by
  rw [lookupMfa, hatom, hnative]
  rfl

theorem lookupMfa_beam (hatom : isAtom mfa.f = true) (hnative : env.isNative mfa = false)
    {rest rest' : σ} {addr : Nat} (hload : env.loadBeam mfa rest = (.ok addr, rest')) :
    lookupMfa env mfa rest = (some (.beamCode addr), rest') := by
  rw [lookupMfa, hatom, hnative, hload]
  rfl

theorem lookupMfa_undef (hnative : env.isNative mfa = false)
    {rest rest' : σ} {e : CallErr} (hload : env.loadBeam mfa rest = (.error e, rest')) :
    lookupMfa env mfa rest = (none, rest') := by
  rw [lookupMfa, hnative, Bool.and_false, hload]
  rfl

variable (env p) in
/-- What an application comes to, wherever the registers and the rest are the same. -/
theorem fixedApply_spec (hatom : isAtom mfa.f = true) :
    match ending env mfa p with
    | .returnsNative => ∃ val rest, ∀ (dealloc : Nat) (q : CallProc σ), q.x = p.x →
        q.rest = p.rest → fixedApply env mfa dealloc q = .normal (setX { q with rest } 0 val)
    | .returnsBeam => ∃ addr x rest, ∀ (dealloc : Nat) (q : CallProc σ), q.x = p.x →
        q.rest = p.rest → complete env (fixedApply env mfa dealloc q) = returnOpcode
          { q with ip := addr, cp := if dealloc = 0 then some q.ip else q.cp, x, rest }
    | .raises => ∃ e rest, ∀ (dealloc : Nat) (q : CallProc σ), q.x = p.x → q.rest = p.rest →
        ∃ q' : CallProc σ, complete env (fixedApply env mfa dealloc q) = .err e q' ∧
          q'.stack = q.stack ∧ q'.rest = rest
    | .diverges => ∀ (dealloc : Nat) (q : CallProc σ), q.x = p.x → q.rest = p.rest →
        complete env (fixedApply env mfa dealloc q) = .diverges
    | .panics => ∀ (dealloc : Nat) (q : CallProc σ), fixedApply env mfa dealloc q = .panic := by
  rw [ending]
  by_cases hthree : isApply3 mfa = true
  · rw [if_pos hthree]
    exact fun dealloc q => if_pos hthree
  rw [if_neg hthree]
  cases hnative : env.isNative mfa with
  | true =>
      rw [if_pos rfl]
      by_cases harity : mfa.arity < 4
      · rw [if_pos harity]
        have happly : ∀ (dealloc : Nat) (q : CallProc σ), q.x = p.x → q.rest = p.rest →
            fixedApply env mfa dealloc q =
              match env.native mfa (p.args mfa.arity) p.rest with
              | (.ok val, rest) => .normal (setX { q with rest } 0 val)
              | (.error e, rest) => .err e { q with rest } := by
          intro dealloc q hx hrest
          rw [fixedApply, if_neg hthree, hrest, lookupMfa_native hatom hnative]
          simp only [callNativeFunFn_of_lt harity]
          rw [args_congr (q := { q with rest := p.rest }) hx]
          rcases env.native mfa (p.args mfa.arity) p.rest with ⟨_ | _, rest⟩ <;> rfl
        cases hresult : env.native mfa (p.args mfa.arity) p.rest with
        | mk result rest =>
            rw [hresult] at happly
            cases result with
            | ok val => exact ⟨val, rest, happly⟩
            | error e =>
                refine ⟨e, rest, fun dealloc q hx hrest => ⟨{ q with rest }, ?_, rfl, rfl⟩⟩
                rw [happly dealloc q hx hrest]
                rfl
      · rw [if_neg harity]
        intro dealloc q
        rw [fixedApply, if_neg hthree, lookupMfa_native hatom hnative]
        simp only [callNativeFunFn, if_neg harity]
  | false =>
      rw [if_neg Bool.false_ne_true]
      cases hload : env.loadBeam mfa p.rest with
      | mk result rest =>
          cases result with
          | error e =>
              refine ⟨undef, rest, fun dealloc q _ hrest => ⟨{ q with rest }, ?_, rfl, rfl⟩⟩
              rw [fixedApply, if_neg hthree, hrest, lookupMfa_undef hnative hload]
              rfl
          | ok addr =>
              have happly : ∀ (dealloc : Nat) (q : CallProc σ), q.rest = p.rest →
                  fixedApply env mfa dealloc q = .enters { q with
                    ip := addr, cp := if dealloc = 0 then some q.ip else q.cp, rest } := by
                intro dealloc q hrest
                rw [fixedApply, if_neg hthree, hrest, lookupMfa_beam hatom hnative hload]
                cases dealloc <;> simp
              dsimp only
              cases hbeam : env.beam addr p.x rest with
              | returns x rest' =>
                  refine ⟨addr, x, rest', fun dealloc q hx hrest => ?_⟩
                  simp [happly dealloc q hrest, complete, hx, hbeam]
              | raises e rest' =>
                  refine ⟨e, rest', fun dealloc q hx hrest => ⟨{ q with
                    ip := addr, cp := if dealloc = 0 then some q.ip else q.cp, rest := rest' },
                    ?_, rfl, rfl⟩⟩
                  simp [happly dealloc q hrest, complete, hx, hbeam]
              | diverges =>
                  intro dealloc q hx hrest
                  simp [happly dealloc q hrest, complete, hx, hbeam]

end FixedApply

/-! ## Deallocating -/

theorem stackDeallocate_some {n : Nat} {c : Option Nat} (h : p.stackDeallocate n = some (c, q)) :
    ∃ ys, p.stack = .cp c :: (ys ++ q.stack) ∧ ys.length = n ∧
      q = { p with stack := q.stack } := by
  rw [stackDeallocate] at h
  split at h
  next c' rest hstack =>
    split at h
    next hlt =>
      cases h
      rw [hstack, List.length_cons] at hlt
      refine ⟨rest.take n, ?_, List.length_take_of_le (by omega), rfl⟩
      simp only [hstack, List.drop_succ_cons, List.take_append_drop]
    next => cases h
  next => cases h

theorem stackDeallocate_live {n : Nat} {c : Option Nat} (h : p.stackDeallocate n = some (c, q))
    (live : Nat) : stackDeallocate { p with live } n = some (c, { q with live }) := by
  rw [stackDeallocate] at h ⊢
  split at h
  next c' rest hstack =>
    rw [hstack] at h ⊢
    split at h
    next hlt =>
      cases h
      exact if_pos hlt
    next => cases h
  next => cases h

/-- No word of the frame is a catch tag. -/
def PlainFrame (p : CallProc σ) (dealloc : Nat) : Prop :=
  ∀ w ∈ p.stack.take (dealloc + 1), w.isCatch = false

/-- An exception finds the same through the frame and without it when the frame is plain. -/
theorem handlers_frame_iff {n : Nat} {c : Option Nat} (h : p.stackDeallocate n = some (c, q)) :
    handlers p.stack = handlers q.stack ↔ p.PlainFrame n := by
  obtain ⟨ys, hstack, rfl, _⟩ := stackDeallocate_some h
  have htake : p.stack.take (ys.length + 1) = .cp c :: ys := by
    rw [hstack, List.take_succ_cons, List.take_left]
  have hplain : p.PlainFrame ys.length ↔ ∀ w ∈ ys, w.isCatch = false := by
    rw [PlainFrame, htake]
    simp [CallWord.isCatch]
  rw [hplain, hstack, handlers, handlers, List.dropWhile_cons_of_pos rfl, List.dropWhile_append]
  by_cases hys : ∀ w ∈ ys, w.isCatch = false
  · have hempty : ys.dropWhile (fun w => !w.isCatch) = [] := by
      rw [List.dropWhile_eq_nil_iff]
      intro w hw
      rw [hys w hw]
      rfl
    rw [hempty]
    exact iff_of_true rfl hys
  · refine iff_of_false ?_ hys
    have hne : ys.dropWhile (fun w => !w.isCatch) ≠ [] := by
      rw [Ne, List.dropWhile_eq_nil_iff]
      intro hall
      exact hys fun w hw => by simpa using hall w hw
    have hpos := List.length_pos_iff.mpr hne
    rw [if_neg (by simpa using hne)]
    intro heq
    have hlength := congrArg List.length heq
    have hle := (List.dropWhile_suffix (fun w : CallWord => !w.isCatch) (l := q.stack)).length_le
    rw [List.length_append] at hlength
    omega

/-- The number of words of the frame that the tail call deallocates. -/
def TailCall.dealloc? : TailCall → Option Nat
  | .callLast _ _ dealloc | .callExtLast _ _ dealloc | .applyLast _ dealloc => some dealloc
  | .callExtOnly _ _ => none

theorem reference_noFrame {op : TailCall} {n : Nat} (hop : op.dealloc? = some n)
    (h : p.stackDeallocate n = none) : reference env op p = .panic := by
  cases op with
  | callExtOnly arity dst => cases hop
  | callLast arity dst dealloc | callExtLast arity dst dealloc | applyLast arity dealloc =>
      cases hop
      rw [reference, deallocate, h]
      rfl

theorem reference_frame {op : TailCall} {n : Nat} {c : Option Nat} (hop : op.dealloc? = some n)
    (h : p.stackDeallocate n = some (c, q)) :
    reference env op p = callAndReturn env (plainCall env op) { q with cp := c } := by
  cases op with
  | callExtOnly arity dst => cases hop
  | callLast arity dst dealloc | callExtLast arity dst dealloc | applyLast arity dealloc =>
      cases hop
      rw [reference, deallocate, h]
      rfl

/-! ## When a tail call is right -/

variable (env) in
/-- A function of BEAM code returns to a null address with words on the stack. -/
def NullReturn (mfa : Mfa) (dealloc : Nat) (p : CallProc σ) : Prop :=
  ending env mfa p = .returnsBeam ∧ dealloc ≠ 0 ∧ p.cp = none ∧ p.stack ≠ []

variable (env) in
/-- The application comes to what it should, although nothing was deallocated. -/
def ApplyHolds (mfa : Mfa) (dealloc : Nat) (p : CallProc σ) : Prop :=
  match p.stackDeallocate dealloc with
  -- there is no frame: both panic
  | none => ending env mfa p = .panics ∨ NullReturn env mfa dealloc p
  | some (c, q) =>
      ending env mfa p = .panics ∨ ending env mfa p = .diverges ∨
        ending env mfa p = .raises ∧ p.PlainFrame dealloc ∨
        NullReturn env mfa dealloc p ∧ c = none ∧ q.stack ≠ []

variable (env) in
/-- When a tail call comes to what the call comes to. -/
def Holds (op : TailCall) (p : CallProc σ) : Prop :=
  match op with
  | .callLast _ _ _ => True
  | .callExtOnly arity dst =>
      ∀ mfa, dst = .imported mfa → p.cp = none → ¬ NativeFails env mfa arity p
  | .callExtLast arity dst dealloc =>
      ∀ mfa q, dst = .imported mfa → p.stackDeallocate dealloc = some (none, q) →
        ¬ NativeFails env mfa arity p
  | .applyLast arity dealloc =>
      isAtom (p.x (arity + 1)) = true ∧ ApplyHolds env (p.appliedMfa arity) dealloc p

theorem right_callLast (arity dst dealloc : Nat) : Right env (.callLast arity dst dealloc) p := by
  rw [Right, perform, callLast]
  cases h : p.stackDeallocate dealloc with
  | none =>
      rw [reference_noFrame rfl h]
      trivial
  | some r =>
      obtain ⟨c, q⟩ := r
      rw [reference_frame rfl h]
      exact sameOutcome_enters rfl rfl rfl rfl rfl rfl rfl rfl

theorem right_callExtLast_iff (arity : Nat) (dst : CallTarget) (dealloc : Nat) :
    Right env (.callExtLast arity dst dealloc) p ↔ Holds env (.callExtLast arity dst dealloc) p := by
  rw [Right, perform, callExtLast, Holds]
  cases h : p.stackDeallocate dealloc with
  | none =>
      rw [reference_noFrame rfl h]
      refine iff_of_true trivial ?_
      intro mfa q _ hq
      cases hq
  | some r =>
      obtain ⟨c, q⟩ := r
      rw [reference_frame rfl h]
      refine (sameOutcome_ext arity dst).trans ?_
      obtain ⟨_, _, _, hq⟩ := stackDeallocate_some h
      have hfails : ∀ mfa, NativeFails env mfa arity { q with cp := c } ↔
          NativeFails env mfa arity p := by
        intro mfa
        rw [hq]
        exact Iff.rfl
      constructor
      · intro hall mfa q' hdst hc
        cases hc
        rw [← hfails]
        exact hall mfa hdst rfl
      · intro hall mfa hdst hc
        rw [hfails]
        cases hc
        exact hall mfa q hdst rfl

theorem isAtomNamed_noAtom {t : Term} (hatom : isAtom t = false) (name : String) :
    isAtomNamed name t = false := by
  cases t with
  | atom other => cases hatom
  | _ => rfl

/-- The function name is no atom: `apply_last` fails at once, `apply` does not find it. -/
theorem applyLast_noAtom (arity dealloc : Nat) (hatom : isAtom (p.x (arity + 1)) = false) :
    ¬ Right env (.applyLast arity dealloc) p := by
  intro hright
  rw [Right, perform, applyLast, hatom] at hright
  cases h : p.stackDeallocate dealloc with
  | none =>
      rw [reference_noFrame rfl h] at hright
      exact hright
  | some r =>
      obtain ⟨c, q⟩ := r
      rw [reference_frame rfl h] at hright
      obtain ⟨_, _, _, hq⟩ := stackDeallocate_some h
      have hthree : ¬ isApply3 (p.appliedMfa arity) = true := by
        rw [isApply3, show (p.appliedMfa arity).f = p.x (arity + 1) from rfl,
          isAtomNamed_noAtom hatom]
        simp
      have hlookup : ∃ rest, lookupMfa env (p.appliedMfa arity) q.rest = (none, rest) := by
        rw [lookupMfa, show (p.appliedMfa arity).f = p.x (arity + 1) from rfl, hatom]
        cases env.loadBeam (p.appliedMfa arity) q.rest with
        | mk result rest =>
            refine ⟨rest, ?_⟩
            cases result <;> rfl
      obtain ⟨rest, hlookup⟩ := hlookup
      have happlied : appliedMfa arity { q with cp := c } = p.appliedMfa arity := by
        rw [hq]
        rfl
      have hcall : apply env arity (saved { q with cp := c }) =
          .err undef { saved { q with cp := c } with live := arity + 2, rest } := by
        rw [apply, show appliedMfa arity (saved { q with cp := c }) = _ from happlied, fixedApply,
          if_neg hthree]
        simp only [saved, hlookup]
      rw [plainCall, callAndReturn_err (congrArg (complete env) hcall)] at hright
      exact absurd (Term.atom.inj (CallErr.exception.inj hright.1).2) (by decide)

section Application

variable {arity dealloc : Nat}

/-- There is no frame: the call panics before it is made. -/
theorem sameOutcome_noFrame {mfa : Mfa} (hatom : isAtom mfa.f = true) :
    SameOutcome (complete env (fixedApply env mfa dealloc p)) .panic ↔
      ending env mfa p = .panics ∨ NullReturn env mfa dealloc p := by
  have hspec := fixedApply_spec env p hatom
  cases hend : ending env mfa p with
  | panics =>
      rw [hend] at hspec
      rw [hspec dealloc p]
      exact iff_of_true trivial (.inl rfl)
  | diverges =>
      rw [hend] at hspec
      rw [hspec dealloc p rfl rfl]
      exact iff_of_false id (by simp [NullReturn, hend])
  | raises =>
      rw [hend] at hspec
      obtain ⟨e, rest, happly⟩ := hspec
      obtain ⟨q', heq, _⟩ := happly dealloc p rfl rfl
      rw [heq]
      exact iff_of_false id (by simp [NullReturn, hend])
  | returnsNative =>
      rw [hend] at hspec
      obtain ⟨val, rest, happly⟩ := hspec
      rw [happly dealloc p rfl rfl]
      exact iff_of_false id (by simp [NullReturn, hend])
  | returnsBeam =>
      rw [hend] at hspec
      obtain ⟨addr, x, rest, happly⟩ := hspec
      rw [happly dealloc p rfl rfl, returnOpcode, NullReturn, hend]
      by_cases hzero : dealloc = 0
      · simp [hzero, SameOutcome]
      · cases hcp : p.cp with
        | some c => simp [hzero, SameOutcome]
        | none => cases hstack : p.stack <;> simp [hzero, SameOutcome]

/-- A return with too much on the stack comes to what the right one does only when both
panic. -/
theorem sameOutcome_returns_iff {kept right : CallProc σ} (hsome : kept.stack ≠ [])
    (hne : kept.stack ≠ right.stack) :
    SameOutcome (returnOpcode kept) (returnOpcode right) ↔
      kept.cp = none ∧ right.cp = none ∧ right.stack ≠ [] := by
  rw [returnOpcode, returnOpcode]
  cases hkept : kept.cp with
  | some c =>
      refine iff_of_false ?_ (fun h => nomatch h.1)
      cases hright : right.cp with
      | some c' => exact fun hsame => hne hsame.2.2.2.1
      | none => cases right.stack.isEmpty <;> exact id
  | none =>
      have hnot : kept.stack.isEmpty = false := by simpa using hsome
      simp only [hnot, Bool.false_eq_true, if_false]
      cases hright : right.cp with
      | some c' => exact iff_of_false id (fun h => nomatch h.2.1)
      | none => cases hempty : right.stack <;> simp [SameOutcome]

theorem not_sameOutcome_normal_return {kept right : CallProc σ}
    (hne : kept.stack ≠ right.stack) : ¬ SameOutcome (.normal kept) (returnOpcode right) := by
  rw [returnOpcode]
  cases right.cp with
  | some c => exact fun hsame => hne hsame.2.2.2.1
  | none => cases right.stack.isEmpty <;> exact id

/-- The call is made above the stack without the frame, and the tail call on the stack with
it. -/
theorem sameOutcome_frame {mfa : Mfa} {call : CallProc σ → CallStep σ} {base above : CallProc σ}
    (hatom : isAtom mfa.f = true) (hcall : call base.saved = fixedApply env mfa 0 above)
    (hx : above.x = p.x) (hrest : above.rest = p.rest)
    (habove : above.stack = .cp base.cp :: base.stack)
    (h : p.stackDeallocate dealloc = some (base.cp, q)) (hbase : base.stack = q.stack) :
    SameOutcome (complete env (fixedApply env mfa dealloc p)) (callAndReturn env call base) ↔
      ending env mfa p = .panics ∨ ending env mfa p = .diverges ∨
        ending env mfa p = .raises ∧ p.PlainFrame dealloc ∨
        NullReturn env mfa dealloc p ∧ base.cp = none ∧ base.stack ≠ [] := by
  have hlonger : p.stack ≠ [] ∧ p.stack ≠ base.stack := by
    obtain ⟨ys, hstack, _⟩ := stackDeallocate_some h
    rw [hbase]
    refine ⟨by simp [hstack], fun heq => ?_⟩
    have hlength := congrArg List.length (hstack.symm.trans heq)
    rw [List.length_cons, List.length_append] at hlength
    omega
  have hcomplete := congrArg (complete env) hcall
  have hspec := fixedApply_spec env p hatom
  cases hend : ending env mfa p with
  | panics =>
      rw [hend] at hspec
      rw [hspec 0 above] at hcomplete
      rw [callAndReturn_panic hcomplete, hspec dealloc p]
      exact iff_of_true trivial (.inl rfl)
  | diverges =>
      rw [hend] at hspec
      rw [hspec 0 above hx hrest] at hcomplete
      rw [callAndReturn_diverges hcomplete, hspec dealloc p rfl rfl]
      exact iff_of_true trivial (.inr (.inl rfl))
  | raises =>
      rw [hend] at hspec
      obtain ⟨e, rest, happly⟩ := hspec
      obtain ⟨called, hcalled, hstackCalled, hrestCalled⟩ := happly 0 above hx hrest
      obtain ⟨kept, hkept, hstackKept, hrestKept⟩ := happly dealloc p rfl rfl
      rw [callAndReturn_err (hcomplete.trans hcalled), hkept]
      have hhandlers : handlers called.stack = handlers q.stack := by
        rw [hstackCalled, habove, ← hbase]
        rfl
      simp only [SameOutcome, hhandlers, hstackKept, hrestKept, hrestCalled,
        handlers_frame_iff h, NullReturn, hend]
      simp
  | returnsNative =>
      rw [hend] at hspec
      obtain ⟨val, rest, happly⟩ := hspec
      rw [happly 0 above hx hrest] at hcomplete
      rw [callAndReturn_normal hcomplete habove, happly dealloc p rfl rfl]
      refine iff_of_false ?_ (by simp [NullReturn, hend])
      exact not_sameOutcome_normal_return hlonger.2
  | returnsBeam =>
      rw [hend] at hspec
      obtain ⟨addr, x, rest, happly⟩ := hspec
      rw [happly 0 above hx hrest, if_pos rfl] at hcomplete
      rw [callAndReturn_normal hcomplete habove, happly dealloc p rfl rfl]
      refine Iff.trans (sameOutcome_returns_iff ?_ ?_) ?_
      · exact hlonger.1
      · exact hlonger.2
      rw [NullReturn, hend]
      by_cases hzero : dealloc = 0 <;> simp [hzero, hlonger.1]

/-- What an application comes to, and what it does without deallocating. -/
theorem right_applyLast_iff (arity dealloc : Nat) :
    Right env (.applyLast arity dealloc) p ↔ Holds env (.applyLast arity dealloc) p := by
  rw [Holds]
  cases hatom : isAtom (p.x (arity + 1)) with
  | false => exact iff_of_false (applyLast_noAtom arity dealloc hatom) (fun h => nomatch h.1)
  | true =>
      rw [Right, perform, applyLast, hatom, if_pos rfl, ApplyHolds]
      simp only [true_and]
      have hf : isAtom (p.appliedMfa arity).f = true := hatom
      cases h : p.stackDeallocate dealloc with
      | none =>
          rw [reference_noFrame rfl h]
          exact sameOutcome_noFrame (p := { p with live := arity + 2 }) hf
      | some r =>
          obtain ⟨c, q⟩ := r
          rw [reference_frame rfl h]
          obtain ⟨_, _, _, hq⟩ := stackDeallocate_some h
          have happlied : appliedMfa arity { q with cp := c } = p.appliedMfa arity := by
            rw [hq]
            rfl
          have hcall : apply env arity (saved { q with cp := c }) =
              fixedApply env (p.appliedMfa arity) 0
                { saved { q with cp := c } with live := arity + 2 } := by
            rw [apply, show appliedMfa arity (saved { q with cp := c }) = _ from happlied]
          refine sameOutcome_frame hf hcall ?_ ?_ rfl (stackDeallocate_live h (arity + 2)) rfl
          · rw [hq]
            rfl
          · rw [hq]
            rfl

end Application

/-- A tail call comes to what the call and the return come to: always for BEAM code of the
same module; for an external call unless a native function fails below a null return address;
for an application only when nothing returns to the frame that is still on the stack. -/
theorem right_iff_holds (op : TailCall) : Right env op p ↔ Holds env op p := by
  cases op with
  | callLast arity dst dealloc => exact iff_of_true (right_callLast arity dst dealloc) trivial
  | callExtOnly arity dst => exact sameOutcome_ext arity dst
  | callExtLast arity dst dealloc => exact right_callExtLast_iff arity dst dealloc
  | applyLast arity dealloc => exact right_applyLast_iff arity dealloc

/-! Two native functions, `erlang:error/1` and `erlang:self/0`. -/

def nativeErlang (mfa : Mfa) (args : List Term) (rest : Unit) : Except CallErr Term × Unit :=
  if isAtomNamed "error" mfa.f then (.error (.exception .error (args.headD .nil)), rest)
  else (.ok (.localPid 1), rest)

def erlangOnly : CodeEnv Unit where
  isNative mfa := isAtomNamed "erlang" mfa.m
  native := nativeErlang
  loadBeam _ rest := (.error (.other "module not found"), rest)
  beam _ x rest := .returns x rest
  badfun t rest := (.exception .error t, rest)

/-- With the module and the function of an application in the first registers. -/
def applying (f : String) (stack : List CallWord) : CallProc Unit where
  ip := 10
  cp := none
  x n := if n = 0 then .atom "erlang" else .atom f
  live := 2
  stack := stack
  rest := ()

/-- `erlang:error/1` ends the process as if it had returned, and after `erlang:self/0` the
code behind `apply_last` runs. -/
theorem not_right_tailCalls :
    ¬ Right erlangOnly (.callExtOnly 1 (.imported ⟨.atom "erlang", .atom "error", 1⟩))
        (applying "error" []) ∧
      ¬ Right erlangOnly (.applyLast 0 0) (applying "self" [.cp (some 20)]) := by
  refine ⟨fun hright => ?_, fun hright => ?_⟩
  · exact hright
  · exact absurd hright.1 (by decide)

end CallProc

end Zeptobeam
