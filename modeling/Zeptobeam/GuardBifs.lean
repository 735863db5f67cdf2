/-
Calls of native functions in guards and bodies.  An instruction with a fail label should go on
there when the function raises an exception, and keep the exception to itself; what the native
functions do is a parameter.
-/
import Zeptobeam.TailCalls

namespace Zeptobeam

inductive Register where
  | x (n : Nat)
  | y (n : Nat)
  | fp (n : Nat)
deriving DecidableEq, Repr

/-- An argument: a register or a word that is ready. -/
inductive BifArg where
  | register (r : Register)
  | word (w : StackWord)

/-- A process that calls native functions, with the rest of the machine. -/
structure BifProcess (F σ : Type) extends CatchingProcess where
  live : Nat
  fpregs : Nat → F
  rest : σ

/-- The native functions, and the numbers that a float register can take. -/
structure BifEnv (F σ : Type) where
  debug : Bool
  native : Mfa → Option
    (List StackWord → BifProcess F σ → Except CallErr StackWord × BifProcess F σ)
  toFloat : StackWord → Option F

/-- What an instruction returns. -/
inductive BifResult (F σ : Type) where
  | normal (p : BifProcess F σ)
  | err (e : CallErr) (p : BifProcess F σ)
  | panic

/-- The instructions.  Without a fail label the word is `NIL`. -/
inductive BifOp where
  | bif0 (target : CallTarget) (dst : Option Register)
  | bif1 (fail : Option Nat) (target : CallTarget) (arg : BifArg) (dst : Option Register)
  | bif2 (fail : Option Nat) (target : CallTarget) (arg1 arg2 : BifArg) (dst : Option Register)
  | gcBif1 (fail : Option Nat) (live : Nat) (target : CallTarget) (arg : BifArg)
      (dst : Option Register)
  | gcBif2 (fail : Option Nat) (live : Nat) (target : CallTarget) (arg1 arg2 : BifArg)
      (dst : Option Register)
  | gcBif3 (fail : Option Nat) (live : Nat) (target : CallTarget) (arg1 arg2 arg3 : BifArg)
      (dst : Option Register)

namespace BifProcess

variable {F σ : Type}

/-! ## Registers -/

/-- `get_y`, which is unwrapped. -/
def getY (debug : Bool) (p : BifProcess F σ) (index : Nat) : Option StackWord :=
  match p.stack[index + 1]? with
  | none => none
  | some w => if debug && w.isNonValue then none else some w

def load (debug : Bool) (p : BifProcess F σ) : BifArg → Option StackWord
  | .word w => some w
  | .register (.x n) => if debug && (p.x n).isNonValue then none else some (p.x n)
  | .register (.y n) => p.getY debug n
  | .register (.fp _) => none

variable (env : BifEnv F σ)

def storeValue (val : StackWord) (dst : Register) (p : BifProcess F σ) : BifResult F σ :=
  match dst with
  | .x n => .normal { p with toCatchingProcess := p.setX n val }
  | .y n =>
      match p.setY n val with
      | .ok q => .normal { p with toCatchingProcess := q }
      | .error (.stackIndexRange _) => .err (.other "StackIndexRange") p
      | .error (.panic _) => .panic
  | .fp n =>
      match env.toFloat val with
      | some f => .normal { p with fpregs := Function.update p.fpregs n f }
      | none => .panic

/-! ## The call -/

/-- `callbif_resolve_import`: an error that ends the dispatch loop, a failed assertion, or the
function. -/
def callbifResolveImport (target : CallTarget) (checkArity : Nat) :
    Option (Except CallErr
      (List StackWord → BifProcess F σ → Except CallErr StackWord × BifProcess F σ)) :=
  match target with
  | .other _ => some (.error (.other "TermIsNotABoxed"))
  | .imported mfa =>
      if mfa.arity ≠ checkArity then none
      else
        match env.native mfa with
        | some f => some (.ok f)
        | none => some (.error (.other "BifNotFound"))

/-- `call_native_fun_fn`: the arguments are loaded first. -/
def callNativeFunFn
    (f : List StackWord → BifProcess F σ → Except CallErr StackWord × BifProcess F σ)
    (args : List BifArg) (p : BifProcess F σ) :
    Option (Except CallErr StackWord × BifProcess F σ) :=
  if args.length < 4 then (args.mapM (p.load env.debug)).map fun loaded => f loaded p else none

/-- `find_and_call_native_fun`. -/
def findAndCallNativeFun (failLabel : Option Nat) (target : CallTarget) (args : List BifArg)
    (dst : Option Register) (p : BifProcess F σ) : BifResult F σ :=
  match callbifResolveImport env target args.length with
  | none => .panic
  | some (.error e) => .err e p
  | some (.ok f) =>
      match callNativeFunFn env f args p with
      | none => .panic
      | some (.error (.exception class_ reason), p) =>
          -- the jump is made, and the error is passed on
          match failLabel with
          | some label => .err (.exception class_ reason) { p with ip := label }
          | none => .err (.exception class_ reason) p
      | some (.error e, p) => .err e p
      | some (.ok val, p) =>
          match dst with
          | none => .normal p
          | some dst => storeValue env val dst p

def run (p : BifProcess F σ) : BifOp → BifResult F σ
  | .bif0 target dst => findAndCallNativeFun env none target [] dst p
  | .bif1 fail target arg dst => findAndCallNativeFun env fail target [arg] dst p
  | .bif2 fail target arg1 arg2 dst => findAndCallNativeFun env fail target [arg1, arg2] dst p
  | .gcBif1 fail live target arg dst =>
      findAndCallNativeFun env fail target [arg] dst { p with live }
  | .gcBif2 fail live target arg1 arg2 dst =>
      findAndCallNativeFun env fail target [arg1, arg2] dst { p with live }
  | .gcBif3 fail live target arg1 arg2 arg3 dst =>
      findAndCallNativeFun env fail target [arg1, arg2, arg3] dst { p with live }

end BifProcess

/-! ## The dispatch loop and the scheduler -/

/-- After an instruction the loop goes on, or the timeslice ends with an exception, or `dispatch`
returns the error. -/
inductive BifSlice (F σ : Type) where
  | goesOn (p : BifProcess F σ)
  | exception (p : BifProcess F σ)
  | stops (text : String)
  | panics

def BifResult.dispatch {F σ : Type} : BifResult F σ → BifSlice F σ
  | .normal p => .goesOn p
  | .err (.exception class_ reason) p =>
      .exception { p with error := some (class_, reason) }
  | .err (.other text) _ => .stops text
  | .panic => .panics

/-- What the instruction comes to, with the scheduler's handling of an exception. -/
inductive BifOutcome (F σ : Type) where
  | continues (p : BifProcess F σ)
  | terminated
  | stops (text : String)
  | panics

def BifSlice.finalize {F σ : Type} : BifSlice F σ → BifOutcome F σ
  | .goesOn p => .continues p
  | .exception p =>
      match p.toCatchingProcess.handleProcessException with
      | .ok (.continueSame q) => .continues { p with toCatchingProcess := q }
      | .ok .terminated => .terminated
      | .error _ => .panics
  | .stops text => .stops text
  | .panics => .panics

namespace BifOp

def failLabel : BifOp → Option Nat
  | .bif0 _ _ => none
  | .bif1 fail _ _ _ | .bif2 fail _ _ _ _ => fail
  | .gcBif1 fail _ _ _ _ | .gcBif2 fail _ _ _ _ _ | .gcBif3 fail _ _ _ _ _ _ => fail

def target : BifOp → CallTarget
  | .bif0 target _ | .bif1 _ target _ _ | .bif2 _ target _ _ _ => target
  | .gcBif1 _ _ target _ _ | .gcBif2 _ _ target _ _ _ | .gcBif3 _ _ target _ _ _ _ => target

def args : BifOp → List BifArg
  | .bif0 _ _ => []
  | .bif1 _ _ arg _ | .gcBif1 _ _ _ arg _ => [arg]
  | .bif2 _ _ arg1 arg2 _ | .gcBif2 _ _ _ arg1 arg2 _ => [arg1, arg2]
  | .gcBif3 _ _ _ arg1 arg2 arg3 _ => [arg1, arg2, arg3]

def dst : BifOp → Option Register
  | .bif0 _ dst | .bif1 _ _ _ dst | .bif2 _ _ _ _ dst => dst
  | .gcBif1 _ _ _ _ dst | .gcBif2 _ _ _ _ _ dst | .gcBif3 _ _ _ _ _ _ dst => dst

variable {F σ : Type}

/-- With the live registers of an instruction that may collect garbage. -/
def entered (p : BifProcess F σ) : BifOp → BifProcess F σ
  | .bif0 _ _ | .bif1 _ _ _ _ | .bif2 _ _ _ _ _ => p
  | .gcBif1 _ live _ _ _ | .gcBif2 _ live _ _ _ _ | .gcBif3 _ live _ _ _ _ _ => { p with live }

end BifOp

namespace BifProcess

variable {F σ : Type} (env : BifEnv F σ)

/-- The six instructions are one call with their operands. -/
theorem run_eq (p : BifProcess F σ) (op : BifOp) :
    p.run env op =
      findAndCallNativeFun env op.failLabel op.target op.args op.dst (op.entered p) := by
  cases op <;> rfl

/-! ## What a failure should do -/

/-- The instruction calls a native function, which leaves `q` and raises the exception. -/
def Raises (p : BifProcess F σ) (op : BifOp) (class_ : ExceptionType) (reason : Term)
    (q : BifProcess F σ) : Prop :=
  ∃ f, callbifResolveImport env op.target op.args.length = some (.ok f) ∧
    callNativeFunFn env f op.args (op.entered p) = some (.error (.exception class_ reason), q)

/-- The word or the number of a register. -/
def SameRegister (p q : BifProcess F σ) : Register → Prop
  | .x n => p.x n = q.x n
  | .y n => p.stack[n + 1]? = q.stack[n + 1]?
  | .fp n => p.fpregs n = q.fpregs n

/-- The process goes on at the label, and nothing is left of the failure. -/
def GoesOnAt (p : BifProcess F σ) (op : BifOp) (label : Nat) (outcome : BifOutcome F σ) : Prop :=
  ∃ q, outcome = .continues q ∧ q.ip = label ∧ q.error = none ∧
    q.numCatches = p.numCatches ∧ q.stack = p.stack ∧ ∀ r ∈ op.dst, SameRegister p q r

/-- With a fail label the failure stays local; without one the exception is raised. -/
def FailsRight (p : BifProcess F σ) (op : BifOp) (class_ : ExceptionType) (reason : Term) : Prop :=
  (∀ label ∈ op.failLabel, GoesOnAt p op label (p.run env op).dispatch.finalize) ∧
    (op.failLabel = none →
      ∃ q, (p.run env op).dispatch = .exception q ∧ q.error = some (class_, reason))

variable {env} {p q : BifProcess F σ} {op : BifOp} {class_ : ExceptionType} {reason : Term}

theorem run_of_raises (h : Raises env p op class_ reason q) :
    p.run env op =
      .err (.exception class_ reason) { q with ip := op.failLabel.getD q.ip } := by
  obtain ⟨f, hresolve, hcall⟩ := h
  rw [run_eq, findAndCallNativeFun, hresolve]
  simp only [hcall]
  cases op.failLabel with
  | none => rfl
  | some label => rfl

theorem error_of_dropStackWords {p q : CatchingProcess} {n : Nat}
    (h : p.dropStackWords n = .ok q) : q.error = p.error := by
  rw [CatchingProcess.dropStackWords] at h
  split at h
  · cases h
    rfl
  · contradiction

/-- The scheduler looks for a catch and leaves the error as it is. -/
theorem error_of_handleProcessException {p q : CatchingProcess}
    (h : p.handleProcessException = .ok (.continueSame q)) : q.error = p.error := by
  unfold CatchingProcess.handleProcessException at h
  cases herror : p.error with
  | none =>
      rw [herror] at h
      contradiction
  | some thrown =>
      simp only [herror] at h
      by_cases hcatches : p.numCatches ≤ 0
      · rw [if_pos hcatches] at h
        exact absurd (Except.ok.inj h) nofun
      · rw [if_neg hcatches] at h
        cases hunroll : CatchingProcess.unrollStackUntilCatch p.stack with
        | error panic =>
            rw [hunroll] at h
            contradiction
        | ok found =>
            rw [hunroll] at h
            cases found with
            | none =>
                cases htrap : p.trapExit with
                | true =>
                    rw [htrap] at h
                    contradiction
                | false =>
                    rw [htrap] at h
                    exact absurd (Except.ok.inj h) nofun
            | some found =>
                simp only [bind, Except.bind] at h
                generalize hdrop : CatchingProcess.dropStackWords _ found.2 = dropped at h
                cases dropped with
                | error panic => contradiction
                | ok r =>
                    obtain rfl := CatchingProcess.Handled.continueSame.inj (Except.ok.inj h)
                    rw [error_of_dropStackWords hdrop]
                    exact herror

/-- Wherever the process goes on, the exception is pending. -/
theorem error_of_continues {p q : BifProcess F σ}
    (h : (BifSlice.exception p).finalize = .continues q) : q.error = p.error := by
  rw [BifSlice.finalize] at h
  split at h
  · rename_i r hhandle
    obtain rfl := BifOutcome.continues.inj h
    exact error_of_handleProcessException hhandle
  · contradiction
  · contradiction

/-- A failure is handled as it should be exactly in the instructions without a fail label. -/
theorem failsRight_iff (h : Raises env p op class_ reason q) :
    FailsRight env p op class_ reason ↔ op.failLabel = none := by
  rw [FailsRight, run_of_raises h, BifResult.dispatch]
  constructor
  · rintro ⟨hlocal, -⟩
    by_contra hlabel
    obtain ⟨label, hlabel⟩ := Option.ne_none_iff_exists'.mp hlabel
    obtain ⟨r, hgoes, -, herror, -⟩ := hlocal label hlabel
    rw [error_of_continues hgoes] at herror
    contradiction
  · intro hnone
    refine ⟨fun label hlabel => ?_, fun _ => ⟨_, rfl, rfl⟩⟩
    rw [hnone] at hlabel
    contradiction

/-- `erlang:hd/1` of what is no list, as the only native function. -/
def hdOnly : BifEnv Unit Unit where
  debug := true
  native mfa :=
    if CallProc.isAtomNamed "hd" mfa.f then
      some fun _ p => (.error (.exception .error (.atom "badarg")), p)
    else none
  toFloat _ := none

/-- `hd(X0)` into X1. -/
def guardHd (fail : Option Nat) : BifOp :=
  .bif1 fail (.imported ⟨.atom "erlang", .atom "hd", 1⟩) (.register (.x 0)) (some (.x 1))

/-- A process without catches, with an empty list in its registers. -/
def inGuard : BifProcess Unit Unit where
  ip := 10
  cp := none
  x := fun _ => .term .nil
  stack := [.cp 100]
  heapTop := 0
  capacity := 64
  error := none
  numCatches := 0
  trapExit := false
  live := 1
  fpregs := fun _ => ()
  rest := ()

theorem raises_guardHd (fail : Option Nat) :
    Raises hdOnly inGuard (guardHd fail) .error (.atom "badarg") inGuard :=
  ⟨_, rfl, rfl⟩

theorem failsRight_iff_guardHd :
    FailsRight hdOnly inGuard (guardHd none) .error (.atom "badarg") ∧
      ¬ FailsRight hdOnly inGuard (guardHd (some 20)) .error (.atom "badarg") :=
  ⟨(failsRight_iff (raises_guardHd none)).mpr rfl,
    fun hright => nomatch (failsRight_iff (raises_guardHd (some 20))).mp hright⟩

/-- The guard fails, and the process with it. -/
theorem not_failsRight_guardHd :
    (inGuard.run hdOnly (guardHd (some 20))).dispatch.finalize = .terminated ∧
      ¬ FailsRight hdOnly inGuard (guardHd (some 20)) .error (.atom "badarg") := by
  refine ⟨rfl, fun hright => ?_⟩
  obtain ⟨q, hgoes, -⟩ := hright.1 20 rfl
  have hend : BifOutcome.terminated = .continues q := hgoes
  contradiction

end BifProcess

end Zeptobeam
