/-
The start of binary matching.  A start on a binary makes a match state for it on the heap;
one on a match state goes on with that state, and sets its position back to the beginning.
The instructions that follow find their match state through a register.
-/
import Mathlib.Logic.Function.Basic
import Zeptobeam.BsMatch
import Zeptobeam.Lib.TwoRuns
import Zeptobeam.MatchContexts
import Zeptobeam.Utf8

namespace Zeptobeam

open Matching MatchContexts ExceptState

def BinaryMatchState.reset (m : BinaryMatchState) : BinaryMatchState :=
  { m with readPosition := 0 }

/-- The process, with the match states on its heap by the words that refer to them. -/
structure MatchMachine where
  proc : MatchProcess
  contexts : Nat → Option BinaryMatchState

/-- What was changed before an instruction stops stays changed. -/
abbrev OnMachine := ExceptT MatchStop (StateM MatchMachine)

namespace OnMachine

/-- Work on the process that leaves the match states alone. -/
def onProcess {α : Type} (x : Matching α) : OnMachine α := do
  let machine ← get
  let ended := Matching.run x machine.proc
  set { machine with proc := ended.2 }
  MonadExcept.ofExcept ended.1

/-- `binary_match_state`, of a word that refers to none: an assertion in a debug build. -/
def notMatchState {α : Type} (debug : Bool) : OnMachine α :=
  throw (if debug then .panic .assertion else .invalidDereference)

/-- Work on the match state that the word refers to. -/
def onContext {α : Type} (debug : Bool) (word : Nat) (x : Matching α) : OnMachine α := do
  let machine ← get
  match machine.contexts word with
  | none => notMatchState debug
  | some m =>
      let ended := Matching.run x { machine.proc with context := m }
      set { machine with
        proc := ended.2
        contexts := Function.update machine.contexts word (some ended.2.context) }
      MonadExcept.ofExcept ended.1

def setMatchState (word : Nat) (m : BinaryMatchState) : OnMachine Unit :=
  modify fun machine =>
    { machine with contexts := Function.update machine.contexts word (some m) }

end OnMachine

namespace MatchStart

open OnMachine

/-! ## Starts -/

/-- The words of a `BinaryMatchState`, with the header of a boxed value. -/
def matchStateWords (debug : Bool) : Nat :=
  (if debug then 3 else 2) + 4

def allocMatchState (debug : Bool) : Matching Nat := do
  let s ← get
  if s.stackTop ≤ s.heapTop + matchStateWords debug then panic .heapIsFull
  set { s with heapTop := s.heapTop + matchStateWords debug }
  return s.heapTop

def startWithNewBinary (debug : Bool) (bin : TBinary) (dst : Reg) : OnMachine Dispatch := do
  let word ← onProcess (allocMatchState debug)
  setMatchState word (.new bin)
  onProcess (storeValue (.other word) dst)
  return .next

def continueWithMatchstate (word : Nat) (m : BinaryMatchState) (dst : Reg) :
    OnMachine Dispatch := do
  setMatchState word m.reset
  onProcess (storeValue (.other word) dst)
  return .next

/-- The start on a value; `noMatch` is for one that is no binary and no match state. -/
def bsStartMatch (debug : Bool) (noMatch : Dispatch) (v : RegValue) (dst : Reg) :
    OnMachine Dispatch := do
  match v with
  -- not boxed
  | .small _ | .emptyBinary => return noMatch
  | .slice _ bin => startWithNewBinary debug bin dst
  | .other word =>
      match (← get).contexts word with
      | some m => continueWithMatchstate word m dst
      | none => return noMatch

def bsStartMatch3 (debug : Bool) (v : RegValue) (dst : Reg) : OnMachine Dispatch :=
  bsStartMatch debug .jump v dst

/-- `maybe_jump_fail`: the fail operand may be an atom. -/
def bsStartMatch4 (debug failIsCp : Bool) (v : RegValue) (dst : Reg) : OnMachine Dispatch :=
  bsStartMatch debug (if failIsCp then .jump else .next) v dst

inductive StartOp where
  | start3
  | start4 (failIsCp : Bool)
deriving DecidableEq, Repr

def StartOp.perform (debug : Bool) : StartOp → RegValue → Reg → OnMachine Dispatch
  | .start3 => bsStartMatch3 debug
  | .start4 failIsCp => bsStartMatch4 debug failIsCp

/-! ## The instructions that follow -/

def performGetUtf8 (debug : Bool) (dst : Reg) : Matching Dispatch := do
  match ← lift (bsGetUtf8 debug (← getContext)) with
  | none => return .jump
  | some (codepoint, context) =>
      setContext context
      storeValue (.small codepoint) dst
      return .next

def performSkipUtf8 (debug : Bool) : Matching Dispatch := do
  match ← lift (bsSkipUtf8 debug (← getContext)) with
  | none => return .jump
  | some context =>
      setContext context
      return .next

def bsTestUnit (debug : Bool) (unit : Nat) : Matching Dispatch := do
  let remaining ← getBitsRemaining debug
  if unit = 0 ∨ remaining % unit ≠ 0 then return .jump
  return .next

def performMatch (debug hasFail : Bool) (commands : CommandTerm) : Matching Dispatch := do
  if ← BsMatch.bsMatch debug hasFail commands then return .jump
  return .next

/-- What `bs_context_to_binary` makes of a match context. -/
def remainingToBinary (debug : Bool) (reg : Reg) : Matching Dispatch := do
  let remaining ← getBitsRemaining debug
  if remaining = 0 then
    storeValue .emptyBinary reg
    return .next
  ensureHeap (sliceWords debug)
  let context ← getContext
  let slice ← createSlice debug context.orig context.readPosition remaining
  storeValue slice reg
  return .next

/-- An instruction on one match context. -/
inductive ContextOp where
  | basic (op : MatchOp)
  | bsMatch (hasFail : Bool) (commands : CommandTerm)
  | getUtf8 (dst : Reg)
  | skipUtf8
  | testUnit (unit : Nat)

def ContextOp.perform (debug : Bool) : ContextOp → Matching Dispatch
  | .basic op => MatchContexts.perform debug op
  | .bsMatch hasFail commands => performMatch debug hasFail commands
  | .getUtf8 dst => performGetUtf8 debug dst
  | .skipUtf8 => performSkipUtf8 debug
  | .testUnit unit => bsTestUnit debug unit

inductive MatchInstr where
  | start (op : StartOp) (src : Operand) (dst : Reg)
  | onContext (ctx : Operand) (op : ContextOp)
  | contextToBinary (reg : Reg)

/-- The word of the match context operand. -/
def contextWord (debug : Bool) (ctx : Operand) : OnMachine Nat := do
  match ← onProcess (load ctx) with
  | .other word => return word
  | _ => notMatchState debug

def bsContextToBinary (debug : Bool) (reg : Reg) : OnMachine Dispatch := do
  match ← onProcess (load (.reg reg)) with
  | .other word =>
      match (← get).contexts word with
      | some _ => onContext debug word (remainingToBinary debug reg)
      | none => return .next
  | _ => return .next

def MatchInstr.perform (debug : Bool) : MatchInstr → OnMachine Dispatch
  | .start op src dst => do op.perform debug (← onProcess (load src)) dst
  | .onContext ctx op => do
      OnMachine.onContext debug (← contextWord debug ctx) (op.perform debug)
  | .contextToBinary reg => bsContextToBinary debug reg

/-- What an instruction ends with: its result, and the registers after it. -/
structure MatchAnswer where
  result : Except MatchStop Dispatch
  x : List RegValue
  fp : List Float
  stack : List RegValue

def step (debug : Bool) (machine : MatchMachine) (instr : MatchInstr) :
    MatchAnswer × MatchMachine :=
  let ended := ExceptState.run (instr.perform debug) machine
  (⟨ended.1, ended.2.proc.x, ended.2.proc.fp, ended.2.proc.stack⟩, ended.2)

/-! ## What a start comes to -/

/-- The register takes the match state, and the heap has room for it. -/
structure CanStart (debug : Bool) (machine : MatchMachine) (dst : Reg) : Prop where
  takes : Takes machine.proc dst
  room : machine.proc.heapTop + matchStateWords debug < machine.proc.stackTop

/-- The start goes on, and the register refers to the match state. -/
def StartsWith (debug : Bool) (machine : MatchMachine) (op : StartOp) (v : RegValue) (dst : Reg)
    (m : BinaryMatchState) : Prop :=
  ∃ word machine', ExceptState.run (op.perform debug v dst) machine = (.ok .next, machine') ∧
    operandValue machine'.proc (.reg dst) = some (.other word) ∧
    machine'.contexts word = some m

section Starts

variable {debug : Bool} {machine : MatchMachine} {dst : Reg} {m m' : BinaryMatchState}
  {word addr : Nat} {bin : TBinary} {s s' : MatchProcess}

theorem operandValue_put (v : RegValue) (h : Takes s dst) :
    operandValue (put s v dst) (.reg dst) = some v := by
  cases dst with
  | x n => exact List.getElem?_set_self h
  | y n => exact List.getElem?_set_self h
  | float n => exact h.elim

theorem run_onProcess_ok {α : Type} {x : Matching α} {a : α}
    (h : Matching.run x machine.proc = (.ok a, s')) :
    ExceptState.run (onProcess x) machine = (.ok a, { machine with proc := s' }) := by
  have hended : ExceptState.run (onProcess x) machine =
      ExceptState.run (MonadExcept.ofExcept (Matching.run x machine.proc).1)
        { machine with proc := (Matching.run x machine.proc).2 } := rfl
  rw [hended, h]
  rfl

/-- Work on a match state puts it back in its place. -/
theorem run_onContext {α : Type} {x : Matching α} (h : machine.contexts word = some m) :
    ExceptState.run (onContext debug word x) machine =
      ((Matching.run x { machine.proc with context := m }).1,
        { machine with
          proc := (Matching.run x { machine.proc with context := m }).2
          contexts := Function.update machine.contexts word
            (some (Matching.run x { machine.proc with context := m }).2.context) }) := by
  rw [onContext, ExceptState.run_bind_ok (ExceptState.run_get machine)]
  simp only [h]
  cases hrun : Matching.run x { machine.proc with context := m } with
  | mk result s' =>
      cases result with
      | ok a => rfl
      | error stop => rfl

theorem run_setMatchState (word : Nat) (m : BinaryMatchState) (machine : MatchMachine) :
    ExceptState.run (setMatchState word m) machine =
      (.ok (), { machine with contexts := Function.update machine.contexts word (some m) }) :=
  rfl

theorem run_allocMatchState (h : s.heapTop + matchStateWords debug < s.stackTop) :
    Matching.run (allocMatchState debug) s =
      (.ok s.heapTop, { s with heapTop := s.heapTop + matchStateWords debug }) := by
  rw [allocMatchState, Matching.run_bind_ok (Matching.run_get s)]
  simp only [if_neg (Nat.not_le_of_lt h)]
  rw [Matching.run_bind_ok (Matching.run_set _ _), Matching.run_pure]

/-- A match state that is in its place is referred to by the register. -/
theorem exists_run_store (h : Takes machine.proc dst) (hword : machine.contexts word = some m) :
    ∃ machine', ExceptState.run (do
        onProcess (storeValue (.other word) dst)
        return Dispatch.next) machine = (.ok .next, machine') ∧
      operandValue machine'.proc (.reg dst) = some (.other word) ∧
      machine'.contexts word = some m := by
  have hstore := run_onProcess_ok (run_storeValue (.other word) h)
  rw [ExceptState.run_bind_ok hstore, ExceptState.run_pure]
  exact ⟨_, rfl, operandValue_put _ h, hword⟩

theorem perform_eq (debug : Bool) (op : StartOp) :
    ∃ noMatch, op.perform debug = bsStartMatch debug noMatch := by
  cases op with
  | start3 => exact ⟨_, rfl⟩
  | start4 failIsCp => exact ⟨_, rfl⟩

/-- A start on a binary makes a match state for it. -/
theorem startsWith_slice (h : CanStart debug machine dst) (op : StartOp) (addr : Nat)
    (bin : TBinary) : StartsWith debug machine op (.slice addr bin) dst (.new bin) := by
  obtain ⟨noMatch, hop⟩ := perform_eq debug op
  let proc := { machine.proc with heapTop := machine.proc.heapTop + matchStateWords debug }
  let after : MatchMachine :=
    ⟨proc, Function.update machine.contexts machine.proc.heapTop (some (.new bin))⟩
  have halloc : ExceptState.run (onProcess (allocMatchState debug)) machine =
      (.ok machine.proc.heapTop, { machine with proc }) :=
    run_onProcess_ok (run_allocMatchState h.room)
  have hset : ExceptState.run (setMatchState machine.proc.heapTop (.new bin))
      { machine with proc } = (.ok (), after) := run_setMatchState ..
  have htakes : Takes after.proc dst := h.takes
  have hword : after.contexts machine.proc.heapTop = some (.new bin) :=
    Function.update_self ..
  obtain ⟨machine', hnext, hreg⟩ := exists_run_store htakes hword
  refine ⟨_, machine', ?_, hreg⟩
  rw [hop, bsStartMatch, startWithNewBinary, ExceptState.run_bind_ok halloc,
    ExceptState.run_bind_ok hset]
  exact hnext

/-- A start on a match state goes on with it, from the beginning. -/
theorem startsWith_other (h : CanStart debug machine dst) (op : StartOp)
    (hword : machine.contexts word = some m) :
    StartsWith debug machine op (.other word) dst m.reset := by
  obtain ⟨noMatch, hop⟩ := perform_eq debug op
  let after : MatchMachine :=
    { machine with contexts := Function.update machine.contexts word (some m.reset) }
  have hset : ExceptState.run (setMatchState word m.reset) machine = (.ok (), after) :=
    run_setMatchState ..
  have htakes : Takes after.proc dst := h.takes
  have hword' : after.contexts word = some m.reset := Function.update_self ..
  obtain ⟨machine', hnext, hreg⟩ := exists_run_store htakes hword'
  refine ⟨_, machine', ?_, hreg⟩
  rw [hop, bsStartMatch, ExceptState.run_bind_ok (ExceptState.run_get machine)]
  simp only [hword]
  rw [continueWithMatchstate, ExceptState.run_bind_ok hset]
  exact hnext

/-- The empty binary is not boxed, and `bs_start_match3` jumps to its fail label. -/
theorem not_startsWith_emptyBinary :
    ¬ StartsWith debug machine .start3 .emptyBinary dst m := by
  rintro ⟨word, machine', hrun, -⟩
  have hjump : ExceptState.run (StartOp.perform debug .start3 .emptyBinary dst) machine =
      (.ok .jump, machine) := rfl
  rw [hjump] at hrun
  cases hrun

theorem StartsWith.unique {op : StartOp} {v : RegValue} (h : StartsWith debug machine op v dst m)
    (h' : StartsWith debug machine op v dst m') : m = m' := by
  obtain ⟨word, after, hrun, hreg, hword⟩ := h
  obtain ⟨word', after', hrun', hreg', hword'⟩ := h'
  rw [hrun] at hrun'
  obtain rfl : after = after' := congrArg Prod.snd hrun'
  rw [hreg] at hreg'
  obtain rfl : word = word' := by
    injection hreg' with hother
    injection hother
  rw [hword] at hword'
  exact Option.some.inj hword'

end Starts

end MatchStart

end Zeptobeam
