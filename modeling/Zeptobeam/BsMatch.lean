/-
The instruction `bs_match`, which runs a sequence of matching commands.  The commands come as
a list (or a tuple) with a tuple for each command, or as one flat tuple with the terms of all
of them, and there is one interpreter for each form.
-/
import Zeptobeam.BitMatching

namespace Zeptobeam

/-- A term of the commands. -/
inductive CommandTerm where
  | small (value : Int)
  | atom (name : String)
  | nil
  | emptyTuple
  | reg (r : Reg)
  | tuple (first : CommandTerm) (rest : List CommandTerm)
  | cons (hd tl : CommandTerm)
  | other (word : Nat)

namespace BsMatch

open Matching

def isAtom : CommandTerm → Bool
  | .atom _ => true
  | _ => false

def isNil : CommandTerm → Bool
  | .nil => true
  | _ => false

def toUsize (debug : Bool) : CommandTerm → Matching (Option Nat)
  | .small value => do return some (← lift (getSmallUnsigned debug value))
  | _ => return none

def toI64 : CommandTerm → Option Int
  | .small value => some value
  | _ => none

/-- The bits that a value has to match, as a number. -/
def expectedU64 (value : CommandTerm) (bits : Nat) : Option Nat :=
  if 64 < bits then none
  else
    match toI64 value with
    | none => none
    | some signed =>
        if 0 ≤ signed then
          if bits < 64 ∧ 2 ^ bits ≤ signed.toNat then none
          else some signed.toNat
        else if bits = 64 then some (signed % 2 ^ 64).toNat
        else
          let n := 2 ^ bits + signed
          if n < 0 then none else some n.toNat

def storeTerm (debug : Bool) (val : RegValue) : CommandTerm → Matching Unit
  | .reg r => storeValue val r
  | _ =>
      if debug then panic .assertion
      else panic (.unimplemented "Don't know how to ctx.store")

def ensureRemaining (debug : Bool) (needed : Nat) : Matching Bool := do
  return needed ≤ (← getBitsRemaining debug)

/-- Bit `i` from the reader on. -/
def bitAt (reader : BitReader) (i : Nat) : Nat :=
  ((reader.read (i / 8) >>> (7 - i % 8).toUInt8) &&& 1).toNat

/-- The first bits as a number of 64 bits, the first bit on top. -/
def bitsValue (reader : BitReader) (totalBits : Nat) : Nat :=
  (List.range totalBits).foldl (fun value i => (value * 2 + bitAt reader i) % 2 ^ 64) 0

def extractInteger (debug : Bool) (bits unit : Nat) (dst : CommandTerm) : Matching Bool := do
  let totalBits ← lift (mulWords debug bits unit)
  if !(← ensureRemaining debug totalBits) then return false
  let value := bitsValue (← getContext).reader totalBits
  increaseOffset totalBits
  -- the words of small integers hold 61 bits
  storeTerm debug (.small (smallBits value)) dst
  return true

def matchBitsEq (bits : Nat) (value : CommandTerm) : Matching Bool := do
  match expectedU64 value bits with
  | none => return false
  | some expected =>
      let reader := (← getContext).reader
      return (List.range bits).all fun i =>
        bitAt reader i == (expected >>> (bits - 1 - i)) &&& 1

def extractTail (debug : Bool) (live : Nat) (dst : CommandTerm) : Matching Bool := do
  let remaining ← getBitsRemaining debug
  if remaining = 0 then
    storeTerm debug .emptyBinary dst
    return true
  let slice ← makeSlice debug live remaining
  storeTerm debug slice dst
  return true

/-- One command, as a tuple of its name and as many operands as it takes. -/
def runOne (debug : Bool) : CommandTerm → Matching Bool
  | .tuple (.atom op) rest => do
      match op, rest with
      | "ensure_at_least", [size, unit] =>
          let some size ← toUsize debug size | return false
          let some unit ← toUsize debug unit | return false
          ensureRemaining debug (← lift (withUnit debug size unit))
      | "ensure_exactly", [size] =>
          let some size ← toUsize debug size | return false
          return (← getBitsRemaining debug) = size
      | "=:=", [live, bits, value] =>
          if !isNil live then return false
          let some bits ← toUsize debug bits | return false
          if !(← ensureRemaining debug bits) then return false
          if !(← matchBitsEq bits value) then return false
          increaseOffset bits
          return true
      | "skip", [bits] =>
          let some bits ← toUsize debug bits | return false
          if !(← ensureRemaining debug bits) then return false
          increaseOffset bits
          return true
      | "integer", [live, _, bits, unit, dst] =>
          let some _ ← toUsize debug live | return false
          let some bits ← toUsize debug bits | return false
          let some unit ← toUsize debug unit | return false
          extractInteger debug bits unit dst
      | "get_tail", [live, _, dst] =>
          let some live ← toUsize debug live | return false
          extractTail debug live dst
      -- unsupported commands do not match
      | _, _ => return false
  | _ => throw .badarg

/-- The terms of a flat tuple, from the cursor on. -/
def runFlatTerms (debug : Bool) : List CommandTerm → Matching Bool
  | [] => return true
  | .atom "ensure_at_least" :: size :: unit :: terms => do
      let some size ← toUsize debug size | return false
      let some unit ← toUsize debug unit | return false
      if !(← ensureRemaining debug (← lift (withUnit debug size unit))) then return false
      runFlatTerms debug terms
  | .atom "ensure_exactly" :: size :: terms => do
      let some size ← toUsize debug size | return false
      if (← getBitsRemaining debug) ≠ size then return false
      runFlatTerms debug terms
  | .atom "=:=" :: live :: bits :: value :: terms => do
      if !isNil live then return false
      let some bits ← toUsize debug bits | return false
      if !(← ensureRemaining debug bits) then return false
      if !(← matchBitsEq bits value) then return false
      increaseOffset bits
      runFlatTerms debug terms
  | .atom "skip" :: bits :: terms => do
      let some bits ← toUsize debug bits | return false
      if !(← ensureRemaining debug bits) then return false
      increaseOffset bits
      runFlatTerms debug terms
  | .atom "integer" :: live :: _ :: bits :: unit :: dst :: terms => do
      let some _ ← toUsize debug live | return false
      let some bits ← toUsize debug bits | return false
      let some unit ← toUsize debug unit | return false
      if !(← extractInteger debug bits unit dst) then return false
      runFlatTerms debug terms
  | .atom "get_tail" :: live :: _ :: dst :: terms => do
      let some live ← toUsize debug live | return false
      if !(← extractTail debug live dst) then return false
      runFlatTerms debug terms
  -- too few terms for the command, or no command
  | _ => return false

/-- The tuples of a list, up to the first that does not match. -/
def runList (debug : Bool) : CommandTerm → Matching Bool
  | .cons hd tl => do
      if !(← runOne debug hd) then return false
      match tl with
      | .cons _ _ => runList debug tl
      | .nil => return true
      | _ => return false
  | _ => return true

def runTuples (debug : Bool) : List CommandTerm → Matching Bool
  | [] => return true
  | command :: commands => do
      if !(← runOne debug command) then return false
      runTuples debug commands

def runCommands (debug : Bool) : CommandTerm → Matching Bool
  | .nil | .emptyTuple => return true
  | .tuple first rest =>
      if isAtom first then runFlatTerms debug (first :: rest)
      else runTuples debug (first :: rest)
  | .cons hd tl => runList debug (.cons hd tl)
  | _ => throw .badarg

/-- `bs_match`: `true` when it jumps to the fail label. -/
def bsMatch (debug hasFail : Bool) (commands : CommandTerm) : Matching Bool := do
  let savedOffset := (← getContext).readPosition
  if ← runCommands debug commands then return false
  setOffset savedOffset
  return hasFail

/-! ## Well-formed commands -/

/-- A command with its operands, which may be any terms. -/
inductive Command where
  | ensureAtLeast (size unit : CommandTerm)
  | ensureExactly (size : CommandTerm)
  | equal (live bits value : CommandTerm)
  | skip (bits : CommandTerm)
  | integer (live flags bits unit dst : CommandTerm)
  | getTail (live unit dst : CommandTerm)

namespace Command

def name : Command → CommandTerm
  | ensureAtLeast .. => .atom "ensure_at_least"
  | ensureExactly .. => .atom "ensure_exactly"
  | equal .. => .atom "=:="
  | skip .. => .atom "skip"
  | integer .. => .atom "integer"
  | getTail .. => .atom "get_tail"

def operands : Command → List CommandTerm
  | ensureAtLeast size unit => [size, unit]
  | ensureExactly size => [size]
  | equal live bits value => [live, bits, value]
  | skip bits => [bits]
  | integer live flags bits unit dst => [live, flags, bits, unit, dst]
  | getTail live unit dst => [live, unit, dst]

/-- The command as a tuple. -/
def toTuple (command : Command) : CommandTerm :=
  .tuple command.name command.operands

/-- The command in a flat tuple. -/
def terms (command : Command) : List CommandTerm :=
  command.name :: command.operands

end Command

/-- The commands as a list with a tuple for each. -/
def listForm : List Command → CommandTerm
  | [] => .nil
  | command :: commands => .cons command.toTuple (listForm commands)

/-- The commands as a tuple with a tuple for each. -/
def tuplesForm : List Command → CommandTerm
  | [] => .emptyTuple
  | command :: commands => .tuple command.toTuple (commands.map Command.toTuple)

/-- The commands as one flat tuple. -/
def flatForm : List Command → CommandTerm
  | [] => .emptyTuple
  | command :: commands =>
      .tuple command.name (command.operands ++ commands.flatMap Command.terms)

/-! ## The two interpreters -/

variable {debug : Bool} {α : Type}

/-- The second part is run when the first one matches. -/
def andThen (first second : Matching Bool) : Matching Bool := do
  if !(← first) then return false
  second

/-- The first command of the flat terms is run as its tuple is. -/
theorem runFlatTerms_append (command : Command) (terms : List CommandTerm) :
    runFlatTerms debug (command.terms ++ terms) =
      andThen (runOne debug command.toTuple) (runFlatTerms debug terms) := by
  cases command
  all_goals
    simp only [Command.terms, Command.toTuple, Command.operands, Command.name, runOne,
      List.cons_append, List.nil_append, runFlatTerms, andThen, bind_assoc]
  case ensureAtLeast size unit =>
      refine bind_congr fun size => ?_
      cases size with
      | none => simp
      | some size =>
          simp only [bind_assoc]
          refine bind_congr fun unit => ?_
          cases unit with
          | none => simp
          | some unit => simp only [bind_assoc]
  case ensureExactly size =>
      refine bind_congr fun size => ?_
      cases size with
      | none => simp
      | some size =>
        simp
  case equal live bits value =>
      cases isNil live with
      | false => simp
      | true =>
          simp only [Bool.not_true, Bool.false_eq_true, if_false, bind_assoc]
          refine bind_congr fun bits => ?_
          cases bits with
          | none => simp
          | some bits =>
              simp only [bind_assoc]
              refine bind_congr fun room => ?_
              cases room with
              | false => simp
              | true =>
                  simp only [Bool.not_true, Bool.false_eq_true, if_false, bind_assoc]
                  refine bind_congr fun same => ?_
                  cases same with
                  | false => simp
                  | true => simp
  case skip bits =>
      refine bind_congr fun bits => ?_
      cases bits with
      | none => simp
      | some bits =>
          simp only [bind_assoc]
          refine bind_congr fun room => ?_
          cases room with
          | false => simp
          | true => simp
  case integer live flags bits unit dst =>
      refine bind_congr fun live => ?_
      cases live with
      | none => simp
      | some live =>
          simp only [bind_assoc]
          refine bind_congr fun bits => ?_
          cases bits with
          | none => simp
          | some bits =>
              simp only [bind_assoc]
              refine bind_congr fun unit => ?_
              cases unit with
              | none => simp
              | some unit => rfl
  case getTail live unit dst =>
      refine bind_congr fun live => ?_
      cases live with
      | none => simp
      | some live => rfl

/-- The commands one after the other, up to the first that does not match. -/
def runEach (debug : Bool) (commands : List Command) : Matching Bool :=
  commands.foldr (fun command rest => andThen (runOne debug command.toTuple) rest) (return true)

theorem runCommands_listForm (commands : List Command) :
    runCommands debug (listForm commands) = runEach debug commands := by
  cases commands with
  | nil => rfl
  | cons first commands =>
      rw [listForm, runCommands]
      induction commands generalizing first with
      | nil => rfl
      | cons second commands ih =>
          have hsecond := ih second
          rw [listForm, runList]
          exact congrArg (andThen (runOne debug first.toTuple)) hsecond

theorem runTuples_map_toTuple (commands : List Command) :
    runTuples debug (commands.map Command.toTuple) = runEach debug commands := by
  induction commands with
  | nil => rfl
  | cons command commands ih =>
      rw [List.map_cons, runTuples, ih]
      rfl

theorem runCommands_tuplesForm (commands : List Command) :
    runCommands debug (tuplesForm commands) = runEach debug commands := by
  cases commands with
  | nil => rfl
  | cons command commands => exact runTuples_map_toTuple (command :: commands)

theorem runFlatTerms_flatMap_terms (commands : List Command) :
    runFlatTerms debug (commands.flatMap Command.terms) = runEach debug commands := by
  induction commands with
  | nil => rw [List.flatMap_nil, runFlatTerms, runEach, List.foldr_nil]
  | cons command commands ih =>
      rw [List.flatMap_cons, runFlatTerms_append, ih]
      rfl

theorem runCommands_flatForm (commands : List Command) :
    runCommands debug (flatForm commands) = runEach debug commands := by
  cases commands with
  | nil => rfl
  | cons command commands =>
      have hname : isAtom command.name = true := by
        cases command <;> rfl
      rw [flatForm, runCommands, hname, if_pos rfl,
        ← runFlatTerms_flatMap_terms (command :: commands)]
      rfl

/-- Where the commands do not match, the instruction puts the offset back. -/
theorem bsMatch_of_nomatch {hasFail : Bool} {commands : CommandTerm} {s : MatchProcess}
    (h : (run (runCommands debug commands) s).1 = .ok false) :
    (run (bsMatch debug hasFail commands) s).1 = .ok hasFail ∧
      (run (bsMatch debug hasFail commands) s).2.context.readPosition =
        s.context.readPosition := by
  have hrun : run (runCommands debug commands) s =
      (.ok false, (run (runCommands debug commands) s).2) := by
    rw [← h]
  have hwhole : run (bsMatch debug hasFail commands) s =
      run (do setOffset s.context.readPosition; return hasFail)
        (run (runCommands debug commands) s).2 :=
    run_bind_ok hrun
  rw [hwhole]
  exact ⟨rfl, rfl⟩

/-- The forms of the commands are run alike, and give the offset back where they do not
match. -/
theorem bsMatch_forms_agree (debug hasFail : Bool) (commands : List Command)
    (s : MatchProcess) :
    (∀ form ∈ [listForm commands, tuplesForm commands],
      run (runCommands debug form) s = run (runCommands debug (flatForm commands)) s ∧
        run (bsMatch debug hasFail form) s =
          run (bsMatch debug hasFail (flatForm commands)) s) ∧
    ∀ form ∈ [listForm commands, tuplesForm commands, flatForm commands],
      (run (runCommands debug form) s).1 = .ok false →
        (run (bsMatch debug hasFail form) s).1 = .ok hasFail ∧
          (run (bsMatch debug hasFail form) s).2.context.readPosition =
            s.context.readPosition := by
  refine ⟨?_, fun form _ h => bsMatch_of_nomatch h⟩
  intro form hform
  have hsame : runCommands debug form = runCommands debug (flatForm commands) := by
    simp only [List.mem_cons, List.not_mem_nil, or_false] at hform
    rw [runCommands_flatForm]
    rcases hform with rfl | rfl
    · exact runCommands_listForm commands
    · exact runCommands_tuplesForm commands
  rw [bsMatch, bsMatch, hsame]
  exact ⟨rfl, rfl⟩

-- a byte is skipped before the commands fail, and the offset is put back
example :
    let s : MatchProcess := ⟨.new (.processHeap 16 [1, 2]), [], [], [], 0, 64, 0⟩
    let commands := flatForm [.skip (.small 8), .ensureExactly (.small 1)]
    (run (runCommands true commands) s).1 = .ok false ∧
      (run (runCommands true commands) s).2.context.readPosition = 8 ∧
      (run (bsMatch true true commands) s).2.context.readPosition = 0 := by
  exact ⟨rfl, rfl, rfl⟩

end BsMatch

end Zeptobeam
