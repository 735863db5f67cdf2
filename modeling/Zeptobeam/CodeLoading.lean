/-
The code of a module.  The loader goes through the code chunk twice, to measure the code and
to write it; operands that are labels become addresses, at once when the label was met
before, and else when the code is complete.
-/
import Zeptobeam.CompactTerm
import Zeptobeam.TermCompare

namespace Zeptobeam

open Loading BinaryReader CompactTerm

/-- `ARITY_MAP`, by opcode. -/
def arityMap : List Nat :=
  [0, 1, 3, 0, 2, 3, 2, 2, 3, 2, 4, 5, 2, 3, 2, 3, 2, 1, 1, 0, 0, 0, 0, 2, 1, 1, 2, 4, 4, 4, 4,
    4, 4, 4, 4, 4, 4, 4, 3, 3, 3, 3, 3, 3, 3, 2, 2, 2, 2, 2, 2, 2, 2, 2, 2, 2, 2, 2, 3, 3, 3, 1,
    2, 1, 2, 3, 3, 3, 3, 3, 2, 1, 1, 0, 1, 1, 3, 2, 2, 2, 5, 5, 5, 4, 2, 1, 1, 2, 2, 5, 5, 5, 2,
    1, 0, 1, 2, 2, 4, 4, 4, 4, 3, 1, 2, 1, 1, 1, 2, 6, 3, 5, 1, 2, 2, 3, 5, 7, 7, 7, 5, 3, 2, 2,
    5, 6, 2, 2, 2, 2, 1, 3, 4, 0, 8, 6, 2, 6, 5, 4, 5, 4, 5, 4, 3, 3, 3, 3, 3, 0, 1, 1, 7, 1, 5,
    5, 2, 3, 3, 4, 0, 0, 2, 2, 2, 3, 4, 3, 2, 2, 4, 3, 1, 2, 1, 1, 1, 6, 3, 0, 1, 5, 3, 2, 4]

def opcodeArity (op : UInt8) : Option Nat :=
  arityMap[op.toNat]?

def opcodeLabel : UInt8 := 1
def opcodeFuncInfo : UInt8 := 2
def opcodeSelectVal : UInt8 := 59
def opcodeSelectTupleArity : UInt8 := 60
def opcodeLine : UInt8 := 153
def opcodeExecutableLine : UInt8 := 183
def opcodeDebugLine : UInt8 := 184

/-- The three opcodes that only record a line. -/
def isLine (op : UInt8) : Bool :=
  op = opcodeLine || op = opcodeExecutableLine || op = opcodeDebugLine

def opcodeUsesJumpTableList (op : UInt8) : Bool :=
  op = opcodeSelectVal || op = opcodeSelectTupleArity

/-- `on_ext_list_create_jumptable`. -/
def listMode (op : UInt8) : ListParseMode :=
  if opcodeUsesJumpTableList op then .asJumpTable else .asTuple2Initializer

/-- A value of an operand, when atoms and literals have been looked up. -/
inductive LoadVal where
  | small (value : Int)
  | nil
  | term (t : Term)
  | loadtimeLabel (index : Nat)
  | registerX (index : Nat)
  | registerY (index : Nat)
  | registerFloat (index : Nat)
  | bignum (sign : Sign) (limbs : List Nat)
  | tuple (elements : List LoadVal)
  | jumpTable (pairs : List (LoadVal × LoadVal))

/-- The tables of atoms and literals. -/
structure LoadTables where
  vmAtoms : List Term
  litTab : List Term

namespace LoadTables

variable (tables : LoadTables)

def atomFromLoadtimeIndex (n : Nat) : Except Panic LoadVal :=
  if n = 0 then .ok .nil
  else
    match tables.vmAtoms[n - 1]? with
    | some t => .ok (.term t)
    | none => .error .indexOutOfBounds

def literal (n : Nat) : Except Panic LoadVal :=
  match tables.litTab[n]? with
  | some t => .ok (.term t)
  | none => .error .indexOutOfBounds

mutual

def resolveValue : LtTerm → Except Panic LoadVal
  | .small value => .ok (.small value)
  | .nil => .ok .nil
  | .loadtimeAtom index => tables.atomFromLoadtimeIndex index
  | .loadtimeLiteral index => tables.literal index
  | .loadtimeLabel index => .ok (.loadtimeLabel index)
  | .registerX index => .ok (.registerX index)
  | .registerY index => .ok (.registerY index)
  | .registerFloat index => .ok (.registerFloat index)
  | .bignum sign limbs => .ok (.bignum sign limbs)
  | .tuple elements => do return .tuple (← resolveAll elements)
  | .jumpTable pairs => do return .jumpTable (← resolvePairs pairs)

def resolveAll : List LtTerm → Except Panic (List LoadVal)
  | [] => .ok []
  | t :: rest => do
      let val ← resolveValue t
      return val :: (← resolveAll rest)

def resolvePairs : List (LtTerm × LtTerm) → Except Panic (List (LoadVal × LoadVal))
  | [] => .ok []
  | (value, loc) :: rest => do
      let value ← resolveValue value
      let loc ← resolveValue loc
      return (value, loc) :: (← resolvePairs rest)

end

end LoadTables

/-- A word of the code, or of a jump table. -/
inductive CodeCell where
  | opcode (op : UInt8)
  | val (v : LoadVal)
  /-- The address of a word in a buffer of code. -/
  | cp (buffer offset : Nat)
  /-- A pointer to one of the jump tables of the code. -/
  | jumpTable (index : Nat)

/-- `Code`, a vector: another buffer is taken when it outgrows its capacity. -/
structure CodeVec where
  buffer : Nat
  capacity : Nat
  words : List CodeCell

namespace CodeVec

def new : CodeVec :=
  ⟨0, 0, []⟩

def reserve (v : CodeVec) (additional : Nat) : CodeVec :=
  if additional ≤ v.capacity - v.words.length then v
  else { v with
    buffer := v.buffer + 1
    capacity := max (2 * v.capacity) (v.words.length + additional) }

def push (v : CodeVec) (word : CodeCell) : CodeVec :=
  let v := if v.words.length < v.capacity then v
    else { v with buffer := v.buffer + 1, capacity := max (2 * v.capacity) 4 }
  { v with words := v.words ++ [word] }

end CodeVec

inductive PatchLocation where
  | patchCodeOffset (offset : Nat)
  | patchJumpTable (index : Nat)
deriving DecidableEq, Repr

/-- `LoaderState`.  Its maps list what was inserted, the last first. -/
structure CodeLoader where
  code : CodeVec
  labels : List (Nat × Nat)
  replaceLabels : List PatchLocation
  /-- By the name and the arity of the function. -/
  funs : List ((LoadVal × Nat) × Nat)
  lineTable : List (Nat × Nat)
  /-- The jump tables that the code points to. -/
  jumpTables : List (List (LoadVal × CodeCell))

namespace CodeLoader

def new : CodeLoader where
  code := .new
  labels := []
  replaceLabels := []
  funs := []
  lineTable := []
  jumpTables := []

def push (l : CodeLoader) (word : CodeCell) : CodeLoader :=
  { l with code := l.code.push word }

def createJumpDestination (l : CodeLoader) (dstOffset : Nat) : CodeCell :=
  .cp l.code.buffer dstOffset

/-- One of the arguments that `store_opcode_args` stores; `maybe_convert_label` for a label. -/
def storeArg (l : CodeLoader) (arg : LoadVal) : CodeLoader :=
  match arg with
  | .jumpTable pairs =>
      let index := l.jumpTables.length
      let l := l.push (.jumpTable index)
      { l with
        jumpTables := l.jumpTables ++ [pairs.map fun (value, loc) => (value, .val loc)]
        replaceLabels := l.replaceLabels ++ [.patchJumpTable index] }
  | .loadtimeLabel labelId =>
      match l.labels.lookup labelId with
      | some offset => l.push (l.createJumpDestination offset)
      | none =>
          let patch := PatchLocation.patchCodeOffset l.code.words.length
          { l with replaceLabels := l.replaceLabels ++ [patch] }.push (.val arg)
  | _ => l.push (.val arg)

def storeOpcodeArgs (l : CodeLoader) (args : List LoadVal) : CodeLoader :=
  args.foldl storeArg l

def storeOpcode (l : CodeLoader) (op : UInt8) (args : List LoadVal) : CodeLoader :=
  (l.push (.opcode op)).storeOpcodeArgs args

def smallUnsigned : LoadVal → Except Panic Nat
  | .small value => if value < 0 then .error .assertion else .ok value.toNat
  | _ => .error .assertion

def isSmall : LoadVal → Bool
  | .small _ => true
  | _ => false

/-- Nothing is added for a label, but its location is recorded. -/
def defineLabel (l : CodeLoader) (args : List LoadVal) : Except Panic CodeLoader :=
  match args with
  | [] => .error .indexOutOfBounds
  | f :: _ =>
      if isSmall f then do
        let labelId ← smallUnsigned f
        return { l with labels := (labelId, l.code.words.length) :: l.labels }
      else .error (.unimplemented "Opcode the arg is bad")

def recordLine (l : CodeLoader) (args : List LoadVal) : Except Panic CodeLoader :=
  match args with
  | [] => .ok l
  | arg :: _ =>
      if isSmall arg then do
        let lineNum ← smallUnsigned arg
        let offset := l.code.words.length
        -- the offsets must not decrease
        if l.lineTable.getLast?.all (fun line => line.1 ≤ offset) then
          return { l with lineTable := l.lineTable ++ [(offset, lineNum)] }
        else .error .assertion
      else .ok l

/-- The code of a function begins behind its `func_info`. -/
def beginFunction (l : CodeLoader) (op : UInt8) (args : List LoadVal) :
    Except Panic CodeLoader :=
  match args[1]?, args[2]? with
  | some f, some arity => do
      let arity ← smallUnsigned arity
      let funBegin := l.code.words.length + 4
      return { l with funs := ((f, arity), funBegin) :: l.funs }.storeOpcode op args
  | _, _ => .error .indexOutOfBounds

def storeInstruction (l : CodeLoader) (op : UInt8) (args : List LoadVal) :
    Except Panic CodeLoader :=
  if op = opcodeLabel then l.defineLabel args
  else if isLine op then l.recordLine args
  else if op = opcodeFuncInfo then l.beginFunction op args
  else .ok (l.storeOpcode op args)

end CodeLoader

/-! ## The two passes -/

namespace CodeLoading

def atEnd : Loading Bool := fun s =>
  .ok (s.reader.buf.length ≤ s.reader.pos, s)

def reset : Loading Unit := fun s =>
  .ok ((), { s with reader := { s.reader with pos := 0 } })

def arityOf (op : UInt8) : Loading Nat :=
  match opcodeArity op with
  | some arity => pure arity
  | none => panic .indexOutOfBounds

def orPanic {α : Type} : Except Panic α → Loading α
  | .ok a => pure a
  | .error p => panic p

/-- The words of the code, and one for each opcode that adds nothing. -/
def sizePass (fuel : Nat) : Nat → Nat → Loading Nat
  | 0, _ => panic .outOfFuel
  | n + 1, size => do
      if ← atEnd then return size
      let op ← reading readU8
      let arity ← arityOf op
      let _ ← times arity (read (listMode op) fuel)
      sizePass fuel n (size + (arity + 1))

def readArgs (tables : LoadTables) (fuel : Nat) (op : UInt8) (arity : Nat) :
    Loading (List LoadVal) :=
  times arity do
    let arg ← read (listMode op) fuel
    orPanic (tables.resolveValue arg)

def writePass (tables : LoadTables) (fuel : Nat) : Nat → CodeLoader → Loading CodeLoader
  | 0, _ => panic .outOfFuel
  | n + 1, l => do
      if ← atEnd then return l
      let op ← reading readU8
      let arity ← arityOf op
      let args ← readArgs tables fuel op arity
      let l ← orPanic (l.storeInstruction op args)
      writePass tables fuel n l

def parseRawCode (tables : LoadTables) (fuel : Nat) (l : CodeLoader) : Loading CodeLoader := do
  let codeSize ← sizePass fuel fuel 0
  let l := { l with code := l.code.reserve codeSize }
  reset
  let codeStart := l.code.buffer
  let l ← writePass tables fuel fuel l
  -- no reallocations
  if l.code.buffer = codeStart then return l
  panic .assertion

end CodeLoading

/-! ## Labels that were not known -/

namespace CodeLoader

def resolveLoadtimeLabel (l : CodeLoader) : CodeCell → Except Panic CodeCell
  | .val (.loadtimeLabel labelId) =>
      -- zero means no location
      if 0 < labelId then
        match l.labels.lookup labelId with
        | some dstOffset => .ok (l.createJumpDestination dstOffset)
        | none => .error .indexOutOfBounds
      else .ok (.val .nil)
  | _ => .error .assertion

def resolveLocations (l : CodeLoader) :
    List (LoadVal × CodeCell) → Except Panic (List (LoadVal × CodeCell))
  | [] => .ok []
  | (value, loc) :: rest => do
      let loc ← l.resolveLoadtimeLabel loc
      return (value, loc) :: (← l.resolveLocations rest)

def fixLabel (l : CodeLoader) : PatchLocation → Except Panic CodeLoader
  | .patchCodeOffset offset =>
      match l.code.words[offset]? with
      | none => .error .indexOutOfBounds
      | some val => do
          let word ← l.resolveLoadtimeLabel val
          return { l with code := { l.code with words := l.code.words.set offset word } }
  | .patchJumpTable index =>
      match l.jumpTables[index]? with
      | none => .error .indexOutOfBounds
      | some pairs => do
          let pairs ← l.resolveLocations pairs
          return { l with jumpTables := l.jumpTables.set index pairs }

def fixLabels (l : CodeLoader) : Except Panic CodeLoader :=
  l.replaceLabels.foldlM fixLabel { l with replaceLabels := [] }

end CodeLoader

/-- `parse_raw_code` and then `fix_labels`, for a code chunk. -/
def loadCode (tables : LoadTables) (fuel : Nat) (chunk : List UInt8) (heap : Heap) :
    Except Stop (CodeLoader × Heap) :=
  match CodeLoading.parseRawCode tables fuel .new ⟨.fromBytes chunk, heap⟩ with
  | .error stop => .error stop
  | .ok (l, s) =>
      match l.fixLabels with
      | .error p => .error (.panic p)
      | .ok l => .ok (l, s.heap)

end Zeptobeam
