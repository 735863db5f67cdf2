/-
The instructions that construct binaries.  `bs_create_bin` sizes a list of segments and
writes them one after the other into a binary of that size; a builder makes the binary with
`bs_append` and is written to by `bs_put_integer` and `bs_put_binary`.
-/
import Zeptobeam.BitsPaste
import Zeptobeam.MatchContexts

namespace Zeptobeam

/-- `CurrentBinaryState`, with the binary by its address. -/
structure BinaryWriteState where
  dst : Option Nat
  offset : Nat
deriving DecidableEq, Repr

/-- A process; the binaries of its heap are listed by their addresses.  The memory is what
lies there before it is allotted. -/
structure BuildProcess where
  x : List BuildTerm
  stack : List BuildTerm
  binaries : List ProcessHeapBinary
  heapTop : Nat
  stackTop : Nat
  live : Nat
  memory : Nat → UInt8
  currentBin : BinaryWriteState

/-- What was changed before an instruction stops stays changed. -/
abbrev Building := ExceptT BuildStop (StateM BuildProcess)

/-- An operation of `bs_create_bin`. -/
inductive CreateOp where
  | integer (unit : Nat) (flags : BsFlags) (src : BuildTerm) (size : Nat)
  | binary (unit : Nat) (flags : BsFlags) (src : BuildTerm) (size : SizeOrAll)

namespace Building

open BitsPaste

def panic {α : Type} (p : Panic) : Building α :=
  throw (.panic p)

/-- A computation of its own, which may stop. -/
def lift {α : Type} (result : Except BuildStop α) : Building α :=
  match result with
  | .ok a => pure a
  | .error stop => throw stop

/-- `BitSize::with_unit`. -/
def withUnit (debug : Bool) (size unit : Nat) : Except BuildStop Nat :=
  match Matching.withUnit debug size unit with
  | .ok bits => .ok bits
  | .error p => .error (.panic p)

/-- `get_small_unsigned`; in a release build any term has its word without the tag. -/
def getSmallUnsigned (debug : Bool) (word : BuildTerm → Nat) : BuildTerm → Except BuildStop Nat
  | .small value =>
      match Zeptobeam.getSmallUnsigned debug value with
      | .ok n => .ok n
      | .error p => .error (.panic p)
  | t => if debug then .error (.panic .assertion) else .ok (word t)

def load (src : BuildTerm) : Building BuildTerm := do
  let s ← get
  match src with
  | .register (.x n) => (s.x[n]?).elim (panic .indexOutOfBounds) pure
  | .register (.y n) =>
      if s.stack.length < n + 1 then panic .unwrap
      else (s.stack[n + 1]?).elim (panic .indexOutOfBounds) pure
  | .register (.float _) => panic (.unimplemented "FP register load via general load()")
  | t => return t

/-- `store_value`, of a binary. -/
def storeValue (val : BuildTerm) (dst : Reg) : Building Unit := do
  let s ← get
  match dst with
  | .x n =>
      if n < s.x.length then set { s with x := s.x.set n val }
      else panic .indexOutOfBounds
  | .y n =>
      if s.stack.length < n + 1 then throw (.stackIndexRange n)
      else if n + 1 < s.stack.length then set { s with stack := s.stack.set (n + 1) val }
      else panic .indexOutOfBounds
  | .float _ => panic (.unimplemented "Cannot store non-numeric value into FP register")

/-- The instruction pointer is taken from the label. -/
def jump (debug hasFail : Bool) : Building Dispatch :=
  if hasFail then return .jump
  else if debug then panic .assertion
  else throw .invalidDereference

/-! ## Binaries -/

def getBinary (addr : Nat) : Building ProcessHeapBinary := do
  ((← get).binaries[addr]?).elim (throw .invalidDereference) pure

def getBitSize : BinaryRef → Building Nat
  | .procHeap addr => do return (← getBinary addr).size
  | .slice _ _ size => return size

def getData : BinaryRef → Building (List UInt8)
  | .procHeap addr => do return (← getBinary addr).data
  | .slice .. => panic (.unimplemented "not implemented")

/-- Of a slice it is empty. -/
def getDataMut : BinaryRef → Building (List UInt8)
  | .procHeap addr => do return (← getBinary addr).data
  | .slice .. => return []

def setData (ref : BinaryRef) (data : List UInt8) : Building Unit :=
  match ref with
  | .procHeap addr =>
      modify fun s => { s with binaries := s.binaries.modify addr fun bin => { bin with data } }
  | .slice .. => return

/-- The words of a `ProcessHeapBinary` without those of its data, of which one is counted
here; with the header of a boxed value. -/
def headerWords (debug : Bool) : Nat :=
  (if debug then 3 else 2) + 3

/-- `get_words_rounded_up` counts whole bytes only. -/
def storageSize (debug : Bool) (size : Nat) : Nat :=
  headerWords debug + (byteSizeRoundedDown size + 7) / 8

def onheapThreshold : Nat := 64

/-- `ensure_heap`; the garbage collector is not finished. -/
def ensureHeap (need : Nat) : Building Unit := do
  let s ← get
  if s.heapTop + need ≤ s.stackTop then return
  else panic (.unimplemented "Copying GC: Done")

/-- The first word of the data is written with the header, and the others are not. -/
def newData (debug : Bool) (s : BuildProcess) (size : Nat) : List UInt8 :=
  (List.range (byteSizeRoundedUp size)).map fun i =>
    if i < 8 then 0 else s.memory (8 * (s.heapTop + headerWords debug - 1) + i)

/-- `Binary::create_into`; no binary is made on the binary heap. -/
def createInto (debug : Bool) (size : Nat) : Building Nat := do
  if size = 0 then throw .creatingZeroSizedBinary
  if onheapThreshold < byteSizeRoundedUp size then
    panic (.unimplemented "create binary on the binary heap")
  let s ← get
  if s.stackTop ≤ s.heapTop + storageSize debug size then panic .heapIsFull
  let bin : ProcessHeapBinary := ⟨size, newData debug s size⟩
  set { s with
    heapTop := s.heapTop + storageSize debug size
    binaries := s.binaries ++ [bin] }
  return s.binaries.length

def sizeToCopy (src : BinaryRef) : SizeOrAll → Building Nat
  | .all => getBitSize src
  | .bits s => return s

/-- `bits_paste::put_binary`: how many bits were copied. -/
def putBinary (debug : Bool) (src : BinaryRef) (sizeOrAll : SizeOrAll) (dst : BinaryRef)
    (dstOffset : Nat) : Building Nat := do
  let size ← sizeToCopy src sizeOrAll
  let dstSize ← getBitSize dst
  let endBits ← lift (addWords debug dstOffset size)
  if endBits > dstSize then throw .binaryDestinationTooSmall
  let srcData ← getData src
  let dstData ← getDataMut dst
  if src = dst then throw .overlapping
  let data ← lift
    (if lastByteBits dstOffset = 0 then
      copyBitsFromOffset0BytealignedDst srcData size dstData dstOffset
    else copyBits debug srcData 0 dstData dstOffset size)
  setData dst data
  return size

/-- `put_integer` of a binary on the process heap. -/
def putInteger (debug : Bool) (addr : Nat) (val : BuildTerm) (size offset : Nat)
    (flags : BsFlags) : Building Unit := do
  let data ← getDataMut (.procHeap addr)
  setData (.procHeap addr) (← lift (BitsPaste.putInteger debug val size data offset flags))

/-! ## `bs_create_bin` -/

/-- The elements that `cons::for_each` visits. -/
def elements : BuildTerm → List BuildTerm
  | .cons head tail => head :: elements tail
  | _ => []

def flagNamed (name : String) : BsFlags :=
  if name = "little" then .little
  else if name = "signed" then .signed
  else if name = "exact" then .exact
  else if name = "native" then .native
  else if name = "aligned" then .aligned
  else .empty

def addFlag (flags : BsFlags) : BuildTerm → BsFlags
  | .atom name => flags.union (flagNamed name)
  | _ => flags

def parseFlags (debug : Bool) (word : BuildTerm → Nat) (raw : BuildTerm) :
    Except BuildStop BsFlags :=
  match raw with
  | .nil => .ok .empty
  | .small _ => do return .fromBitsTruncate (← getSmallUnsigned debug word raw)
  | .cons .. => .ok ((elements raw).foldl addFlag .empty)
  | _ => .error .badarg

def flattenOpList : BuildTerm → Except BuildStop (List BuildTerm)
  | .nil => .ok []
  | .emptyTuple => .ok []
  | .tuple ts => .ok ts
  | .cons head tail => .ok (elements (.cons head tail))
  | _ => .error .badarg

def parseSize (debug : Bool) (word : BuildTerm → Nat) (size : BuildTerm) (unit : Nat) :
    Except BuildStop SizeOrAll :=
  match size with
  | .atom "all" => .ok .all
  | _ => do return .bits (← withUnit debug (← getSmallUnsigned debug word size) unit)

/-- The loop of `parse_ops`, six terms for an operation. -/
def parseTerms (debug : Bool) (word : BuildTerm → Nat) :
    List BuildTerm → Except BuildStop (List CreateOp)
  | [] => .ok []
  | .atom tag :: _ :: unit :: flags :: src :: size :: terms =>
      if tag = "integer" then do
        let unit ← getSmallUnsigned debug word unit
        let flags ← parseFlags debug word flags
        let size ← getSmallUnsigned debug word size
        return .integer unit flags src size :: (← parseTerms debug word terms)
      else if tag = "binary" then do
        let unit ← getSmallUnsigned debug word unit
        let flags ← parseFlags debug word flags
        let size ← parseSize debug word size unit
        return .binary unit flags src size :: (← parseTerms debug word terms)
      else .error .badarg
  | _ => .error .badarg

def parseOps (debug : Bool) (word : BuildTerm → Nat) (opList : BuildTerm) :
    Except BuildStop (List CreateOp) := do
  parseTerms debug word (← flattenOpList opList)

def opBits (debug : Bool) : CreateOp → Building Nat
  | .integer unit _ _ size => lift (withUnit debug size unit)
  | .binary _ _ _ (.bits bits) => return bits
  | .binary _ _ src .all => do
      match ← load src with
      | .binary ref => getBitSize ref
      -- `is_binary` says yes, and there is no box to take the binary from
      | .emptyBinary => panic .assertion
      | _ => throw .badarg

def sumBits (debug : Bool) : List CreateOp → Nat → Building Nat
  | [], total => return total
  | op :: ops, total => do
      let bits ← opBits debug op
      sumBits debug ops (← lift (addWords debug total bits))

/-- Without a label the instruction is over. -/
def maybeJumpFail (hasFail : Bool) : Dispatch :=
  if hasFail then .jump else .next

/-- The loop that writes; it may end the instruction. -/
def writeOps (debug hasFail : Bool) (dstBin : Nat) :
    List CreateOp → Nat → Building (Option Dispatch)
  | [], _ => return none
  | .integer unit flags src size :: ops, offset => do
      let srcVal ← load src
      let bits ← lift (withUnit debug size unit)
      putInteger debug dstBin srcVal bits offset flags
      writeOps debug hasFail dstBin ops (← lift (addWords debug offset bits))
  | .binary _ _ src size :: ops, offset => do
      match ← load src with
      | .binary ref =>
          let step ← putBinary debug ref size (.procHeap dstBin) offset
          writeOps debug hasFail dstBin ops (← lift (addWords debug offset step))
      | .emptyBinary => panic .assertion
      | _ => return some (maybeJumpFail hasFail)

def bsCreateBin (debug : Bool) (word : BuildTerm → Nat) (hasFail : Bool) (alloc live : Nat)
    (dst : Reg) (opList : BuildTerm) : Building Dispatch := do
  let ops ← lift (parseOps debug word opList)
  let totalBits ← sumBits debug ops 0
  if totalBits = 0 then
    storeValue .emptyBinary dst
    return .next
  modify fun s => { s with live }
  -- the room on the binary heap does not matter, where nothing is made
  if byteSizeRoundedUp totalBits ≤ onheapThreshold then
    ensureHeap (storageSize debug totalBits + alloc)
  let dstBin ← createInto debug totalBits
  match ← writeOps debug hasFail dstBin ops 0 with
  | some dispatch => return dispatch
  | none =>
      storeValue (.binary (.procHeap dstBin)) dst
      return .next

/-! ## The builder -/

/-- Compares the other way than its comment says. -/
def isSizeTooBig (bytes : Nat) : Bool :=
  bytes < (2 ^ 64 - 1) / 8

def bsAppend (debug hasFail : Bool) (sz unit : Nat) (bin : BuildTerm) (dst : Reg) :
    Building Dispatch := do
  let additionalBits ← lift (withUnit debug sz unit)
  match bin with
  | .emptyBinary => create additionalBits none 0
  | .binary ref => create additionalBits (some ref) (← getBitSize ref)
  | _ => if hasFail then return .jump else throw .badarg
where
  /-- The data of the binary that is appended to. -/
  copyExisting (newBin : Nat) (bin : Option BinaryRef) (existingBits : Nat) : Building Unit :=
    match bin with
    | none => return
    | some ref => do
        if existingBits = 0 then return
        let srcData ← getData ref
        let dstData ← getDataMut (.procHeap newBin)
        let copyLen := min (min (byteSizeRoundedUp existingBits) srcData.length) dstData.length
        setData (.procHeap newBin) (pasteBytes dstData 0 (srcData.take copyLen))
  /-- The rest of the instruction, with the binary that is appended to. -/
  create (additionalBits : Nat) (bin : Option BinaryRef) (existingBits : Nat) :
      Building Dispatch := do
    let totalBits ← lift (addWords debug existingBits additionalBits)
    if totalBits = 0 then
      storeValue .emptyBinary dst
      return .next
    let byteSz := byteSizeRoundedUp totalBits
    if hasFail ∧ isSizeTooBig byteSz then throw .systemLimit
    if byteSz ≤ onheapThreshold then ensureHeap (storageSize debug totalBits)
    let newBin ← createInto debug totalBits
    copyExisting newBin bin existingBits
    modify fun s => { s with currentBin := ⟨some newBin, existingBits⟩ }
    storeValue (.binary (.procHeap newBin)) dst
    return .next

/-- The binary that is open for writing. -/
def currentDst (debug : Bool) : Building Nat := do
  let s ← get
  match s.currentBin.dst with
  | some addr => return addr
  | none => if debug then panic .assertion else panic .unwrap

def advance (debug : Bool) (bits : Nat) : Building Unit := do
  let s ← get
  let offset ← lift (addWords debug s.currentBin.offset bits)
  set { s with currentBin := { s.currentBin with offset } }

/-- The unit is not used. -/
def bsPutInteger (debug : Bool) (argSz : Nat) (_unit : Nat) (flags : Nat) (src : BuildTerm) :
    Building Dispatch := do
  let addr ← currentDst debug
  putInteger debug addr src argSz (← get).currentBin.offset (.fromBitsTruncate flags)
  advance debug argSz
  return .next

def getSizeOrAll (debug : Bool) (word : BuildTerm → Nat) (size : BuildTerm) :
    Except BuildStop SizeOrAll :=
  match size with
  | .atom "all" => .ok .all
  | _ => do return .bits (← getSmallUnsigned debug word size)

/-- `get_trait_mut_from_term`. -/
def traitFromTerm : BuildTerm → Building BinaryRef
  | .binary ref => return ref
  | .bignum .. | .tuple _ | .other true _ => throw .invalidDereference
  | _ => panic .assertion

/-- The source and the destination of `put_binary` are exchanged, and the unit is not
used. -/
def bsPutBinary (debug : Bool) (word : BuildTerm → Nat) (hasFail : Bool) (inSize : BuildTerm)
    (_unit : Nat) (src : BuildTerm) : Building Dispatch := do
  let addr ← currentDst debug
  let sizeOrAll ← lift (getSizeOrAll debug word inSize)
  let ref ← traitFromTerm src
  let offset := (← get).currentBin.offset
  match ← ExceptState.attempt (putBinary debug (.procHeap addr) sizeOrAll ref offset) with
  | .ok copiedSize =>
      advance debug copiedSize
      return .next
  | .error .binaryDestinationTooSmall => jump debug hasFail
  | .error stop => throw stop

end Building

end Zeptobeam
