/-
The compact term format of BEAM files, and the integers in it.  A term begins with a byte
of a 3-bit tag and, but for the extended tags, a number: of 4 bits in the byte itself, of
11 bits with the byte that follows, or of the bytes that follow, whose count is in the
byte or follows as a number of its own.
-/
import Zeptobeam.LiteralHeap

namespace Zeptobeam

/-- What the decoder makes: values, and what the loader will replace by values. -/
inductive LtTerm where
  | small (value : Int)
  | nil
  | loadtimeAtom (index : Nat)
  | loadtimeLabel (index : Nat)
  | loadtimeLiteral (index : Nat)
  | registerX (index : Nat)
  | registerY (index : Nat)
  | registerFloat (index : Nat)
  | bignum (sign : Sign) (limbs : List Nat)
  | tuple (elements : List LtTerm)
  | jumpTable (pairs : List (LtTerm × LtTerm))

/-- How an extended list is read: to a jump table of values and labels, or to a tuple. -/
inductive ListParseMode where
  | asJumpTable
  | asTuple2Initializer
deriving DecidableEq, Repr

/-- `as usize` of an `isize`. -/
def asUsize (value : Int) : Nat :=
  (value % 2 ^ 64).toNat

namespace CompactTerm

open Loading BinaryReader

/-- `get_small_unsigned`; the sign is only checked in a debug build. -/
def getSmallUnsigned (value : Int) : Loading Nat :=
  if value < 0 then panic .assertion else pure value.toNat

def makeErr {α : Type} (e : CompactTermError) : Loading α :=
  err (.codeLoadingCompactTerm e)

/-- Big-endian digits, of which the sign is taken apart. -/
def bytesToSmall (sign : Sign) (longBytes : List UInt8) : LtTerm :=
  let n : Int := bigEndian longBytes
  .small (smallBits (if sign = .negative then -n else n))

/-- The number in the `nBytes` bytes that follow. -/
def readLong (nBytes : Nat) : Loading LtTerm := do
  let longBytes ← reading (readBytes nBytes)
  let sign := if 128 ≤ (longBytes.headD 0).toNat then Sign.negative else .positive
  if longBytes.length < 8 then return bytesToSmall sign longBytes
  match makeLimbsFromBytes .big longBytes with
  | .error p => panic p
  | .ok limbs => do
      createBignum limbs
      return .bignum sign limbs

/-- The number that begins with byte `b`, after its 3-bit tag. -/
def readWord : Nat → UInt8 → Loading LtTerm
  | 0, _ => panic .outOfFuel
  | fuel + 1, b =>
      if b.toNat / 8 % 2 = 0 then
        -- the 4 bits that follow contain the value
        return .small (b.toNat / 16)
      else if b.toNat / 16 % 2 = 0 then do
        -- the 3 most significant bits, and the byte that follows
        let low ← reading readU8
        return .small (b.toNat / 32 * 256 + low.toNat)
      else if b.toNat / 32 + 2 = 9 then do
        -- a nested number encodes the size
        let bnext ← reading readU8
        match ← readWord fuel bnext with
        | .small size => readLong ((← getSmallUnsigned size) + 9)
        | _ => panic (.unimplemented "read word encountered a wrong byte length")
      else readLong (b.toNat / 32 + 2)

/-- A tagged small integer. -/
def readInt (fuel : Nat) : Loading Int := do
  let b ← reading readU8
  if b.toNat % 8 ≠ 0 then panic .assertion
  match ← readWord fuel b with
  | .small value => return value
  | _ => panic (.unimplemented "unwrap bigint from term or return an error")

/-- A number that is to be an index. -/
def readIndex (fuel : Nat) (make : Nat → LtTerm) (text : String) : Loading LtTerm := do
  let b ← reading readU8
  match ← readWord fuel b with
  | .small index => return make (← getSmallUnsigned index)
  | _ => makeErr (.extendedTag text)

def parseExtFpreg (fuel : Nat) : Loading LtTerm :=
  readIndex fuel .registerFloat "Ext tag FPReg value too big"

def parseExtLiteral (fuel : Nat) : Loading LtTerm :=
  readIndex fuel .loadtimeLiteral "compact_term: loadtime Literal index too big"

/-- The amounts of an allocation list, added to the total so far. -/
def addAmounts (fuel : Nat) : Nat → Nat → Loading Nat
  | 0, totalWords => pure totalWords
  | n + 1, totalWords => do
      let _allocType ← readInt fuel
      let amount := asUsize (← readInt fuel)
      if 2 ^ 64 ≤ totalWords + amount then panic .arithmeticOverflow
      addAmounts fuel n (totalWords + amount)

def parseExtAllocList (fuel : Nat) : Loading LtTerm := do
  let nPairs := asUsize (← readInt fuel)
  return .small (smallBits (← addAmounts fuel nPairs 0))

section

variable (read : Loading LtTerm)

/-- A register, and its type, which is dropped. -/
def parseExtTypedRegister : Loading LtTerm := do
  let reg ← read
  let _typeIndex ← read
  return reg

def parseListAsTupleInitializer (fuel : Nat) : Loading LtTerm := do
  let arity := asUsize (← readInt fuel)
  if arity = 0 then return .nil
  Heap.alloc ((← get).heap.boxHeader + arity)
  return .tuple (← times arity read)

def parseListAsJumpTable (fuel : Nat) : Loading LtTerm := do
  let nPairs := asUsize (← readInt fuel) / 2
  Heap.alloc ((← get).heap.boxHeader + 2 * nPairs)
  return .jumpTable (← times nPairs do
    let value ← read
    let loc ← read
    return (value, loc))

def parseExtTag (mode : ListParseMode) (fuel : Nat) (b : UInt8) : Loading LtTerm :=
  match b.toNat / 8 with
  | 0b00010 =>
      match mode with
      | .asJumpTable => parseListAsJumpTable read fuel
      | .asTuple2Initializer => parseListAsTupleInitializer read fuel
  | 0b00110 => parseExtAllocList fuel
  | 0b00100 => parseExtFpreg fuel
  | 0b01000 => parseExtLiteral fuel
  | 0b01010 => parseExtTypedRegister read
  | _ => makeErr (.extendedTag s!"Ext tag {b.toNat} unknown")

end

/-- A small integer under a tag that allows no other number. -/
def onSmall (bword : LtTerm) (e : CompactTermError) (make : Int → Loading LtTerm) :
    Loading LtTerm :=
  match bword with
  | .small value => make value
  | _ => makeErr e

def makeAtom (index : Nat) : LtTerm :=
  if index = 0 then .nil else .loadtimeAtom index

/-- Read one term. -/
def read (mode : ListParseMode) : Nat → Loading LtTerm
  | 0 => panic .outOfFuel
  | fuel + 1 => do
      let b ← reading readU8
      let bword ← if b.toNat % 8 < 7 then readWord fuel b else pure (.small 0)
      match b.toNat % 8 with
      | 0 => onSmall bword .literalTag fun value => return .small value
      | 1 => return bword
      | 2 => onSmall bword .atomTag fun value => return makeAtom (← getSmallUnsigned value)
      | 3 => onSmall bword .xRegTag fun value => return .registerX (← getSmallUnsigned value)
      | 4 => onSmall bword .yRegTag fun value => return .registerY (← getSmallUnsigned value)
      | 5 => onSmall bword .labelTag fun value =>
          return .loadtimeLabel (← getSmallUnsigned value)
      | 6 => onSmall bword .characterTag fun value => return .small value
      | _ => parseExtTag (read mode fuel) mode fuel b

end CompactTerm

end Zeptobeam
