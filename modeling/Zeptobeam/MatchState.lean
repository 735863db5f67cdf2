/-
Match contexts: a position in a binary, and where the binary stops.
-/
import Zeptobeam.FileReader

namespace Zeptobeam

/-- `get_small_unsigned`, of the small integer `value`; a debug build asserts that it is not
negative. -/
def getSmallUnsigned (debug : Bool) (value : Int) : Except Panic Nat :=
  if debug ∧ value < 0 then .error .assertion
  else .ok (value % 2 ^ 61).toNat

/-- `BinaryMatchState`, with its match buffer; positions count bits. -/
structure BinaryMatchState where
  orig : TBinary
  readPosition : Nat
  stopAt : Nat
deriving DecidableEq, Repr

namespace BinaryMatchState

/-- The state of the initial match step. -/
def new (bin : TBinary) : BinaryMatchState where
  orig := bin
  readPosition := 0
  stopAt := bin.bitSize

/-- A debug build asserts that the position does not lie behind the end; in a release build
the difference of the words wraps. -/
def getBitsRemaining (debug : Bool) (m : BinaryMatchState) : Except Panic Nat :=
  if m.readPosition ≤ m.stopAt then .ok (m.stopAt - m.readPosition)
  else if debug then .error .assertion
  else .ok ((m.stopAt + 2 ^ 64 - m.readPosition) % 2 ^ 64)

def setOffset (m : BinaryMatchState) (offs : Nat) : BinaryMatchState :=
  { m with readPosition := offs }

def increaseOffset (m : BinaryMatchState) (offs : Nat) : BinaryMatchState :=
  { m with readPosition := m.readPosition + offs }

/-- The reader that the instructions make for the position. -/
def reader (m : BinaryMatchState) : BitReader :=
  m.orig.bitReader.addBitOffset m.readPosition

theorem getBitsRemaining_of_le {m : BinaryMatchState} (debug : Bool)
    (h : m.readPosition ≤ m.stopAt) :
    m.getBitsRemaining debug = .ok (m.stopAt - m.readPosition) :=
  if_pos h

end BinaryMatchState

end Zeptobeam
