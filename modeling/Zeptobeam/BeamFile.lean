/-
The chunks of a BEAM file.  After two signatures the file is chunks, each with a name of
four bytes and a size, and the loader takes the chunks one after the other: it reads what
it knows of a chunk, and goes on where the size says that the next one begins.
-/
import Zeptobeam.CompactTerm
import Zeptobeam.ExtTermFormat

namespace Zeptobeam

open Loading BinaryReader

structure LtImport where
  modAtomI : Nat
  funAtomI : Nat
  arity : Nat
deriving DecidableEq, Repr

structure LtExport where
  funAtomI : Nat
  arity : Nat
  label : Nat
deriving DecidableEq, Repr

structure LtFun where
  funAtomI : Nat
  arity : Nat
  codePos : Nat
  index : Nat
  nfrozen : Nat
  ouniq : Nat
deriving DecidableEq, Repr

/-- What is read of a file; the literal heap is part of the state. -/
structure BeamFile where
  atoms : List String
  imports : List LtImport
  exports : List LtExport
  locals : List LtExport
  lambdas : List LtFun
  code : List UInt8
  litTab : List Built

namespace BeamFile

def new : BeamFile :=
  ⟨[], [], [], [], [], [], []⟩

/-- `OPCODE_MAX`. -/
def opcodeMax : Nat := 184

/-- A difference of two `usize`. -/
def usizeSub (a b : Nat) : Loading Nat :=
  if a < b then panic .arithmeticOverflow else pure (a - b)

/-- An error of the read becomes one of the loader. -/
def mapAtomErr (what : String) (i : Nat) (x : Reading String) : Loading String := fun s =>
  match reading x s with
  | .error (.err (.readError e)) =>
      let text := ExtTermFormat.readErrorText e
      .error (.err (.codeLoadingFailed s!"beam/file: {what} parse failed at index {i}: {text}"))
  | result => result

/-- `read_compact_atom_length`. -/
def readCompactAtomLength : Loading Nat := do
  let b ← reading readU8
  if b.toNat / 8 % 2 = 0 then return b.toNat / 16
  else if b.toNat / 16 % 2 = 0 then
    let lo ← reading readU8
    return b.toNat / 32 * 256 + lo.toNat
  else
    let hex := String.ofList (Nat.toDigits 16 b.toNat)
    err (.codeLoadingFailed s!"beam/file: Unsupported compact atom length encoding: 0x{hex}")

/-- The atoms from the index `i` on. -/
def loadAtoms (readLength : Loading Nat) (readStr : Nat → Reading String) (what : String) :
    Nat → Nat → Loading (List String)
  | _, 0 => return []
  | i, n + 1 => do
      let atomLen ← readLength
      let atomText ← mapAtomErr what i (readStr atomLen)
      let others ← loadAtoms readLength readStr what (i + 1) n
      return atomText :: others

def readLengthU8 : Loading Nat := do
  return (← reading readU8).toNat

/-- A count that is negative as an `i32` says that the lengths are compact. -/
def loadAtomsUtf8 : Loading (List String) := do
  let rawCount ← reading readU32be
  if rawCount < 2 ^ 31 then loadAtoms readLengthU8 readStrUtf8 "AtU8 atom" 0 rawCount
  else if rawCount = 2 ^ 31 then panic .arithmeticOverflow
  else loadAtoms readCompactAtomLength readStrUtf8 "AtU8 atom" 0 (2 ^ 32 - rawCount)

def loadAtomsLatin1 : Loading (List String) := do
  let nAtoms ← reading readU32be
  loadAtoms readLengthU8 readStrLatin1 "Atom section" 0 nAtoms

def loadCode (chunkSz : Nat) : Loading (List UInt8) := do
  let _codeVer ← reading readU32be
  let _minOpcode ← reading readU32be
  let maxOpcode ← reading readU32be
  let _nLabels ← reading readU32be
  let _nFuns ← reading readU32be
  if opcodeMax < maxOpcode then
    err (.codeLoadingFailed "BEAM file comes from a newer and unsupported OTP version")
  else
    let size ← usizeSub chunkSz 20
    reading (unwrap (readBytes size))

def readImport : Loading LtImport := do
  return ⟨← reading readU32be, ← reading readU32be, ← reading readU32be⟩

def loadImports : Loading (List LtImport) := do
  let nImports ← reading readU32be
  times nImports readImport

def readExport : Loading LtExport := do
  return ⟨← reading readU32be, ← reading readU32be, ← reading readU32be⟩

/-- The exports, or the local functions, which have the same format. -/
def loadExports : Loading (List LtExport) := do
  let nExports ← reading readU32be
  times nExports readExport

def readFun : Loading LtFun := do
  return ⟨← reading readU32be, ← reading readU32be, ← reading readU32be, ← reading readU32be,
    ← reading readU32be, ← reading readU32be⟩

def loadFunTable : Loading (List LtFun) := do
  let nFuns ← reading readU32be
  times nFuns readFun

/-- `is_small`, `is_atom` or `is_loadtime`. -/
def isLineRef : LtTerm → Bool
  | .small _ | .loadtimeAtom _ | .loadtimeLabel _ | .loadtimeLiteral _ => true
  | _ => false

def readLineRef (fuel : Nat) : Loading Unit := do
  let val ← CompactTerm.read .asJumpTable fuel
  if isLineRef val then return ()
  else panic (.unimplemented "Unexpected data in line info section")

/-- A text whose error is dropped; what there is of it is consumed. -/
def readFilename : Loading Unit := do
  let nameSize ← reading readU16be
  fun s =>
    match reading (readBytes nameSize) s with
    | .ok (_, s') => .ok ((), s')
    | .error _ => .ok ((), s)

def loadLineInfo (fuel : Nat) : Loading Unit := do
  let _version ← reading readU32be
  let _flags ← reading readU32be
  let _nLineInstr ← reading readU32be
  let nLineRefs ← reading readU32be
  let nFilenames ← reading readU32be
  let _lineRefs ← times nLineRefs (readLineRef fuel)
  let _filenames ← times nFilenames readFilename
  return ()

/-- Read from other bytes, and leave the reader. -/
def reader {α : Type} (bytes : List UInt8) (x : Loading α) : Loading α := fun s =>
  match x ⟨fromBytes bytes, s.heap⟩ with
  | .ok (a, s') => .ok (a, { s with heap := s'.heap })
  | .error stop => .error stop

/-- The result is unwrapped. -/
def unwrapped {α : Type} (x : Loading α) : Loading α := fun s =>
  match x s with
  | .error (.err _) => .error (.panic .unwrap)
  | result => result

def readLiteral (fuel : Nat) : Loading Built := do
  let _size ← reading readU32be
  unwrapped (ExtTermFormat.decode fuel)

def decodeLiterals (fuel : Nat) (inflated : List UInt8) : Loading (List Built) :=
  reader inflated do
    let count ← reading readU32be
    times count (readLiteral fuel)

/-- `None` where the bytes are not what zlib would have written. -/
def inflateLiterals (inflate : List UInt8 → Option (List UInt8)) (uncompSz : Nat)
    (rawData : List UInt8) : Loading (List UInt8) :=
  if uncompSz = 0 then pure rawData
  else
    match inflate rawData with
    | none => panic .unwrap
    | some inflated => if inflated.length = uncompSz then pure inflated else panic .assertion

def loadLiterals (inflate : List UInt8 → Option (List UInt8)) (fuel chunkSz : Nat) :
    Loading (List Built) := do
  let uncompSz ← reading readU32be
  let size ← usizeSub chunkSz 4
  let rawData ← reading (unwrap (readBytes size))
  let literalData ← inflateLiterals inflate uncompSz rawData
  decodeLiterals fuel literalData

/-- One chunk, by its name. -/
def loadChunk (inflate : List UInt8 → Option (List UInt8)) (fuel : Nat) (file : BeamFile)
    (chunkH : String) (chunkSz : Nat) : Loading BeamFile :=
  match chunkH with
  | "Atom" => do return { file with atoms := file.atoms ++ (← loadAtomsLatin1) }
  | "AtU8" => do return { file with atoms := file.atoms ++ (← loadAtomsUtf8) }
  | "Code" => do return { file with code := ← loadCode chunkSz }
  | "ExpT" => do return { file with exports := ← loadExports }
  | "FunT" => do return { file with lambdas := file.lambdas ++ (← loadFunTable) }
  | "ImpT" => do return { file with imports := file.imports ++ (← loadImports) }
  | "Line" => do
      loadLineInfo fuel
      return file
  | "LitT" => do return { file with litTab := file.litTab ++ (← loadLiterals inflate fuel chunkSz) }
  | "LocT" => do return { file with locals := ← loadExports }
  | "Attr" | "CInf" | "Dbgi" | "Docs" | "Meta" | "Type" | "StrT" | "Abst" => do
      reading (skip chunkSz)
      return file
  | other => err (.codeLoadingFailed s!"beam/file: Unexpected chunk: {other}")

/-- The next chunk is aligned at 4 bytes: a sum of `u32`. -/
def alignedSz (chunkSz : Nat) : Loading Nat :=
  if 2 ^ 32 ≤ chunkSz + 3 then panic .arithmeticOverflow else pure (4 * ((chunkSz + 3) / 4))

/-- The chunks that are left; the end of the file is no error where a name should be. -/
def chunkLoop (inflate : List UInt8 → Option (List UInt8)) :
    Nat → BeamFile → Loading BeamFile
  | 0, _ => panic .outOfFuel
  | fuel + 1, file => fun s =>
      match reading (readStrLatin1 4) s with
      | .error (.err (.readError .prematureEOF)) => .ok (file, s)
      | .error stop => .error stop
      | .ok (chunkH, s) => (do
          let chunkSz ← reading readU32be
          let posBegin := (← get).reader.pos
          let file ← loadChunk inflate fuel file chunkH chunkSz
          let aligned ← alignedSz chunkSz
          reading (seek (posBegin + aligned))
          chunkLoop inflate fuel file) s

/-- `FOR1` and `BEAM`. -/
def hdr1 : List UInt8 := [70, 79, 82, 49]

def hdr2 : List UInt8 := [66, 69, 65, 77]

def readChunks (inflate : List UInt8 → Option (List UInt8)) (fuel : Nat) : Loading BeamFile := do
  reading (ensureBytes hdr1)
  let _beamSz ← reading readU32be
  reading (ensureBytes hdr2)
  chunkLoop inflate fuel new

end BeamFile

end Zeptobeam
