/-
What the segments of a binary stand for, and where `bs_create_bin` does what it should: the
binary has the bits of its segments one after the other, and where a segment can not be
taken the instruction jumps or raises.
-/
import Zeptobeam.BinaryConstruction
import Zeptobeam.BitsCopied

namespace Zeptobeam

namespace Building

open BitString BitsPaste ExceptState
open MatchContexts (UnitFits)

/-! ## What is meant -/

/-- The bits that a binary stands for. -/
def refBits (binaries : List ProcessHeapBinary) : BinaryRef → List Bool
  | .procHeap addr => (binaries[addr]?).elim [] fun bin => (bits bin.data).take bin.size
  | .slice orig offset size => ((refBits binaries orig).drop offset).take size

def termBits (binaries : List ProcessHeapBinary) : BuildTerm → Option (List Bool)
  | .emptyBinary => some []
  | .binary ref => some (refBits binaries ref)
  | _ => none

inductive SegmentKind where
  | integer
  | binary
deriving DecidableEq, Repr

/-- A segment; a size that is none is that of the whole source. -/
structure Segment where
  kind : SegmentKind
  number : BuildTerm
  unit : Nat
  flags : BuildTerm
  src : BuildTerm
  size : Option Nat

def SegmentKind.tag : SegmentKind → String
  | .integer => "integer"
  | .binary => "binary"

/-- A size as a term. -/
def sizeTerm : Option Nat → BuildTerm
  | none => .atom "all"
  | some n => .small n

/-- A segment in an operation list. -/
def Segment.terms (seg : Segment) : List BuildTerm :=
  [.atom seg.kind.tag, seg.number, .small seg.unit, seg.flags, seg.src, sizeTerm seg.size]

def tupleOf : List BuildTerm → BuildTerm
  | [] => .emptyTuple
  | t :: ts => .tuple (t :: ts)

def listOf : List BuildTerm → BuildTerm
  | [] => .nil
  | t :: ts => .cons t (listOf ts)

/-- The operation list of the segments. -/
def Lists (opList : BuildTerm) (segs : List Segment) : Prop :=
  opList = tupleOf (segs.flatMap Segment.terms) ∨ opList = listOf (segs.flatMap Segment.terms)

def isAtom (name : String) : BuildTerm → Bool
  | .atom other => other == name
  | _ => false

/-- A flag is given by its place in a number, or by its name in a list. -/
def flagSet (raw : BuildTerm) (name : String) (place : Nat) : Bool :=
  match raw with
  | .small value => value.toNat.testBit place
  | t => (elements t).any (isAtom name)

/-- The flags that the bits of an integer depend on. -/
def meantFlags (raw : BuildTerm) : BsFlags :=
  ⟨(if flagSet raw "little" 1 then 2 else 0) + (if flagSet raw "native" 4 then 16 else 0)⟩

/-- The value of an operand. -/
def operand (s : BuildProcess) : BuildTerm → BuildTerm
  | .register (.x n) => s.x[n]?.getD .nil
  | .register (.y n) => s.stack[n + 1]?.getD .nil
  | t => t

/-- The bits of a segment, where it can be taken. -/
def segmentBits (s : BuildProcess) (seg : Segment) : Option (List Bool) :=
  match seg.kind with
  | .integer =>
      (integerValue (operand s seg.src)).bind fun v =>
        seg.size.map fun n => integerBits (meantFlags seg.flags) v (n * seg.unit)
  | .binary =>
      (termBits s.binaries (operand s seg.src)).bind fun bs =>
        match seg.size with
        | none => some bs
        | some n => if n * seg.unit ≤ bs.length then some (bs.take (n * seg.unit)) else none

/-- The bits of the segments, one after the other. -/
def segmentsBits (s : BuildProcess) (segs : List Segment) : Option (List Bool) :=
  (segs.mapM (segmentBits s)).map List.flatten

/-- The value of a register is put in its place. -/
def put (s : BuildProcess) (t : BuildTerm) : Reg → BuildProcess
  | .x n => { s with x := s.x.set n t }
  | .y n => { s with stack := s.stack.set (n + 1) t }
  | .float _ => s

/-- An exception that the program can handle. -/
def Raised : BuildStop → Prop
  | .badarg => True
  | .systemLimit => True
  | _ => False

/-- The binaries that there were are as they were.  The bits that are meant are those of a
binary that is stored in the destination, and no other register changes; where nothing is
meant the fail label is gone to, and without one there is an exception. -/
def Constructs (s : BuildProcess) (dst : Reg) (meant : Except Bool (List Bool))
    (result : Except BuildStop Dispatch × BuildProcess) : Prop :=
  (∀ addr < s.binaries.length, result.2.binaries[addr]? = s.binaries[addr]?) ∧
    match meant with
    | .ok bs =>
        result.1 = .ok .next ∧ ∃ t, result.2.x = (put s t dst).x ∧
          result.2.stack = (put s t dst).stack ∧ termBits result.2.binaries t = some bs
    | .error true => result.1 = .ok .jump
    | .error false => ∃ stop, result.1 = .error stop ∧ Raised stop

/-- What is meant, or the way to fail. -/
def meantOr (hasFail : Bool) (meant : Option (List Bool)) : Except Bool (List Bool) :=
  meant.elim (.error hasFail) .ok

/-! ## What the instruction is given -/

def Loads (s : BuildProcess) : BuildTerm → Prop
  | .register (.x n) => n < s.x.length
  | .register (.y n) => n + 1 < s.stack.length
  | .register (.float _) => False
  | _ => True

def FlagsTerm : BuildTerm → Prop
  | .nil => True
  | .cons .. => True
  | .small value => 0 ≤ value ∧ value < 2 ^ 60
  | _ => False

/-- A segment as the compiler writes it. -/
structure Segment.WellFormed (s : BuildProcess) (seg : Segment) : Prop where
  unit : seg.unit < 2 ^ 60
  size : ∀ n, seg.size = some n → n < 2 ^ 60
  sized : seg.kind = .integer → seg.size.isSome
  flags : FlagsTerm seg.flags
  src : Loads s seg.src

/-- A register that a binary can be stored in. -/
def Takes (s : BuildProcess) : Reg → Prop
  | .x n => n < s.x.length
  | .y n => n + 1 < s.stack.length
  | .float _ => False

/-- The size of a binary in bits. -/
def refSize (binaries : List ProcessHeapBinary) : BinaryRef → Option Nat
  | .procHeap addr => (binaries[addr]?).map ProcessHeapBinary.size
  | .slice _ _ size => some size

/-- The size of a segment in bits, where it is sized. -/
def segmentSize (s : BuildProcess) (seg : Segment) : Option Nat :=
  match seg.size, operand s seg.src with
  | some n, _ => some (n * seg.unit)
  | none, .binary ref => refSize s.binaries ref
  | none, _ => none

def totalSize (s : BuildProcess) (segs : List Segment) : Nat :=
  (segs.map fun seg => (segmentSize s seg).getD 0).sum

/-- The product of the size and its unit fits. -/
def SizeFits (debug : Bool) (seg : Segment) : Prop :=
  ∀ n, seg.size = some n → UnitFits debug n seg.unit

/-- Where bits are copied as they should be. -/
def BinaryPlaced (offset size : Nat) : Prop :=
  size = 0 ∨ 8 ∣ offset ∧ 8 ∣ size ∨ 0 < offset ∧ offset < 8 ∧ 8 ≤ offset + size

instance (offset size : Nat) : Decidable (BinaryPlaced offset size) :=
  inferInstanceAs (Decidable (_ ∨ _ ∨ _))

/-- The segments are written where that works, up to one that is no binary and makes the
instruction jump. -/
def SegmentsPlaced (debug hasFail : Bool) (s : BuildProcess) (total : Nat) :
    Nat → List Segment → Prop
  | _, [] => True
  | offset, seg :: segs =>
      match seg.kind with
      | .integer =>
          IntegerPlaced debug (meantFlags seg.flags) offset ((segmentSize s seg).getD 0) total
              (operand s seg.src) ∧
            SegmentsPlaced debug hasFail s total (offset + (segmentSize s seg).getD 0) segs
      | .binary =>
          (∃ addr bin, operand s seg.src = .binary (.procHeap addr) ∧
              s.binaries[addr]? = some bin ∧ (segmentSize s seg).getD 0 ≤ bin.size ∧
              BinaryPlaced offset ((segmentSize s seg).getD 0) ∧
              SegmentsPlaced debug hasFail s total (offset + (segmentSize s seg).getD 0) segs) ∨
            hasFail = true ∧ termBits s.binaries (operand s seg.src) = none

/-- A segment of the whole source, which is no binary, and no label to go to. -/
def Rejected (hasFail : Bool) (s : BuildProcess) (segs : List Segment) : Prop :=
  hasFail = false ∧ ∃ pre seg post, segs = pre ++ seg :: post ∧ seg.kind = .binary ∧
    seg.size = none ∧ termBits s.binaries (operand s seg.src) = none ∧
    (∀ p ∈ pre, (segmentSize s p).isSome) ∧ totalSize s pre < 2 ^ 64

/-- There is nothing to write. -/
def AllEmpty (s : BuildProcess) (dst : Reg) (segs : List Segment) : Prop :=
  Takes s dst ∧ ∀ seg ∈ segs, segmentSize s seg = some 0 ∧ (segmentBits s seg).isSome

/-- The binary fits on the process heap, and every segment is written. -/
def Written (debug hasFail : Bool) (alloc : Nat) (s : BuildProcess) (dst : Reg)
    (segs : List Segment) : Prop :=
  Takes s dst ∧ (∀ seg ∈ segs, (segmentSize s seg).isSome) ∧
    0 < totalSize s segs ∧ totalSize s segs ≤ 512 ∧
    s.heapTop + (storageSize debug (totalSize s segs) + alloc) ≤ s.stackTop ∧
    s.heapTop + storageSize debug (totalSize s segs) < s.stackTop ∧
    SegmentsPlaced debug hasFail s (totalSize s segs) 0 segs

def CreateGuard (debug hasFail : Bool) (alloc : Nat) (s : BuildProcess) (dst : Reg)
    (segs : List Segment) : Prop :=
  (∀ seg ∈ segs, SizeFits debug seg) ∧
    (Rejected hasFail s segs ∨ AllEmpty s dst segs ∨ Written debug hasFail alloc s dst segs)

/-! ## The operation list -/

section Parsing

variable {debug : Bool} {word : BuildTerm → Nat} {s : BuildProcess} {seg : Segment}
  {segs : List Segment} {op : CreateOp} {ops : List CreateOp}

/-- Flags with the same order of bytes. -/
def SameOrder (flags other : BsFlags) : Prop :=
  flags.contains .little = other.contains .little ∧ flags.contains .native = other.contains .native

/-- How many bits are copied for a segment. -/
def Segment.sizeOrAll (seg : Segment) : SizeOrAll :=
  seg.size.elim .all fun n => .bits (n * seg.unit)

/-- The operation is that of the segment. -/
def Means (seg : Segment) : CreateOp → Prop
  | .integer unit flags src size =>
      seg.kind = .integer ∧ unit = seg.unit ∧ SameOrder flags (meantFlags seg.flags) ∧
        src = seg.src ∧ seg.size = some size
  | .binary _ _ src size =>
      seg.kind = .binary ∧ src = seg.src ∧ size = seg.sizeOrAll

theorem contains_little (flags : BsFlags) : flags.contains .little = flags.bits.testBit 1 := by
  have hand := Nat.and_two_pow flags.bits 1
  rw [BsFlags.contains, BsFlags.little]
  change (flags.bits &&& 2 ^ 1 == 2 ^ 1) = _
  rw [hand]
  cases flags.bits.testBit 1 <;> rfl

theorem contains_native (flags : BsFlags) : flags.contains .native = flags.bits.testBit 4 := by
  have hand := Nat.and_two_pow flags.bits 4
  rw [BsFlags.contains, BsFlags.native]
  change (flags.bits &&& 2 ^ 4 == 2 ^ 4) = _
  rw [hand]
  cases flags.bits.testBit 4 <;> rfl

theorem contains_meantFlags (raw : BuildTerm) :
    (meantFlags raw).contains .little = flagSet raw "little" 1 ∧
      (meantFlags raw).contains .native = flagSet raw "native" 4 := by
  rw [meantFlags]
  cases flagSet raw "little" 1 <;> cases flagSet raw "native" 4 <;> exact ⟨rfl, rfl⟩

/-- A flag is among those of a list when its name is. -/
theorem testBit_foldl_addFlag {place : Nat} {name : String}
    (hnamed : ∀ other, (flagNamed other).bits.testBit place = (other == name))
    (ts : List BuildTerm) (flags : BsFlags) :
    (ts.foldl addFlag flags).bits.testBit place =
      (flags.bits.testBit place || ts.any (isAtom name)) := by
  induction ts generalizing flags with
  | nil => simp
  | cons t ts ih =>
      have hstep : (addFlag flags t).bits.testBit place =
          (flags.bits.testBit place || isAtom name t) := by
        cases t with
        | atom other =>
            change (flags.bits ||| (flagNamed other).bits).testBit place = _
            rw [Nat.testBit_or, hnamed]
            rfl
        | _ => exact (Bool.or_false _).symm
      rw [List.foldl_cons, ih, hstep, List.any_cons, Bool.or_assoc]

theorem testBit_flagNamed_little (other : String) :
    (flagNamed other).bits.testBit 1 = (other == "little") := by
  unfold flagNamed
  by_cases hname : other = "little"
  · rw [if_pos hname, hname]
    rfl
  · rw [if_neg hname, beq_eq_false_iff_ne.mpr hname]
    split_ifs <;> rfl

theorem testBit_flagNamed_native (other : String) :
    (flagNamed other).bits.testBit 4 = (other == "native") := by
  unfold flagNamed
  by_cases hname : other = "native"
  · subst hname
    rfl
  · rw [beq_eq_false_iff_ne.mpr hname]
    split_ifs <;> rfl

theorem getSmallUnsigned_small {value : Int} (hpos : 0 ≤ value) (hvalue : value < 2 ^ 60) :
    getSmallUnsigned debug word (.small value) = .ok value.toNat := by
  have hsmall : Zeptobeam.getSmallUnsigned debug value = .ok value.toNat := by
    rw [Zeptobeam.getSmallUnsigned, if_neg (by omega), Int.emod_eq_of_lt hpos (by omega)]
  rw [getSmallUnsigned, hsmall]

theorem getSmallUnsigned_nat (debug : Bool) (word : BuildTerm → Nat) {n : Nat} (hn : n < 2 ^ 60) :
    getSmallUnsigned debug word (.small n) = .ok n := by
  rw [getSmallUnsigned_small (by omega) (by omega), Int.toNat_natCast]

theorem sameOrder_fromBitsTruncate (n : Nat) :
    SameOrder (.fromBitsTruncate n) (meantFlags (.small n)) := by
  obtain ⟨hlittle, hnative⟩ := contains_meantFlags (.small n)
  unfold SameOrder
  rw [hlittle, hnative, contains_little, contains_native]
  constructor
  · change (n &&& 31).testBit 1 = ((n : Int).toNat).testBit 1
    rw [Nat.testBit_and, Int.toNat_natCast]
    exact Bool.and_true _
  · change (n &&& 31).testBit 4 = ((n : Int).toNat).testBit 4
    rw [Nat.testBit_and, Int.toNat_natCast]
    exact Bool.and_true _

theorem parseFlags_of_term (debug : Bool) (word : BuildTerm → Nat) {raw : BuildTerm}
    (hraw : FlagsTerm raw) :
    ∃ flags, parseFlags debug word raw = .ok flags ∧ SameOrder flags (meantFlags raw) := by
  cases raw with
  | nil => exact ⟨_, rfl, rfl, rfl⟩
  | small value =>
      obtain ⟨n, rfl⟩ := Int.eq_ofNat_of_zero_le hraw.1
      refine ⟨.fromBitsTruncate n, ?_, sameOrder_fromBitsTruncate n⟩
      rw [parseFlags, getSmallUnsigned_small hraw.1 hraw.2]
      rfl
  | cons head tail =>
      obtain ⟨hlittle, hnative⟩ := contains_meantFlags (.cons head tail)
      refine ⟨_, rfl, ?_, ?_⟩
      · rw [hlittle, contains_little, testBit_foldl_addFlag testBit_flagNamed_little]
        rfl
      · rw [hnative, contains_native, testBit_foldl_addFlag testBit_flagNamed_native]
        rfl
  | _ => exact hraw.elim

theorem withUnit_of_fits {n unit : Nat} (h : UnitFits debug n unit) :
    withUnit debug n unit = .ok (n * unit) := by
  rw [withUnit, MatchContexts.withUnit_of_unitFits h]

theorem parseSize_of_fits (word : BuildTerm → Nat) (hseg : seg.WellFormed s)
    (hfits : SizeFits debug seg) :
    parseSize debug word (sizeTerm seg.size) seg.unit = .ok seg.sizeOrAll := by
  rw [Segment.sizeOrAll]
  cases hsize : seg.size with
  | none => rfl
  | some n =>
      have hsmall := getSmallUnsigned_nat debug word (hseg.size n hsize)
      simp only [sizeTerm, parseSize, hsmall, bind, Except.bind,
        withUnit_of_fits (hfits n hsize)]
      rfl

theorem parseTerms_of_wellFormed (word : BuildTerm → Nat)
    (hsegs : ∀ seg ∈ segs, seg.WellFormed s)
    (hfits : ∀ seg ∈ segs, SizeFits debug seg) :
    ∃ ops, parseTerms debug word (segs.flatMap Segment.terms) = .ok ops ∧
      List.Forall₂ Means segs ops := by
  induction segs with
  | nil => exact ⟨[], rfl, .nil⟩
  | cons seg segs ih =>
      obtain ⟨ops, hops, hmeans⟩ := ih
        (fun other hother => hsegs other (List.mem_cons_of_mem seg hother))
        (fun other hother => hfits other (List.mem_cons_of_mem seg hother))
      have hseg := hsegs seg List.mem_cons_self
      have hunit := getSmallUnsigned_nat debug word hseg.unit
      obtain ⟨flags, hflags, horder⟩ :=
        parseFlags_of_term debug word hseg.flags
      rw [List.flatMap_cons, Segment.terms]
      cases hkind : seg.kind with
      | integer =>
          obtain ⟨n, hn⟩ := Option.isSome_iff_exists.mp (hseg.sized hkind)
          have hsize := getSmallUnsigned_nat debug word (hseg.size n hn)
          refine ⟨.integer seg.unit flags seg.src n :: ops, ?_,
            .cons ⟨hkind, rfl, horder, rfl, hn⟩ hmeans⟩
          simp only [List.cons_append, List.nil_append, parseTerms, SegmentKind.tag, if_true,
            hunit, hflags, hn, sizeTerm, hsize, hops, bind, Except.bind]
          rfl
      | binary =>
          have hsize := parseSize_of_fits word hseg (hfits seg List.mem_cons_self)
          refine ⟨.binary seg.unit flags seg.src _ :: ops, ?_,
            .cons ⟨hkind, rfl, rfl⟩ hmeans⟩
          simp only [List.cons_append, List.nil_append, parseTerms, SegmentKind.tag,
            show ¬ "binary" = "integer" by decide, if_false, if_true, hunit, hflags, hsize, hops,
            bind, Except.bind]
          rfl

theorem elements_listOf (ts : List BuildTerm) : elements (listOf ts) = ts := by
  induction ts with
  | nil => rfl
  | cons t ts ih => rw [listOf, elements, ih]

theorem parseOps_of_wellFormed (word : BuildTerm → Nat) {opList : BuildTerm}
    (hlists : Lists opList segs)
    (hsegs : ∀ seg ∈ segs, seg.WellFormed s) (hfits : ∀ seg ∈ segs, SizeFits debug seg) :
    ∃ ops, parseOps debug word opList = .ok ops ∧ List.Forall₂ Means segs ops := by
  obtain ⟨ops, hops, hmeans⟩ := parseTerms_of_wellFormed word hsegs hfits
  have hflat : flattenOpList opList = .ok (segs.flatMap Segment.terms) := by
    unfold Lists at hlists
    generalize segs.flatMap Segment.terms = ts at hlists ⊢
    rcases hlists with rfl | rfl
    · cases ts <;> rfl
    · cases ts with
      | nil => rfl
      | cons t ts =>
          change Except.ok (elements (listOf (t :: ts))) = _
          rw [elements_listOf]
  refine ⟨ops, ?_, hmeans⟩
  rw [parseOps, hflat]
  exact hops

end Parsing

end Building

end Zeptobeam
