/-
Runs of matching instructions on one match context.  The context stands for the bits of the
binary from its position on, and an instruction takes bits from there, looks at how many
there are, or goes to a position that was saved.
-/
import Zeptobeam.BitMatching
import Zeptobeam.BitReading
import Zeptobeam.Lib.GuardedRun

namespace Zeptobeam

open BitString

/-- A source operand: a register, or a value. -/
inductive Operand where
  | reg (r : Reg)
  | value (v : RegValue)
deriving DecidableEq, Repr

/-- The literal of `bs_match_string`. -/
inductive MatchLiteral where
  | emptyBinary
  | binary (b : TBinary)
  /-- A term that is no binary. -/
  | other
deriving DecidableEq, Repr

/-- An instruction, with its sizes loaded. -/
inductive MatchOp where
  | skipBits2 (size unit : Nat)
  | getBinary2 (live size unit : Nat) (dst : Reg)
  | matchString (bits : Nat) (literal : MatchLiteral)
  | testTail2 (bits : Nat)
  | getTail (dst : Reg) (live : Nat)
  | getPosition (dst : Reg)
  | setPosition (pos : Operand)
deriving DecidableEq, Repr

/-- The instruction goes on, or jumps to its fail label. -/
inductive Dispatch where
  | next
  | jump
deriving DecidableEq, Repr

namespace MatchContexts

open Matching

def bsSkipBits2 (debug : Bool) (size unit : Nat) : Matching Dispatch := do
  let skip ← lift (withUnit debug size unit)
  let remaining ← getBitsRemaining debug
  if remaining < skip then return .jump
  increaseOffset skip
  return .next

/-- An `Err` is unwrapped. -/
def unwrap {α : Type} (x : Matching α) : Matching α := ExceptT.mk do
  match ← ExceptT.run x with
  | .ok a => return .ok a
  | .error (.panic p) => return .error (.panic p)
  | .error _ => return .error (.panic .unwrap)

/-- The fail label is not used. -/
def bsGetBinary2 (debug : Bool) (live size unit : Nat) (dst : Reg) : Matching Dispatch := do
  let bitSize ← lift (withUnit debug size unit)
  if bitSize ≠ 0 then
    let slice ← makeSlice debug live bitSize
    increaseOffset bitSize
    storeValue slice dst
  else
    unwrap (storeValue .emptyBinary dst)
  return .next

def bsMatchString (debug : Bool) (bits : Nat) (literal : MatchLiteral) : Matching Dispatch := do
  let remaining ← getBitsRemaining debug
  if remaining < bits then return .jump
  let nBytes := bits / 8
  match literal with
  -- `is_binary` says yes, and there is no box to take the binary from
  | .emptyBinary => throw .invalidDereference
  | .binary b =>
      let reader := (← getContext).reader
      if (List.range nBytes).any fun i => reader.read i ≠ b.bitReader.read i then return .jump
      increaseOffset bits
      return .next
  | .other => return .jump

def bsTestTail2 (debug : Bool) (bits : Nat) : Matching Dispatch := do
  if (← getBitsRemaining debug) ≠ bits then return .jump
  return .next

def bsGetTail (debug : Bool) (dst : Reg) (live : Nat) : Matching Dispatch := do
  let remaining ← getBitsRemaining debug
  if remaining = 0 then
    storeValue .emptyBinary dst
    return .next
  let slice ← makeSlice debug live remaining
  storeValue slice dst
  return .next

def bsGetPosition (dst : Reg) : Matching Dispatch := do
  storeValue (.small (smallBits (← getContext).readPosition)) dst
  return .next

def load (src : Operand) : Matching RegValue := do
  let s ← get
  match src with
  | .reg (.x n) => (s.x[n]?).elim (panic .indexOutOfBounds) pure
  | .reg (.y n) =>
      if s.stack.length < n + 1 then panic .unwrap
      else (s.stack[n + 1]?).elim (panic .indexOutOfBounds) pure
  | .reg (.float _) => panic (.unimplemented "FP register load via general load()")
  | .value v => return v

def bsSetPosition (debug : Bool) (pos : Operand) : Matching Dispatch := do
  match ← load pos with
  | .small value => setOffset (← lift (getSmallUnsigned debug value))
  | _ => setOffset 0
  return .next

def perform (debug : Bool) : MatchOp → Matching Dispatch
  | .skipBits2 size unit => bsSkipBits2 debug size unit
  | .getBinary2 live size unit dst => bsGetBinary2 debug live size unit dst
  | .matchString bits literal => bsMatchString debug bits literal
  | .testTail2 bits => bsTestTail2 debug bits
  | .getTail dst live => bsGetTail debug dst live
  | .getPosition dst => bsGetPosition dst
  | .setPosition pos => bsSetPosition debug pos

/-! ## What the instructions should do -/

/-- What is stored in a register. -/
inductive Stored where
  | bits (l : List Bool)
  | position (p : Nat)

def Denotes : RegValue → Stored → Prop
  | .emptyBinary, .bits l => l = []
  | .slice _ b, .bits l => b.bits = l
  | .small value, .position p => value = p
  | _, _ => False

structure Effect where
  dispatch : Dispatch
  position : Nat
  output : Option (Reg × Stored)

/-- The fail label, with the position where it was. -/
def failed (position : Nat) : Effect :=
  ⟨.jump, position, none⟩

def literalBits : MatchLiteral → List Bool
  | .binary b => b.bits
  | _ => []

/-- What an instruction does to the bits from the position on; `saved` is the position that
is gone to. -/
def effect (position saved : Nat) (rest : List Bool) : MatchOp → Effect
  | .skipBits2 size unit =>
      if size * unit ≤ rest.length then ⟨.next, position + size * unit, none⟩
      else failed position
  | .getBinary2 _ size unit dst =>
      if size * unit ≤ rest.length then
        ⟨.next, position + size * unit, some (dst, .bits (rest.take (size * unit)))⟩
      else failed position
  | .matchString bits literal =>
      if bits ≤ rest.length ∧ rest.take bits = (literalBits literal).take bits then
        ⟨.next, position + bits, none⟩
      else failed position
  | .testTail2 bits => if rest.length = bits then ⟨.next, position, none⟩ else failed position
  | .getTail dst _ => ⟨.next, position, some (dst, .bits rest)⟩
  | .getPosition dst => ⟨.next, position, some (dst, .position position)⟩
  | .setPosition _ => ⟨.next, saved, none⟩

/-- The value of a register is put in its place. -/
def put (s : MatchProcess) (v : RegValue) : Reg → MatchProcess
  | .x n => { s with x := s.x.set n v }
  | .y n => { s with stack := s.stack.set (n + 1) v }
  | .float _ => s

def SameRegisters (s s' : MatchProcess) : Prop :=
  s'.x = s.x ∧ s'.fp = s.fp ∧ s'.stack = s.stack

/-- The registers hold what was stored, and what they held before everywhere else. -/
def HasStored (s s' : MatchProcess) : Option (Reg × Stored) → Prop
  | none => SameRegisters s s'
  | some (dst, stored) => ∃ v, Denotes v stored ∧ SameRegisters (put s v dst) s'

def Performs (s : MatchProcess) (e : Effect)
    (result : Except MatchStop Dispatch × MatchProcess) : Prop :=
  result.1 = .ok e.dispatch ∧ result.2.context = s.context.setOffset e.position ∧
    HasStored s result.2 e.output

/-- The bits from the position on. -/
def rest (s : MatchProcess) : List Bool :=
  s.context.orig.bits.drop s.context.readPosition

def operandValue (s : MatchProcess) : Operand → Option RegValue
  | .reg (.x n) => s.x[n]?
  | .reg (.y n) => s.stack[n + 1]?
  | .reg (.float _) => none
  | .value v => some v

/-- The position that the instruction is given. -/
def givenPosition (s : MatchProcess) : MatchOp → Nat
  | .setPosition pos =>
      match operandValue s pos with
      | some (.small value) => value.toNat
      | _ => 0
  | _ => 0

/-- The instruction does what it should. -/
def StepRight (debug : Bool) (s : MatchProcess) (op : MatchOp) : Prop :=
  Performs s (effect s.context.readPosition (givenPosition s op) (rest s) op)
    (run (perform debug op) s)

/-! ## Runs -/

/-- A run, with the positions that were saved. -/
structure MatchRun where
  proc : MatchProcess
  saved : List Nat

def step (debug : Bool) (r : MatchRun) (op : MatchOp) : MatchRun where
  proc := (run (perform debug op) r.proc).2
  saved :=
    match op with
    | .getPosition _ => r.proc.context.readPosition :: r.saved
    | _ => r.saved

/-- The context is one of the binary, with its position inside of it. -/
structure Valid (bin : TBinary) (r : MatchRun) : Prop where
  orig : r.proc.context.orig = bin
  stopAt : r.proc.context.stopAt = bin.bitSize
  inBounds : r.proc.context.readPosition ≤ bin.bitSize
  saved : ∀ p ∈ r.saved, p ≤ bin.bitSize ∧ p < 2 ^ 60

/-- `with_unit` gives the product. -/
def UnitFits (debug : Bool) (size unit : Nat) : Prop :=
  if debug then unit ≠ 0 ∧ size < (2 ^ 64 - 1) / unit else size * unit < 2 ^ 64

/-- A register that a binary can be stored in. -/
def Takes (s : MatchProcess) : Reg → Prop
  | .x n => n < s.x.length
  | .y n => n + 1 < s.stack.length
  | .float _ => False

/-- The heap has room for a slice. -/
def HasRoom (debug : Bool) (s : MatchProcess) : Prop :=
  s.heapTop + sliceWords debug < s.stackTop

/-- The instruction is well formed, and `bs_get_binary2` asks for no more than there is. -/
def Guard (debug : Bool) (r : MatchRun) : MatchOp → Prop
  | .skipBits2 size unit =>
      UnitFits debug size unit ∨
        debug = false ∧ (rest r.proc).length < size * unit % 2 ^ 64
  | .getBinary2 _ size unit dst =>
      UnitFits debug size unit ∧ size * unit ≤ (rest r.proc).length ∧ Takes r.proc dst ∧
        (size * unit ≠ 0 → HasRoom debug r.proc)
  | .matchString bits literal =>
      8 ∣ bits ∧ ∃ b, literal = .binary b ∧ b.WellFormed ∧ bits ≤ b.bitSize
  | .testTail2 _ => True
  | .getTail dst _ => Takes r.proc dst ∧ (rest r.proc ≠ [] → HasRoom debug r.proc)
  | .getPosition dst => Takes r.proc dst ∧ r.proc.context.readPosition < 2 ^ 60
  | .setPosition pos => ∃ p ∈ r.saved, operandValue r.proc pos = some (.small p)

/-! ## One instruction -/

section Steps

variable {debug : Bool} {s : MatchProcess} {bin : TBinary} {r : MatchRun}

theorem run_lift_ok {α : Type} {result : Except Panic α} {a : α} (h : result = .ok a)
    (s : MatchProcess) : run (lift result) s = (.ok a, s) := by
  rw [h]
  rfl

theorem run_increaseOffset (n : Nat) (s : MatchProcess) :
    run (increaseOffset n) s = (.ok (), { s with context := s.context.increaseOffset n }) := rfl

theorem run_getBitsRemaining (debug : Bool)
    (h : s.context.readPosition ≤ s.context.stopAt) :
    run (getBitsRemaining debug) s =
      (.ok (s.context.stopAt - s.context.readPosition), s) := by
  have hcontext : run getContext s = (.ok s.context, s) := rfl
  rw [getBitsRemaining, run_bind_ok hcontext]
  exact run_lift_ok (BinaryMatchState.getBitsRemaining_of_le debug h) s

theorem run_storeValue (v : RegValue) {dst : Reg} (h : Takes s dst) :
    run (storeValue v dst) s = (.ok (), put s v dst) := by
  rw [storeValue, run_bind_ok (run_get s)]
  cases dst with
  | x n =>
      have hn : n < s.x.length := h
      simp only [if_pos hn, run_set, put]
  | y n =>
      have hn : n + 1 < s.stack.length := h
      have hnot : ¬ s.stack.length < n + 1 := by omega
      simp only [if_neg hnot, if_pos hn, run_set, put]
  | float n => exact h.elim

/-- A slice is made at the heap top. -/
theorem run_makeSlice (live : Nat) {size : Nat} (hsize : size ≠ 0) (hroom : HasRoom debug s) :
    run (makeSlice debug live size) s =
      (.ok (.slice s.heapTop (.slice s.context.orig s.context.readPosition size)),
        { s with live, heapTop := s.heapTop + sliceWords debug }) := by
  have hensure : run (ensureHeap (sliceWords debug)) { s with live } =
      (.ok (), { s with live }) := by
    have hle : s.heapTop + sliceWords debug ≤ s.stackTop := Nat.le_of_lt hroom
    rw [ensureHeap, run_bind_ok (run_get _)]
    simp only [if_pos hle, run_pure]
  have hcontext : run getContext { s with live } = (.ok s.context, { s with live }) := rfl
  have hnot : ¬ s.stackTop ≤ s.heapTop + sliceWords debug := Nat.not_le_of_lt hroom
  rw [makeSlice, run_bind_ok (run_modify _ s), run_bind_ok hensure, run_bind_ok hcontext,
    createSlice, if_neg hsize]
  simp only
  rw [run_bind_ok (run_get _)]
  simp only [if_neg hnot]
  rw [run_bind_ok (run_set _ _), run_pure]

theorem Valid.length_rest (h : Valid bin r) (hbin : bin.WellFormed) :
    (rest r.proc).length = r.proc.context.stopAt - r.proc.context.readPosition := by
  rw [rest, List.length_drop, h.orig, TBinary.length_bits hbin, h.stopAt]

theorem Valid.run_getBitsRemaining (h : Valid bin r) (hbin : bin.WellFormed) (debug : Bool) :
    run (getBitsRemaining debug) r.proc = (.ok (rest r.proc).length, r.proc) := by
  have hle : r.proc.context.readPosition ≤ r.proc.context.stopAt := by
    rw [h.stopAt]
    exact h.inBounds
  rw [h.length_rest hbin]
  exact MatchContexts.run_getBitsRemaining debug hle

theorem withUnit_of_unitFits {size unit : Nat} (h : UnitFits debug size unit) :
    withUnit debug size unit = .ok (size * unit) := by
  unfold UnitFits at h
  unfold withUnit
  cases debug with
  | true =>
      obtain ⟨hunit, hsize⟩ : unit ≠ 0 ∧ size < (2 ^ 64 - 1) / unit := h
      rw [if_pos rfl, if_neg hunit, if_pos hsize]
  | false =>
      have hproduct : size * unit < 2 ^ 64 := h
      simp only [Bool.false_eq_true, if_false]
      rw [Nat.mod_eq_of_lt hproduct]

theorem performs_failed (s : MatchProcess) :
    Performs s (failed s.context.readPosition) (.ok .jump, s) :=
  ⟨rfl, rfl, rfl, rfl, rfl⟩

theorem stepRight_skipBits2 (hvalid : Valid bin r) (hbin : bin.WellFormed) {size unit : Nat}
    (hguard : Guard debug r (.skipBits2 size unit)) :
    StepRight debug r.proc (.skipBits2 size unit) := by
  have hremaining := hvalid.run_getBitsRemaining hbin debug
  rw [StepRight, perform, bsSkipBits2, effect]
  rcases hguard with hfits | ⟨rfl, hwraps⟩
  · rw [run_bind_ok (run_lift_ok (withUnit_of_unitFits hfits) _), run_bind_ok hremaining]
    by_cases hle : size * unit ≤ (rest r.proc).length
    · rw [if_pos hle, if_neg (by omega), run_bind_ok (run_increaseOffset _ _), run_pure]
      exact ⟨rfl, rfl, rfl, rfl, rfl⟩
    · rw [if_neg hle, if_pos (by omega), run_pure]
      exact performs_failed r.proc
  · have hle := Nat.mod_le (size * unit) (2 ^ 64)
    have hunit : withUnit false size unit = .ok (size * unit % 2 ^ 64) := rfl
    rw [run_bind_ok (run_lift_ok hunit _), run_bind_ok hremaining, if_pos hwraps,
      if_neg (by omega), run_pure]
    exact performs_failed r.proc

/-- What is stored is in its register, and nothing else changes. -/
theorem hasStored_put {s' : MatchProcess} (v : RegValue) {stored : Stored} (dst : Reg)
    (hv : Denotes v stored) (hsame : SameRegisters s s') :
    HasStored s (put s' v dst) (some (dst, stored)) := by
  obtain ⟨hx, hfp, hstack⟩ := hsame
  refine ⟨v, hv, ?_⟩
  cases dst with
  | x n => exact ⟨by simp only [put, hx], hfp, hstack⟩
  | y n => exact ⟨hx, hfp, by simp only [put, hstack]⟩
  | float n => exact ⟨hx, hfp, hstack⟩

@[simp]
theorem context_put (s : MatchProcess) (v : RegValue) (dst : Reg) :
    (put s v dst).context = s.context := by
  cases dst <;> rfl

/-- A slice has the bits of the binary that it is made of. -/
theorem denotes_slice (addr size : Nat) (s : MatchProcess) :
    Denotes (.slice addr (.slice s.context.orig s.context.readPosition size))
      (.bits ((rest s).take size)) := rfl

theorem run_unwrap_ok {α : Type} {x : Matching α} {a : α} {s' : MatchProcess}
    (h : run x s = (.ok a, s')) : run (unwrap x) s = (.ok a, s') := by
  unfold run at h ⊢
  rw [unwrap, ExceptT.run_mk, StateT.run_bind, h]
  rfl

theorem stepRight_getBinary2 {live size unit : Nat} {dst : Reg}
    (hguard : Guard debug r (.getBinary2 live size unit dst)) :
    StepRight debug r.proc (.getBinary2 live size unit dst) := by
  obtain ⟨hfits, hle, hdst, hroom⟩ := hguard
  rw [StepRight, perform, bsGetBinary2, effect, if_pos hle,
    run_bind_ok (run_lift_ok (withUnit_of_unitFits hfits) _)]
  by_cases hsize : size * unit = 0
  · rw [if_neg (not_not.mpr hsize), run_bind_ok (run_unwrap_ok (run_storeValue .emptyBinary hdst)),
      run_pure, hsize]
    exact ⟨rfl, context_put .., hasStored_put _ dst rfl ⟨rfl, rfl, rfl⟩⟩
  · have hstore : Takes { r.proc with
        context := r.proc.context.increaseOffset (size * unit), live,
        heapTop := r.proc.heapTop + sliceWords debug } dst := hdst
    rw [if_pos hsize, run_bind_ok (run_makeSlice live hsize (hroom hsize)),
      run_bind_ok (run_increaseOffset _ _), run_bind_ok (run_storeValue _ hstore), run_pure]
    exact ⟨rfl, context_put .., hasStored_put _ dst (denotes_slice ..) ⟨rfl, rfl, rfl⟩⟩

theorem stepRight_matchString (hvalid : Valid bin r) (hbin : bin.WellFormed) {bits : Nat}
    {literal : MatchLiteral} (hguard : Guard debug r (.matchString bits literal)) :
    StepRight debug r.proc (.matchString bits literal) := by
  have hremaining := hvalid.run_getBitsRemaining hbin debug
  obtain ⟨⟨n, rfl⟩, b, rfl, hb, hlength⟩ := hguard
  have hcontext : run getContext r.proc = (.ok r.proc.context, r.proc) := rfl
  rw [StepRight, perform, bsMatchString, effect, run_bind_ok hremaining, literalBits]
  have hbytes : 8 * n / 8 = n := by omega
  by_cases hle : 8 * n ≤ (rest r.proc).length
  · have hin : r.proc.context.readPosition + 8 * n ≤ bin.bitSize := by
      have hinBounds := hvalid.inBounds
      rw [hvalid.length_rest hbin, hvalid.stopAt] at hle
      omega
    have hother : 0 + 8 * n ≤ b.bitSize := by omega
    have hreads := TBinary.read_eq_iff hbin hb hin hother
    rw [List.drop_zero, ← hvalid.orig] at hreads
    rw [if_neg (show ¬ (rest r.proc).length < 8 * n by omega)]
    simp only
    rw [run_bind_ok hcontext, hbytes]
    by_cases hsame : (rest r.proc).take (8 * n) = b.bits.take (8 * n)
    · have hany : ¬ ((List.range n).any fun i =>
          r.proc.context.reader.read i ≠ b.bitReader.read i) = true := by
        simp only [List.any_eq_true, List.mem_range, decide_eq_true_eq]
        rintro ⟨i, hi, hne⟩
        exact hne (hreads.mpr hsame i hi)
      rw [if_pos ⟨hle, hsame⟩, if_neg hany, run_bind_ok (run_increaseOffset _ _), run_pure]
      exact ⟨rfl, rfl, rfl, rfl, rfl⟩
    · have hany : ((List.range n).any fun i =>
          r.proc.context.reader.read i ≠ b.bitReader.read i) = true := by
        by_contra hnone
        simp only [List.any_eq_true, List.mem_range, decide_eq_true_eq, not_exists, not_and,
          not_not] at hnone
        exact hsame (hreads.mp hnone)
      rw [if_neg (fun h => hsame h.2), if_pos hany, run_pure]
      exact performs_failed r.proc
  · rw [if_neg (fun h => hle h.1), if_pos (by omega), run_pure]
    exact performs_failed r.proc

theorem stepRight_testTail2 (hvalid : Valid bin r) (hbin : bin.WellFormed) (bits : Nat) :
    StepRight debug r.proc (.testTail2 bits) := by
  have hremaining := hvalid.run_getBitsRemaining hbin debug
  rw [StepRight, perform, bsTestTail2, effect, run_bind_ok hremaining]
  by_cases hbits : (rest r.proc).length = bits
  · rw [if_pos hbits, if_neg (not_not.mpr hbits), run_pure]
    exact ⟨rfl, rfl, rfl, rfl, rfl⟩
  · rw [if_neg hbits, if_pos hbits, run_pure]
    exact performs_failed r.proc

theorem stepRight_getTail (hvalid : Valid bin r) (hbin : bin.WellFormed) {dst : Reg}
    {live : Nat} (hguard : Guard debug r (.getTail dst live)) :
    StepRight debug r.proc (.getTail dst live) := by
  have hremaining := hvalid.run_getBitsRemaining hbin debug
  obtain ⟨hdst, hroom⟩ := hguard
  rw [StepRight, perform, bsGetTail, effect, run_bind_ok hremaining]
  by_cases hempty : (rest r.proc).length = 0
  · rw [if_pos hempty, run_bind_ok (run_storeValue .emptyBinary hdst), run_pure]
    refine ⟨rfl, context_put .., hasStored_put _ dst ?_ ⟨rfl, rfl, rfl⟩⟩
    exact List.eq_nil_of_length_eq_zero hempty
  · have hne : rest r.proc ≠ [] := fun h => hempty (congrArg List.length h)
    have hstore : Takes { r.proc with
        live, heapTop := r.proc.heapTop + sliceWords debug } dst := hdst
    rw [if_neg hempty, run_bind_ok (run_makeSlice live hempty (hroom hne)),
      run_bind_ok (run_storeValue _ hstore), run_pure]
    refine ⟨rfl, context_put .., hasStored_put _ dst ?_ ⟨rfl, rfl, rfl⟩⟩
    have hall := denotes_slice r.proc.heapTop (rest r.proc).length r.proc
    rwa [List.take_length] at hall

theorem stepRight_getPosition {dst : Reg} (hguard : Guard debug r (.getPosition dst)) :
    StepRight debug r.proc (.getPosition dst) := by
  obtain ⟨hdst, hsmall⟩ := hguard
  have hcontext : run getContext r.proc = (.ok r.proc.context, r.proc) := rfl
  have hfits : smallFits (r.proc.context.readPosition : Int) := by
    unfold smallFits
    omega
  rw [StepRight, perform, bsGetPosition, effect, run_bind_ok hcontext,
    smallBits_of_fits hfits, run_bind_ok (run_storeValue _ hdst), run_pure]
  exact ⟨rfl, context_put .., hasStored_put _ dst rfl ⟨rfl, rfl, rfl⟩⟩

theorem run_load {pos : Operand} {v : RegValue} (h : operandValue s pos = some v) :
    run (load pos) s = (.ok v, s) := by
  rw [load, run_bind_ok (run_get s)]
  cases pos with
  | value other =>
      obtain rfl : other = v := Option.some.inj h
      rfl
  | reg src =>
      cases src with
      | x n =>
          have hv : s.x[n]? = some v := h
          simp only [hv, Option.elim_some, run_pure]
      | y n =>
          have hv : s.stack[n + 1]? = some v := h
          have hlt := (List.getElem?_eq_some_iff.mp hv).1
          have hnot : ¬ s.stack.length < n + 1 := by omega
          simp only [hv, if_neg hnot, Option.elim_some, run_pure]
      | float n => cases h

theorem stepRight_setPosition (hvalid : Valid bin r) {pos : Operand}
    (hguard : Guard debug r (.setPosition pos)) :
    StepRight debug r.proc (.setPosition pos) := by
  obtain ⟨p, hsaved, hvalue⟩ := hguard
  have hsmall := (hvalid.saved p hsaved).2
  have hload : run (load pos) r.proc = (.ok (.small p), r.proc) := run_load hvalue
  have hget : getSmallUnsigned debug p = .ok p := by
    rw [getSmallUnsigned, if_neg (by omega), Int.emod_eq_of_lt (by omega) (by omega),
      Int.toNat_natCast]
  rw [StepRight, perform, bsSetPosition, effect, givenPosition, hvalue, run_bind_ok hload]
  simp only
  rw [run_bind_ok (run_lift_ok hget _)]
  exact ⟨rfl, rfl, rfl, rfl, rfl⟩

theorem stepRight_of_guard (hvalid : Valid bin r) (hbin : bin.WellFormed) {op : MatchOp}
    (hguard : Guard debug r op) : StepRight debug r.proc op := by
  cases op with
  | skipBits2 size unit => exact stepRight_skipBits2 hvalid hbin hguard
  | getBinary2 live size unit dst => exact stepRight_getBinary2 hguard
  | matchString bits literal => exact stepRight_matchString hvalid hbin hguard
  | testTail2 bits => exact stepRight_testTail2 hvalid hbin bits
  | getTail dst live => exact stepRight_getTail hvalid hbin hguard
  | getPosition dst => exact stepRight_getPosition hguard
  | setPosition pos => exact stepRight_setPosition hvalid hguard

/-- An instruction that does what it should stays inside of the binary. -/
theorem position_effect_le (hvalid : Valid bin r) (hbin : bin.WellFormed) {op : MatchOp}
    (hguard : Guard debug r op) :
    (effect r.proc.context.readPosition (givenPosition r.proc op) (rest r.proc) op).position ≤
      bin.bitSize := by
  have hin := hvalid.inBounds
  have hlength := hvalid.length_rest hbin
  rw [hvalid.stopAt] at hlength
  cases op with
  | skipBits2 size unit | getBinary2 live size unit =>
      rw [effect]
      split
      next hle => exact (show _ + size * unit ≤ _ by omega)
      next => exact hin
  | matchString bits literal =>
      rw [effect]
      split
      next hle => exact (show _ + bits ≤ _ by omega)
      next => exact hin
  | testTail2 bits =>
      rw [effect]
      split <;> exact hin
  | getTail | getPosition => exact hin
  | setPosition pos =>
      obtain ⟨p, hsaved, hvalue⟩ := hguard
      rw [effect, givenPosition, hvalue]
      exact (hvalid.saved p hsaved).1

theorem Valid.step (hvalid : Valid bin r) (hbin : bin.WellFormed) {op : MatchOp}
    (hguard : Guard debug r op) : Valid bin (step debug r op) := by
  obtain ⟨_, hcontext, _⟩ := stepRight_of_guard hvalid hbin hguard
  have hcontext' : (MatchContexts.step debug r op).proc.context =
      r.proc.context.setOffset _ := hcontext
  refine ⟨?_, ?_, ?_, ?_⟩
  · rw [hcontext']
    exact hvalid.orig
  · rw [hcontext']
    exact hvalid.stopAt
  · rw [hcontext']
    exact position_effect_le hvalid hbin hguard
  · cases op with
    | getPosition dst =>
        intro p hp
        rcases List.mem_cons.mp hp with rfl | hp
        · exact ⟨hvalid.inBounds, hguard.2⟩
        · exact hvalid.saved p hp
    | _ => exact hvalid.saved

/-- In a guarded run on a match context of a binary, every instruction does what it should,
and the position stays inside of the binary. -/
theorem guarded_run_right {debug : Bool} {bin : TBinary} (hbin : bin.WellFormed)
    {start : MatchRun} (hcontext : start.proc.context = .new bin) (hsaved : start.saved = [])
    {ops : List MatchOp}
    (hguarded : GuardedRun.Guarded (step debug) (Guard debug) start ops) :
    (∀ pre, pre <+: ops → Valid bin (pre.foldl (step debug) start)) ∧
      ∀ pre op, pre ++ [op] <+: ops → StepRight debug (pre.foldl (step debug) start).proc op := by
  have hstart : Valid bin start := by
    refine ⟨?_, ?_, ?_, ?_⟩
    · rw [hcontext, BinaryMatchState.new]
    · rw [hcontext, BinaryMatchState.new]
    · rw [hcontext]
      exact Nat.zero_le _
    · rw [hsaved]
      simp
  have hvalid : ∀ pre, pre <+: ops → Valid bin (pre.foldl (MatchContexts.step debug) start) :=
    fun pre hpre => (hguarded.shorten hpre).keeps hstart
      (fun _ _ hs hguard => Valid.step hs hbin hguard)
  refine ⟨hvalid, ?_⟩
  intro pre op hpre
  exact stepRight_of_guard (hvalid pre ((List.prefix_append pre [op]).trans hpre)) hbin
    (hguarded pre op hpre)

end Steps

/-- A match context at the start of a binary, in a process with one register. -/
def startOf (bin : TBinary) : MatchRun where
  proc := ⟨.new bin, [.emptyBinary], [], [], 0, 64, 0⟩
  saved := []

/-- A byte is got from a binary of two, and then there is one left. -/
theorem guarded_run_right_two_bytes :
    StepRight true (startOf (.processHeap 16 [1, 2])).proc (.getBinary2 0 1 8 (.x 0)) := by
  have hguarded : GuardedRun.Guarded (step true) (Guard true) (startOf (.processHeap 16 [1, 2]))
      [.getBinary2 0 1 8 (.x 0), .testTail2 8] := by
    refine .cons ⟨?_, ?_, ?_, fun _ => ?_⟩ (.cons trivial .nil)
    · exact (by decide : 8 ≠ 0 ∧ 1 < (2 ^ 64 - 1) / 8)
    · decide +kernel
    · exact Nat.zero_lt_one
    · exact (by decide : 0 + sliceWords true < 64)
  exact (guarded_run_right (by decide) rfl rfl hguarded).2 [] _ (by simp)

/-- Two bytes are got from a binary of one, and the position is behind its end. -/
theorem not_stepRight_getBinary2_long :
    let s := (startOf (.processHeap 8 [1])).proc
    ¬ StepRight true s (.getBinary2 0 2 8 (.x 0)) ∧
      (run (perform true (.getBinary2 0 2 8 (.x 0))) s).2.context.readPosition = 16 := by
  refine ⟨?_, rfl⟩
  intro hright
  exact absurd hright.1 (by decide +kernel)

end MatchContexts

end Zeptobeam
