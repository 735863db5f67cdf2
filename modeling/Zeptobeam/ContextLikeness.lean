/-
The instructions on a match context look at it through the reader of its binary, and not at
how the binary is made.  Run on two processes that differ in nothing else, they return the
same and leave such processes behind.
-/
import Zeptobeam.MatchStart

namespace Zeptobeam

open Matching MatchContexts TwoRuns

/-! ## RunsAlike binaries -/

/-- Binaries of one size that the same reader reads. -/
structure AlikeBinary (b b' : TBinary) : Prop where
  reader : b.bitReader = b'.bitReader
  size : b.bitSize = b'.bitSize
  bits : b.bits = b'.bits

namespace AlikeBinary

variable {b b' : TBinary}

theorem refl (b : TBinary) : AlikeBinary b b :=
  ⟨rfl, rfl, rfl⟩

theorem slice (h : AlikeBinary b b') (offset size : Nat) :
    AlikeBinary (.slice b offset size) (.slice b' offset size) where
  reader := by rw [TBinary.bitReader, TBinary.bitReader, h.reader]
  size := rfl
  bits := by rw [TBinary.bits, TBinary.bits, h.bits]

/-- A binary as a slice of itself. -/
theorem whole (hb : b.WellFormed) : AlikeBinary b (.slice b 0 b.bitSize) where
  reader := rfl
  size := rfl
  bits := by rw [TBinary.bits, List.drop_zero, ← TBinary.length_bits hb, List.take_length]

end AlikeBinary

/-- The values of a register that the two machines may differ in. -/
inductive AlikeValue : RegValue → RegValue → Prop where
  | same (v : RegValue) : AlikeValue v v
  | slice (addr : Nat) {b b' : TBinary} (h : AlikeBinary b b') :
      AlikeValue (.slice addr b) (.slice addr b')

structure AlikeContext (m m' : BinaryMatchState) : Prop where
  orig : AlikeBinary m.orig m'.orig
  position : m.readPosition = m'.readPosition
  stopAt : m.stopAt = m'.stopAt

structure AlikeProcess (s t : MatchProcess) : Prop where
  context : AlikeContext s.context t.context
  x : List.Forall₂ AlikeValue s.x t.x
  fp : s.fp = t.fp
  stack : List.Forall₂ AlikeValue s.stack t.stack
  heapTop : s.heapTop = t.heapTop
  stackTop : s.stackTop = t.stackTop
  live : s.live = t.live

namespace AlikeContext

variable {m m' : BinaryMatchState}

theorem refl (m : BinaryMatchState) : AlikeContext m m :=
  ⟨.refl _, rfl, rfl⟩

theorem reader (h : AlikeContext m m') : m.reader = m'.reader := by
  rw [BinaryMatchState.reader, BinaryMatchState.reader, h.orig.reader, h.position]

theorem setOffset (h : AlikeContext m m') (offs : Nat) :
    AlikeContext (m.setOffset offs) (m'.setOffset offs) :=
  ⟨h.orig, rfl, h.stopAt⟩

theorem increaseOffset (h : AlikeContext m m') (offs : Nat) :
    AlikeContext (m.increaseOffset offs) (m'.increaseOffset offs) :=
  ⟨h.orig, congrArg (· + offs) h.position, h.stopAt⟩

theorem reset (h : AlikeContext m m') : AlikeContext m.reset m'.reset :=
  ⟨h.orig, rfl, h.stopAt⟩

theorem new {b b' : TBinary} (h : AlikeBinary b b') :
    AlikeContext (.new b) (.new b') :=
  ⟨h, rfl, h.size⟩

theorem getBitsRemaining (h : AlikeContext m m') (debug : Bool) :
    m.getBitsRemaining debug = m'.getBitsRemaining debug := by
  rw [BinaryMatchState.getBitsRemaining, BinaryMatchState.getBitsRemaining, h.position,
    h.stopAt]

end AlikeContext

/-! ## Alike processes -/

namespace AlikeProcess

variable {s t : MatchProcess}

theorem withContext (h : AlikeProcess s t) {m m' : BinaryMatchState} (hm : AlikeContext m m') :
    AlikeProcess { s with context := m } { t with context := m' } :=
  { h with context := hm }

theorem withX (h : AlikeProcess s t) {v v' : RegValue} (hv : AlikeValue v v') (n : Nat) :
    AlikeProcess { s with x := s.x.set n v } { t with x := t.x.set n v' } :=
  { h with x := forall₂_set h.x hv n }

theorem withStack (h : AlikeProcess s t) {v v' : RegValue} (hv : AlikeValue v v') (n : Nat) :
    AlikeProcess { s with stack := s.stack.set n v } { t with stack := t.stack.set n v' } :=
  { h with stack := forall₂_set h.stack hv n }

theorem withFp (h : AlikeProcess s t) (fp : List Float) :
    AlikeProcess { s with fp } { t with fp } :=
  { h with fp := rfl }

theorem withLive (h : AlikeProcess s t) (live : Nat) :
    AlikeProcess { s with live } { t with live } :=
  { h with live := rfl }

end AlikeProcess

namespace ContextReuse

/-- The computations return the same and keep the processes alike. -/
abbrev Respects {α : Type} (x : Matching α) : Prop :=
  RunsAlike AlikeProcess Eq x x

abbrev RespectsValue (x : Matching RegValue) : Prop :=
  RunsAlike AlikeProcess AlikeValue x x

variable {debug : Bool} {α : Type} {v v' : RegValue}

/-! ## Parts of the instructions -/

theorem respects_panic (p : Panic) : Respects (panic p : Matching α) :=
  .throw _

theorem alike_lift {V : α → α → Prop} {result result' : Except Panic α}
    (h : SameEnd V result result') : RunsAlike AlikeProcess V (lift result) (lift result') := by
  cases result with
  | error p =>
      cases result' with
      | error p' =>
          obtain rfl : p = p' := h
          exact .throw _
      | ok b => exact h.elim
  | ok a =>
      cases result' with
      | error p' => exact h.elim
      | ok b => exact .pure h

theorem respects_lift (result : Except Panic α) : Respects (lift result) := by
  apply alike_lift
  cases result with
  | error p => rfl
  | ok a => rfl

theorem alike_getContext : RunsAlike AlikeProcess AlikeContext getContext getContext :=
  RunsAlike.get.bind fun _ _ h => .pure h.context

theorem alike_setContext {m m' : BinaryMatchState} (h : AlikeContext m m') :
    RunsAlike AlikeProcess Eq (setContext m) (setContext m') :=
  .update fun _ _ hst => hst.withContext h

theorem respects_getBitsRemaining (debug : Bool) : Respects (getBitsRemaining debug) := by
  refine alike_getContext.bind fun m m' h => ?_
  rw [h.getBitsRemaining debug]
  exact respects_lift _

theorem respects_setOffset (offs : Nat) : Respects (setOffset offs) :=
  alike_getContext.bind fun _ _ h => alike_setContext (h.setOffset offs)

theorem respects_increaseOffset (offs : Nat) : Respects (increaseOffset offs) :=
  alike_getContext.bind fun _ _ h => alike_setContext (h.increaseOffset offs)

/-- A small value is one on both sides. -/
theorem alike_storeValue (hv : AlikeValue v v') (dst : Reg) :
    RunsAlike AlikeProcess Eq (storeValue v dst) (storeValue v' dst) := by
  refine RunsAlike.get.bind fun s t h => ?_
  cases dst with
  | x n =>
      dsimp only
      rw [h.x.length_eq]
      exact .ite (.set (h.withX hv n)) (respects_panic _)
  | y n =>
      dsimp only
      rw [h.stack.length_eq]
      exact .ite (.throw _) (.ite (.set (h.withStack hv (n + 1))) (respects_panic _))
  | float n =>
      cases hv with
      | slice addr h => exact respects_panic _
      | same v =>
          cases v with
          | small value =>
              dsimp only
              rw [h.fp]
              exact .ite (.set (h.withFp _)) (respects_panic _)
          | _ => exact respects_panic _

theorem respects_ensureHeap (need : Nat) : Respects (ensureHeap need) := by
  refine RunsAlike.get.bind fun s t h => ?_
  rw [h.heapTop, h.stackTop]
  exact .ite (.pure rfl) (respects_panic _)

theorem alike_createSlice {b b' : TBinary} (hb : AlikeBinary b b') (offset size : Nat) :
    RunsAlike AlikeProcess AlikeValue (createSlice debug b offset size)
      (createSlice debug b' offset size) := by
  refine .ite (.throw _) (RunsAlike.get.bind fun s t h => ?_)
  rw [h.heapTop, h.stackTop]
  refine .ite (respects_panic _) ((RunsAlike.set ?_).bind fun _ _ _ => .pure ?_)
  · exact { h with heapTop := rfl, stackTop := rfl }
  · exact .slice t.heapTop (hb.slice offset size)

theorem respects_setLive (live : Nat) : Respects (modify fun s => { s with live }) :=
  .update fun _ _ h => h.withLive live

theorem respects_makeSlice (live size : Nat) : RespectsValue (makeSlice debug live size) := by
  refine (respects_setLive live).bind_eq fun _ => (respects_ensureHeap _).bind_eq fun _ => ?_
  refine alike_getContext.bind fun m m' h => ?_
  rw [h.position]
  exact alike_createSlice h.orig _ size

theorem alike_elim {o o' : Option RegValue} (h : Option.Rel AlikeValue o o') (p : Panic) :
    RunsAlike AlikeProcess AlikeValue (o.elim (panic p) pure : Matching RegValue)
      (o'.elim (panic p) pure : Matching RegValue) := by
  cases h with
  | none => exact .throw _
  | some hv => exact .pure hv

theorem respects_load (src : Operand) : RespectsValue (load src) := by
  refine RunsAlike.get.bind fun s t h => ?_
  cases src with
  | value v => exact .pure (.same v)
  | reg r =>
      cases r with
      | x n =>
          exact alike_elim (forall₂_getElem? h.x n) _
      | y n =>
          dsimp only
          rw [h.stack.length_eq]
          exact .ite (.throw _) (alike_elim (forall₂_getElem? h.stack (n + 1)) _)
      | float n => exact .throw _

/-- An `Err` is unwrapped on both sides. -/
theorem alike_unwrap {x y : Matching α} (h : RunsAlike AlikeProcess Eq x y) :
    RunsAlike AlikeProcess Eq (unwrap x) (unwrap y) := by
  intro s t hst
  obtain ⟨hend, hafter⟩ := h s t hst
  cases hx : ExceptState.run x s with
  | mk result s' =>
      cases hy : ExceptState.run y t with
      | mk result' t' =>
          rw [hx, hy] at hend hafter
          obtain rfl := sameEnd_eq hend
          unfold ExceptState.run at hx hy ⊢
          rw [unwrap, ExceptT.run_mk, StateT.run_bind, hx, unwrap, ExceptT.run_mk,
            StateT.run_bind, hy]
          cases result with
          | ok a => exact ⟨rfl, hafter⟩
          | error stop => cases stop <;> exact ⟨rfl, hafter⟩

/-! ## The instructions on one context -/

theorem respects_skipBits2 (size unit : Nat) : Respects (bsSkipBits2 debug size unit) := by
  refine (respects_lift _).bind_eq fun skip => ?_
  refine (respects_getBitsRemaining debug).bind_eq fun remaining => .ite (.pure rfl) ?_
  exact (respects_increaseOffset skip).bind_eq fun _ => .pure rfl

theorem respects_getBinary2 (live size unit : Nat) (dst : Reg) :
    Respects (bsGetBinary2 debug live size unit dst) := by
  refine (respects_lift _).bind_eq fun bitSize => ?_
  dsimp only
  refine .ite ?_ ?_
  · refine (respects_makeSlice live bitSize).bind fun v v' hv => ?_
    refine (respects_increaseOffset bitSize).bind_eq fun _ => ?_
    exact (alike_storeValue hv dst).bind_eq fun _ => .pure rfl
  · exact (alike_unwrap (alike_storeValue (.same _) dst)).bind_eq fun _ => .pure rfl

theorem respects_matchString (bits : Nat) (literal : MatchLiteral) :
    Respects (bsMatchString debug bits literal) := by
  refine (respects_getBitsRemaining debug).bind_eq fun remaining => .ite (.pure rfl) ?_
  cases literal with
  | emptyBinary => exact .throw _
  | other => exact .pure rfl
  | binary b =>
      refine alike_getContext.bind fun m m' h => ?_
      rw [h.reader]
      refine .ite (.pure rfl) ?_
      exact (respects_increaseOffset bits).bind_eq fun _ => .pure rfl

theorem respects_testTail2 (bits : Nat) : Respects (bsTestTail2 debug bits) :=
  (respects_getBitsRemaining debug).bind_eq fun _ => .ite (.pure rfl) (.pure rfl)

theorem respects_getTail (dst : Reg) (live : Nat) : Respects (bsGetTail debug dst live) := by
  refine (respects_getBitsRemaining debug).bind_eq fun remaining => .ite ?_ ?_
  · exact (alike_storeValue (.same _) dst).bind_eq fun _ => .pure rfl
  · refine (respects_makeSlice live remaining).bind fun v v' hv => ?_
    exact (alike_storeValue hv dst).bind_eq fun _ => .pure rfl

theorem respects_getPosition (dst : Reg) : Respects (bsGetPosition dst) := by
  refine alike_getContext.bind fun m m' h => ?_
  rw [h.position]
  exact (alike_storeValue (.same _) dst).bind_eq fun _ => .pure rfl

theorem respects_setPosition (pos : Operand) : Respects (bsSetPosition debug pos) := by
  refine (respects_load pos).bind fun v v' hv => ?_
  cases hv with
  | slice addr h => exact (respects_setOffset 0).bind_eq fun _ => .pure rfl
  | same v =>
      cases v with
      | small value =>
          refine (respects_lift _).bind_eq fun offs => ?_
          exact (respects_setOffset offs).bind_eq fun _ => .pure rfl
      | _ => exact (respects_setOffset 0).bind_eq fun _ => .pure rfl

theorem respects_perform (op : MatchOp) : Respects (MatchContexts.perform debug op) := by
  cases op with
  | skipBits2 size unit => exact respects_skipBits2 size unit
  | getBinary2 live size unit dst => exact respects_getBinary2 live size unit dst
  | matchString bits literal => exact respects_matchString bits literal
  | testTail2 bits => exact respects_testTail2 bits
  | getTail dst live => exact respects_getTail dst live
  | getPosition dst => exact respects_getPosition dst
  | setPosition pos => exact respects_setPosition pos

/-! ## The commands of `bs_match` -/

section Commands

open BsMatch

theorem respects_toUsize (term : CommandTerm) : Respects (toUsize debug term) := by
  cases term with
  | small value => exact (respects_lift _).bind_eq fun _ => .pure rfl
  | _ => exact .pure rfl

theorem respects_ensureRemaining (needed : Nat) : Respects (ensureRemaining debug needed) :=
  (respects_getBitsRemaining debug).bind_eq fun _ => .pure rfl

theorem alike_storeTerm (hv : AlikeValue v v') (dst : CommandTerm) :
    RunsAlike AlikeProcess Eq (storeTerm debug v dst) (storeTerm debug v' dst) := by
  cases dst with
  | reg r => exact alike_storeValue hv r
  | _ => exact .ite (respects_panic _) (respects_panic _)

theorem respects_extractInteger (bits unit : Nat) (dst : CommandTerm) :
    Respects (extractInteger debug bits unit dst) := by
  refine (respects_lift _).bind_eq fun totalBits => ?_
  refine (respects_ensureRemaining totalBits).bind_eq fun enough => .ite (.pure rfl) ?_
  refine alike_getContext.bind fun m m' h => ?_
  rw [h.reader]
  refine (respects_increaseOffset totalBits).bind_eq fun _ => ?_
  exact (alike_storeTerm (.same _) dst).bind_eq fun _ => .pure rfl

theorem respects_matchBitsEq (bits : Nat) (value : CommandTerm) :
    Respects (matchBitsEq bits value) := by
  rw [matchBitsEq]
  cases expectedU64 value bits with
  | none => exact .pure rfl
  | some expected =>
      refine alike_getContext.bind fun m m' h => ?_
      rw [h.reader]
      exact .pure rfl

theorem respects_extractTail (live : Nat) (dst : CommandTerm) :
    Respects (extractTail debug live dst) := by
  refine (respects_getBitsRemaining debug).bind_eq fun remaining => .ite ?_ ?_
  · exact (alike_storeTerm (.same _) dst).bind_eq fun _ => .pure rfl
  · refine (respects_makeSlice live remaining).bind fun v v' hv => ?_
    exact (alike_storeTerm hv dst).bind_eq fun _ => .pure rfl

/-- An operand of a command, and the rest of it when the operand is a size. -/
theorem respects_operand {term : CommandTerm} {f : Nat → Matching Bool}
    (hf : ∀ n, Respects (f n)) :
    Respects (do
      let some n ← toUsize debug term | return false
      f n) := by
  refine (respects_toUsize term).bind_eq fun size => ?_
  cases size with
  | none => exact .pure rfl
  | some n => exact hf n

theorem respects_runOne (command : CommandTerm) : Respects (runOne debug command) := by
  unfold runOne
  split
  next op rest =>
    split
    next size unit =>
      refine respects_operand fun size => respects_operand fun unit => ?_
      exact (respects_lift _).bind_eq fun needed => respects_ensureRemaining needed
    next size =>
      refine respects_operand fun size => ?_
      exact (respects_getBitsRemaining debug).bind_eq fun _ => .pure rfl
    next live bits value =>
      refine .ite (.pure rfl) (respects_operand fun bits => ?_)
      refine (respects_ensureRemaining bits).bind_eq fun _ => .ite (.pure rfl) ?_
      refine (respects_matchBitsEq bits value).bind_eq fun _ => .ite (.pure rfl) ?_
      exact (respects_increaseOffset bits).bind_eq fun _ => .pure rfl
    next bits =>
      refine respects_operand fun bits => ?_
      refine (respects_ensureRemaining bits).bind_eq fun _ => .ite (.pure rfl) ?_
      exact (respects_increaseOffset bits).bind_eq fun _ => .pure rfl
    next live flags bits unit dst =>
      refine respects_operand fun live => respects_operand fun bits => ?_
      exact respects_operand fun unit => respects_extractInteger bits unit dst
    next live unit dst => exact respects_operand fun live => respects_extractTail live dst
    next => exact .pure rfl
  next => exact .throw _

theorem respects_runFlatTerms_append (command : Command) {terms : List CommandTerm}
    (h : Respects (runFlatTerms debug terms)) :
    Respects (runFlatTerms debug (command.terms ++ terms)) := by
  rw [runFlatTerms_append]
  exact (respects_runOne command.toTuple).bind_eq fun _ => .ite (.pure rfl) h

theorem respects_runFlatTerms (terms : List CommandTerm) :
    Respects (runFlatTerms debug terms) := by
  induction terms using runFlatTerms.induct with
  | case1 => exact .pure rfl
  | case2 size unit terms ih => exact respects_runFlatTerms_append (.ensureAtLeast size unit) ih
  | case3 size terms ih => exact respects_runFlatTerms_append (.ensureExactly size) ih
  | case4 live bits value terms hlive =>
      rw [runFlatTerms, if_pos hlive]
      exact .pure rfl
  | case5 live bits value terms _ ih =>
      exact respects_runFlatTerms_append (.equal live bits value) ih
  | case6 bits terms ih => exact respects_runFlatTerms_append (.skip bits) ih
  | case7 live flags bits unit dst terms ih =>
      exact respects_runFlatTerms_append (.integer live flags bits unit dst) ih
  | case8 live unit dst terms ih =>
      exact respects_runFlatTerms_append (.getTail live unit dst) ih
  | case9 terms hnil hleast hexactly hequal hskip hinteger htail =>
      rw [runFlatTerms.eq_8 debug terms hnil hleast hexactly hequal hskip hinteger htail]
      exact .pure rfl

theorem respects_runList (commands : CommandTerm) : Respects (runList debug commands) := by
  induction commands using runList.induct with
  | case1 hd tl ih =>
      refine (respects_runOne hd).bind_eq fun _ => .ite (.pure rfl) ?_
      cases tl with
      | cons hd' tl' => exact ih
      | _ => exact .pure rfl
  | case2 term hcons =>
      cases term with
      | cons hd tl => exact (hcons hd tl rfl).elim
      | _ => exact .pure rfl

theorem respects_runTuples (commands : List CommandTerm) :
    Respects (runTuples debug commands) := by
  induction commands with
  | nil => exact .pure rfl
  | cons command commands ih =>
      exact (respects_runOne command).bind_eq fun _ => .ite (.pure rfl) ih

theorem respects_runCommands (commands : CommandTerm) :
    Respects (runCommands debug commands) := by
  cases commands with
  | tuple first rest =>
      exact .ite (respects_runFlatTerms _) (respects_runTuples _)
  | cons hd tl => exact respects_runList _
  | nil => exact .pure rfl
  | emptyTuple => exact .pure rfl
  | _ => exact .throw _

end Commands

theorem respects_performMatch (hasFail : Bool) (commands : CommandTerm) :
    Respects (MatchStart.performMatch debug hasFail commands) := by
  refine RunsAlike.bind_eq ?_ fun _ => .ite (.pure rfl) (.pure rfl)
  refine alike_getContext.bind fun m m' h => ?_
  rw [h.position]
  refine (respects_runCommands commands).bind_eq fun _ => .ite (.pure rfl) ?_
  exact (respects_setOffset _).bind_eq fun _ => .pure rfl

open MatchStart OnMachine

section Utf8

variable {m m' : BinaryMatchState}

theorem sameEnd_getUtf8 (h : AlikeContext m m') :
    SameEnd (Option.Rel fun p p' => p.1 = p'.1 ∧ AlikeContext p.2 p'.2)
      (bsGetUtf8 debug m) (bsGetUtf8 debug m') := by
  unfold bsGetUtf8
  rw [h.getBitsRemaining debug, h.reader]
  cases m'.getBitsRemaining debug with
  | error p => rfl
  | ok remaining =>
      simp only [bind, Except.bind]
      by_cases hfew : remaining < 8
      · rw [if_pos hfew, if_pos hfew]
        exact .none
      · rw [if_neg hfew, if_neg hfew]
        cases utf8Decode m'.reader remaining with
        | none => exact .none
        | some p =>
            by_cases hchar : p.2.isValidChar
            · simp only [hchar, not_true, if_false]
              exact .some ⟨rfl, h.increaseOffset (p.1 * 8)⟩
            · simp only [hchar]
              exact .none

theorem sameEnd_skipUtf8 (h : AlikeContext m m') :
    SameEnd (Option.Rel AlikeContext) (bsSkipUtf8 debug m) (bsSkipUtf8 debug m') := by
  unfold bsSkipUtf8
  rw [h.getBitsRemaining debug, h.reader]
  cases m'.getBitsRemaining debug with
  | error p => rfl
  | ok remaining =>
      simp only [bind, Except.bind]
      by_cases hfew : remaining < 8
      · rw [if_pos hfew, if_pos hfew]
        exact .none
      · rw [if_neg hfew, if_neg hfew]
        cases utf8Decode m'.reader remaining with
        | none => exact .none
        | some p => exact .some (h.increaseOffset (p.1 * 8))

end Utf8

theorem respects_performGetUtf8 (dst : Reg) : Respects (performGetUtf8 debug dst) := by
  refine alike_getContext.bind fun m m' h => ?_
  refine (alike_lift (sameEnd_getUtf8 h)).bind fun got got' hgot => ?_
  cases hgot with
  | none => exact .pure rfl
  | some hp =>
      refine (alike_setContext hp.2).bind_eq fun _ => ?_
      rw [hp.1]
      exact (alike_storeValue (.same _) dst).bind_eq fun _ => .pure rfl

theorem respects_performSkipUtf8 : Respects (performSkipUtf8 debug) := by
  refine alike_getContext.bind fun m m' h => ?_
  refine (alike_lift (sameEnd_skipUtf8 h)).bind fun got got' hgot => ?_
  cases hgot with
  | none => exact .pure rfl
  | some hm => exact (alike_setContext hm).bind_eq fun _ => .pure rfl

theorem respects_testUnit (unit : Nat) : Respects (bsTestUnit debug unit) :=
  (respects_getBitsRemaining debug).bind_eq fun _ => .ite (.pure rfl) (.pure rfl)

theorem respects_remainingToBinary (reg : Reg) : Respects (remainingToBinary debug reg) := by
  refine (respects_getBitsRemaining debug).bind_eq fun remaining => .ite ?_ ?_
  · exact (alike_storeValue (.same _) reg).bind_eq fun _ => .pure rfl
  · refine (respects_ensureHeap _).bind_eq fun _ => alike_getContext.bind fun m m' h => ?_
    rw [h.position]
    refine (alike_createSlice h.orig _ remaining).bind fun v v' hv => ?_
    exact (alike_storeValue hv reg).bind_eq fun _ => .pure rfl

theorem respects_contextOp (op : ContextOp) : Respects (op.perform debug) := by
  cases op with
  | basic op => exact respects_perform op
  | bsMatch hasFail commands => exact respects_performMatch hasFail commands
  | getUtf8 dst => exact respects_performGetUtf8 dst
  | skipUtf8 => exact respects_performSkipUtf8
  | testUnit unit => exact respects_testUnit unit

end ContextReuse

end Zeptobeam
