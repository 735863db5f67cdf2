/-
Starting a match on a match context against starting it on the sub-binary of the bits that
the context has left.  The context goes back to the beginning of its binary, so the two are
told apart unless it was there; and on the empty binary no match is started.  The heap that a
start takes for its match state is left aside.
-/
import Zeptobeam.ContextLikeness

namespace Zeptobeam

open Matching MatchContexts TwoRuns

structure AlikeMachine (s t : MatchMachine) : Prop where
  proc : AlikeProcess s.proc t.proc
  contexts : ∀ word, Option.Rel AlikeContext (s.contexts word) (t.contexts word)

namespace ContextReuse

open MatchStart OnMachine

variable {debug : Bool} {α : Type} {v v' : RegValue}

/-! ## The instructions on machines -/

theorem alike_ofExcept {V : α → α → Prop} {a b : Except MatchStop α} (h : SameEnd V a b) :
    RunsAlike AlikeMachine V (MonadExcept.ofExcept a : OnMachine α)
      (MonadExcept.ofExcept b : OnMachine α) := by
  cases a with
  | error stop =>
      cases b with
      | error stop' =>
          obtain rfl : stop = stop' := h
          exact .throw _
      | ok b => exact h.elim
  | ok a =>
      cases b with
      | error stop' => exact h.elim
      | ok b => exact .pure h

theorem alike_onProcess {V : α → α → Prop} {x y : Matching α}
    (h : RunsAlike AlikeProcess V x y) : RunsAlike AlikeMachine V (onProcess x) (onProcess y) := by
  refine RunsAlike.get.bind fun s t hst => ?_
  obtain ⟨hend, hafter⟩ := h s.proc t.proc hst.proc
  exact (RunsAlike.set ⟨hafter, hst.contexts⟩).bind_eq fun _ => alike_ofExcept hend

theorem alike_update {s t : MatchMachine} (h : ∀ word, Option.Rel AlikeContext
    (s.contexts word) (t.contexts word)) (word : Nat) {m m' : BinaryMatchState}
    (hm : AlikeContext m m') (other : Nat) :
    Option.Rel AlikeContext (Function.update s.contexts word (some m) other)
      (Function.update t.contexts word (some m') other) := by
  by_cases hword : other = word
  · rw [hword, Function.update_self, Function.update_self]
    exact .some hm
  · rw [Function.update_of_ne hword, Function.update_of_ne hword]
    exact h other

/-- RunsAlike machines have match states at the same words. -/
theorem AlikeMachine.at_word {s t : MatchMachine} (h : AlikeMachine s t) (word : Nat) :
    s.contexts word = none ∧ t.contexts word = none ∨
      ∃ m m', AlikeContext m m' ∧ s.contexts word = some m ∧ t.contexts word = some m' := by
  have hrel := h.contexts word
  cases hs : s.contexts word with
  | none =>
      cases ht : t.contexts word with
      | none => exact .inl ⟨rfl, rfl⟩
      | some m' =>
          rw [hs, ht] at hrel
          cases hrel
  | some m =>
      cases ht : t.contexts word with
      | none =>
          rw [hs, ht] at hrel
          cases hrel
      | some m' =>
          rw [hs, ht] at hrel
          cases hrel with
          | some hm => exact .inr ⟨m, m', hm, rfl, rfl⟩

/-- The computations on machines return the same and keep the machines alike. -/
abbrev RespectsMachine {α : Type} (x : OnMachine α) : Prop :=
  RunsAlike AlikeMachine Eq x x

theorem respects_onContext (word : Nat) {x : Matching α} (h : Respects x) :
    RespectsMachine (onContext debug word x) := by
  refine RunsAlike.get.bind fun s t hst => ?_
  rcases AlikeMachine.at_word hst word with ⟨hs, ht⟩ | ⟨m, m', hm, hs, ht⟩
  · simp only [hs, ht]
    exact .throw _
  · simp only [hs, ht]
    obtain ⟨hend, hafter⟩ := h _ _ (hst.proc.withContext hm)
    refine (RunsAlike.set ⟨hafter, fun other => ?_⟩).bind_eq fun _ => alike_ofExcept hend
    exact alike_update hst.contexts word hafter.context other

theorem alike_setMatchState (word : Nat) {m m' : BinaryMatchState} (hm : AlikeContext m m') :
    RunsAlike AlikeMachine Eq (setMatchState word m) (setMatchState word m') :=
  .update fun _ _ hst => ⟨hst.proc, fun other => alike_update hst.contexts word hm other⟩

theorem respects_allocMatchState : Respects (allocMatchState debug) := by
  refine RunsAlike.get.bind fun s t h => ?_
  rw [h.heapTop, h.stackTop]
  refine .ite (respects_panic _) ((RunsAlike.set ?_).bind_eq fun _ => .pure rfl)
  exact { h with heapTop := rfl, stackTop := rfl }

theorem respects_storeNext (word : Nat) (dst : Reg) :
    RespectsMachine (do
      onProcess (storeValue (.other word) dst)
      return Dispatch.next) :=
  (alike_onProcess (alike_storeValue (.same _) dst)).bind_eq fun _ => .pure rfl

theorem alike_startWithNewBinary {b b' : TBinary} (hb : AlikeBinary b b') (dst : Reg) :
    RunsAlike AlikeMachine Eq (startWithNewBinary debug b dst)
      (startWithNewBinary debug b' dst) := by
  refine (alike_onProcess respects_allocMatchState).bind_eq fun word => ?_
  refine (alike_setMatchState word (.new hb)).bind_eq fun _ => ?_
  exact respects_storeNext word dst

/-- A start on a value that is a word is one on a match state of both machines, or of none. -/
theorem alike_bsStartMatch (hv : AlikeValue v v') (noMatch : Dispatch) (dst : Reg) :
    RunsAlike AlikeMachine Eq (bsStartMatch debug noMatch v dst)
      (bsStartMatch debug noMatch v' dst) := by
  cases hv with
  | slice addr h => exact alike_startWithNewBinary h dst
  | same v =>
      cases v with
      | small value => exact .pure rfl
      | emptyBinary => exact .pure rfl
      | slice addr b => exact alike_startWithNewBinary (.refl b) dst
      | other word =>
          refine RunsAlike.get.bind fun s t hst => ?_
          rcases AlikeMachine.at_word hst word with ⟨hs, ht⟩ | ⟨m, m', hm, hs, ht⟩
          · simp only [hs, ht]
            exact .pure rfl
          · simp only [hs, ht]
            refine (alike_setMatchState word hm.reset).bind_eq fun _ => ?_
            exact respects_storeNext word dst

theorem respects_contextWord (ctx : Operand) : RespectsMachine (contextWord debug ctx) := by
  refine (alike_onProcess (respects_load ctx)).bind fun v v' hv => ?_
  cases hv with
  | slice addr h => exact .throw _
  | same v =>
      cases v with
      | other word => exact .pure rfl
      | _ => exact .throw _

theorem respects_bsContextToBinary (reg : Reg) :
    RespectsMachine (bsContextToBinary debug reg) := by
  refine (alike_onProcess (respects_load (.reg reg))).bind fun v v' hv => ?_
  cases hv with
  | slice addr h => exact .pure rfl
  | same v =>
      cases v with
      | other word =>
          refine RunsAlike.get.bind fun s t hst => ?_
          rcases AlikeMachine.at_word hst word with ⟨hs, ht⟩ | ⟨m, m', hm, hs, ht⟩
          · simp only [hs, ht]
            exact .pure rfl
          · simp only [hs, ht]
            exact respects_onContext word (respects_remainingToBinary reg)
      | _ => exact .pure rfl

theorem respects_instr (instr : MatchInstr) : RespectsMachine (instr.perform debug) := by
  cases instr with
  | start op src dst =>
      obtain ⟨noMatch, hop⟩ := perform_eq debug op
      refine (alike_onProcess (respects_load src)).bind fun v v' hv => ?_
      rw [hop]
      exact alike_bsStartMatch hv noMatch dst
  | onContext ctx op =>
      refine (respects_contextWord ctx).bind_eq fun word => ?_
      exact respects_onContext word (respects_contextOp op)
  | contextToBinary reg => exact respects_bsContextToBinary reg

/-! ## Reuse -/

/-- The values are the same, or slices with the same bits. -/
def SameValue : RegValue → RegValue → Prop
  | .slice addr b, .slice addr' b' => addr = addr' ∧ b.bits = b'.bits
  | v, v' => v = v'

structure SameAnswer (a a' : MatchAnswer) : Prop where
  result : a.result = a'.result
  x : List.Forall₂ SameValue a.x a'.x
  fp : a.fp = a'.fp
  stack : List.Forall₂ SameValue a.stack a'.stack

/-- The machine with the match state at the word. -/
def place (machine : MatchMachine) (word : Nat) (m : BinaryMatchState) : MatchMachine :=
  { machine with contexts := Function.update machine.contexts word (some m) }

/-- Whatever instructions follow, on whatever machine, they end alike with the one match state
and with the other. -/
def Indistinguishable (debug : Bool) (m m' : BinaryMatchState) : Prop :=
  ∀ machine word instrs, List.Forall₂ SameAnswer
    (Lockstep.answers (MatchStart.step debug) (place machine word m) instrs)
    (Lockstep.answers (MatchStart.step debug) (place machine word m') instrs)

/-- The sub-binary of the bits from the position on. -/
def remainingBinary (addr : Nat) (bin : TBinary) (position : Nat) : RegValue :=
  if position = bin.bitSize then .emptyBinary
  else .slice addr (.slice bin position (bin.bitSize - position))

/-- A start on a match context of the binary and one on the sub-binary of what it has left
both give match states, which cannot be told apart. -/
def Unobservable (debug : Bool) (bin : TBinary) (position : Nat) : Prop :=
  ∀ op machine dst word addr, CanStart debug machine dst →
    machine.contexts word = some ⟨bin, position, bin.bitSize⟩ →
    ∃ m m', StartsWith debug machine op (.other word) dst m ∧
      StartsWith debug machine op (remainingBinary addr bin position) dst m' ∧
      Indistinguishable debug m m'

/-- Matching starts on the value, which is a binary, with all of its bits, and the reuse of a
match context of it cannot be observed. -/
structure StartRight (debug : Bool) (v : RegValue) (position : Nat) : Prop where
  succeeds : ∀ op machine dst l, Denotes v (.bits l) → CanStart debug machine dst →
    ∃ m, StartsWith debug machine op v dst m ∧ m.orig.bits.drop m.readPosition = l
  reuse : ∀ addr bin, v = .slice addr bin → Unobservable debug bin position

section Reuse

variable {bin : TBinary} {position : Nat}

theorem AlikeValue.sameValue (h : AlikeValue v v') : SameValue v v' := by
  cases h with
  | slice addr h => exact ⟨rfl, h.bits⟩
  | same v =>
      cases v with
      | slice addr b => exact ⟨rfl, rfl⟩
      | _ => exact rfl

theorem steps_alike : Lockstep.Steps (MatchStart.step debug) (MatchStart.step debug) SameAnswer
    AlikeMachine := by
  intro s t instr hst
  have hinstr : RespectsMachine (instr.perform debug) := respects_instr instr
  obtain ⟨hend, hafter⟩ := hinstr s t hst
  refine ⟨⟨sameEnd_eq hend, ?_, hafter.proc.fp, ?_⟩, hafter⟩
  · exact hafter.proc.x.imp fun _ _ h => AlikeValue.sameValue h
  · exact hafter.proc.stack.imp fun _ _ h => AlikeValue.sameValue h

theorem indistinguishable_of_alike {m m' : BinaryMatchState} (h : AlikeContext m m') :
    Indistinguishable debug m m' := by
  intro machine word instrs
  have hproc : AlikeProcess machine.proc machine.proc :=
    ⟨.refl _, List.forall₂_same.mpr fun v _ => .same v, rfl,
      List.forall₂_same.mpr fun v _ => .same v, rfl, rfl, rfl⟩
  have hcontexts : ∀ other, Option.Rel AlikeContext (machine.contexts other)
      (machine.contexts other) := by
    intro other
    cases machine.contexts other with
    | none => exact .none
    | some m => exact .some (.refl m)
  have hplace : AlikeMachine (place machine word m) (place machine word m') :=
    ⟨hproc, fun other => alike_update hcontexts word h other⟩
  exact steps_alike.answers hplace instrs

/-- The bits that a match state has left are looked at. -/
theorem result_testTail2 (machine : MatchMachine) (word bits : Nat) {m : BinaryMatchState}
    (hm : m.readPosition ≤ m.stopAt) :
    (MatchStart.step debug (place machine word m)
      (.onContext (.value (.other word)) (.basic (.testTail2 bits)))).1.result =
      .ok (if m.stopAt - m.readPosition ≠ bits then .jump else .next) := by
  let proc := { machine.proc with context := m }
  have hword : ExceptState.run (contextWord debug (.value (.other word))) (place machine word m) =
      (.ok word, place machine word m) := rfl
  have hremaining : Matching.run (getBitsRemaining debug) proc =
      (.ok (m.stopAt - m.readPosition), proc) := run_getBitsRemaining debug hm
  have htail : Matching.run (bsTestTail2 debug bits) proc =
      (.ok (if m.stopAt - m.readPosition ≠ bits then .jump else .next), proc) := by
    rw [bsTestTail2, Matching.run_bind_ok hremaining]
    by_cases hbits : m.stopAt - m.readPosition ≠ bits
    · rw [if_pos hbits, if_pos hbits, Matching.run_pure]
    · rw [if_neg hbits, if_neg hbits, Matching.run_pure]
  have hat : (place machine word m).contexts word = some m := Function.update_self ..
  rw [MatchStart.step, MatchInstr.perform, ExceptState.run_bind_ok hword, run_onContext hat]
  exact congrArg Prod.fst htail

/-- A process with one register, and with the context at all words. -/
def machineOf (m : BinaryMatchState) : MatchMachine where
  proc := ⟨m, [.emptyBinary], [], [], 0, 64, 0⟩
  contexts _ := some m

theorem canStart_machineOf (debug : Bool) (m : BinaryMatchState) :
    CanStart debug (machineOf m) (.x 0) := by
  refine ⟨Nat.zero_lt_one, ?_⟩
  cases debug with
  | false => exact (by decide : 0 + matchStateWords false < 64)
  | true => exact (by decide : 0 + matchStateWords true < 64)

/-- The reuse of a context cannot be observed exactly when it is at the beginning. -/
theorem unobservable_iff (hbin : bin.WellFormed) (hposition : position ≤ bin.bitSize) :
    Unobservable debug bin position ↔ position = 0 := by
  have hpos := TBinary.bitSize_pos hbin
  constructor
  · intro h
    obtain ⟨m, m', hm, hm', hsame⟩ := h .start3 (machineOf ⟨bin, position, bin.bitSize⟩) (.x 0)
      0 0 (canStart_machineOf ..) rfl
    by_cases hend : position = bin.bitSize
    · rw [remainingBinary, if_pos hend] at hm'
      exact absurd hm' not_startsWith_emptyBinary
    · rw [remainingBinary, if_neg hend] at hm'
      obtain rfl := hm.unique (startsWith_other (canStart_machineOf ..) .start3 rfl)
      obtain rfl := hm'.unique (startsWith_slice (canStart_machineOf ..) .start3 _ _)
      have hanswers := hsame (machineOf ⟨bin, position, bin.bitSize⟩) 0
        [.onContext (.value (.other 0)) (.basic (.testTail2 (bin.bitSize - position)))]
      obtain ⟨hanswer, -⟩ := List.forall₂_cons.mp hanswers
      have hresult := hanswer.result
      rw [result_testTail2 _ _ _ (Nat.zero_le _), result_testTail2 _ _ _ (Nat.zero_le _)]
        at hresult
      by_contra hne
      have hleft : bin.bitSize - 0 ≠ bin.bitSize - position := by omega
      have hright : ¬ bin.bitSize - position - 0 ≠ bin.bitSize - position := by omega
      change Except.ok (if bin.bitSize - 0 ≠ bin.bitSize - position then _ else _) =
        .ok (if bin.bitSize - position - 0 ≠ bin.bitSize - position then _ else _) at hresult
      rw [if_pos hleft, if_neg hright] at hresult
      cases hresult
  · rintro rfl op machine dst word addr hcan hword
    refine ⟨_, .new (.slice bin 0 bin.bitSize), startsWith_other hcan op hword, ?_, ?_⟩
    · rw [remainingBinary, if_neg (by omega)]
      exact startsWith_slice hcan op addr _
    · exact indistinguishable_of_alike (.new (.whole hbin))

theorem not_startRight_emptyBinary (debug : Bool) (position : Nat) :
    ¬ StartRight debug .emptyBinary position := by
  intro h
  obtain ⟨m, hm, -⟩ := h.succeeds .start3 (machineOf (.new (.processHeap 8 [0]))) (.x 0) [] rfl
    (canStart_machineOf ..)
  exact not_startsWith_emptyBinary hm

def IsBinary : RegValue → Prop
  | .emptyBinary => True
  | .slice _ b => b.WellFormed
  | _ => False

/-- Matching starts as it should exactly on a binary that is not the empty one, with a context
of it that is at the beginning. -/
theorem startRight_iff (hv : IsBinary v)
    (hposition : ∀ addr bin, v = .slice addr bin → position ≤ bin.bitSize) :
    StartRight debug v position ↔ v ≠ .emptyBinary ∧ position = 0 := by
  cases v with
  | small value => exact hv.elim
  | other word => exact hv.elim
  | emptyBinary =>
      exact iff_of_false (not_startRight_emptyBinary debug position) fun h => h.1 rfl
  | slice addr bin =>
      have hreuse : Unobservable debug bin position ↔ position = 0 :=
        unobservable_iff hv (hposition addr bin rfl)
      constructor
      · intro h
        exact ⟨by simp, hreuse.mp (h.reuse addr bin rfl)⟩
      · rintro ⟨-, hzero⟩
        refine ⟨?_, ?_⟩
        · rintro op machine dst l hl hcan
          refine ⟨.new bin, startsWith_slice hcan op addr bin, ?_⟩
          rw [BinaryMatchState.new, List.drop_zero]
          exact hl
        · rintro addr' bin' heq
          obtain ⟨rfl, rfl⟩ : addr = addr' ∧ bin = bin' := by
            injection heq with haddr hbin
            exact ⟨haddr, hbin⟩
          exact hreuse.mpr hzero

end Reuse

/-- A context of two bytes that nothing was read from yet. -/
theorem startRight_iff_beginning : StartRight true (.slice 0 (.processHeap 16 [1, 2])) 0 := by
  have hbin : IsBinary (.slice 0 (.processHeap 16 [1, 2])) :=
    (by decide : TBinary.WellFormed (.processHeap 16 [1, 2]))
  exact (startRight_iff hbin fun _ _ _ => Nat.zero_le _).mpr ⟨by simp, rfl⟩

/-- A context of two bytes that one byte was read from; and the empty binary. -/
theorem not_startRight_second_byte :
    ¬ StartRight true (.slice 0 (.processHeap 16 [1, 2])) 8 ∧ ¬ StartRight true .emptyBinary 0 := by
  refine ⟨fun h => ?_, not_startRight_emptyBinary true 0⟩
  have hzero := (unobservable_iff (by decide) (by decide)).mp (h.reuse 0 _ rfl)
  cases hzero

end ContextReuse

end Zeptobeam
