/-
Exceptions and the stack.  `try` and `catch` write a catch tag into a Y register of the frame
on top; an exception drops the stack down to the nearest tag and goes on at its label, where
`try_case` or `catch_end` clears the tag again.
-/
import Zeptobeam.FileReader
import Zeptobeam.TermCompare
import Mathlib.Logic.Function.Basic

namespace Zeptobeam

inductive ExceptionType where
  | panic
  | throw
  | error
  | exit
deriving DecidableEq, Repr

def ExceptionType.toAtom : ExceptionType → Term
  | panic => .atom "nif_error"
  | throw => .atom "throw"
  | error => .atom "error"
  | exit => .atom "exit"

/-- A word of the stack or of an X register. -/
inductive StackWord where
  | cp (addr : Nat)
  | catchTag (label : Nat)
  | term (t : Term)
  | nonValue
  /-- A tuple of the atom `EXIT` and a reason. -/
  | exitTuple (addr : Nat) (reason : StackWord)

def StackWord.isCatch : StackWord → Bool
  | catchTag _ => true
  | _ => false

def StackWord.isNonValue : StackWord → Bool
  | nonValue => true
  | _ => false

/-- A process that catches exceptions.  The stack is listed from its top on. -/
structure CatchingProcess where
  ip : Nat
  cp : Option Nat
  x : Nat → StackWord
  stack : List StackWord
  heapTop : Nat
  capacity : Nat
  error : Option (ExceptionType × Term)
  numCatches : Int
  trapExit : Bool

/-- An instruction returns `Err`, or does not return. -/
inductive CatchStop where
  | stackIndexRange (y : Nat)
  | panic (p : Panic)
deriving DecidableEq, Repr

namespace CatchingProcess

def setX (p : CatchingProcess) (n : Nat) (val : StackWord) : CatchingProcess :=
  { p with x := Function.update p.x n val }

/-- Y registers are counted from behind the word on top. -/
def setY (p : CatchingProcess) (index : Nat) (val : StackWord) :
    Except CatchStop CatchingProcess :=
  if p.stack.length < index + 1 then .error (.stackIndexRange index)
  else if index + 1 < p.stack.length then
    .ok { p with stack := p.stack.set (index + 1) val }
  else .error (.panic .indexOutOfBounds)

/-- `try`, and `catch`. -/
def tryOpcode (p : CatchingProcess) (yreg catchLabel : Nat) :
    Except CatchStop CatchingProcess :=
  { p with numCatches := p.numCatches + 1 }.setY yreg (.catchTag catchLabel)

/-- The error is cleared, and X1 to X3 go to X0 to X2. -/
def shiftRegisters (p : CatchingProcess) : CatchingProcess :=
  let p := { p with error := none }
  let p := p.setX 0 (p.x 1)
  let p := p.setX 1 (p.x 2)
  p.setX 2 (p.x 3)

def tryEnd (p : CatchingProcess) (yreg : Nat) : Except CatchStop CatchingProcess := do
  let p ← { p with numCatches := p.numCatches - 1 }.setY yreg (.term .nil)
  if (p.x 0).isNonValue then return p.shiftRegisters
  return p

def tryCase (p : CatchingProcess) (yreg : Nat) : Except CatchStop CatchingProcess := do
  let p ← { p with numCatches := p.numCatches - 1 }.setY yreg (.term .nil)
  return p.shiftRegisters

/-- The words of a tuple of two, with the header of a boxed value. -/
def pairWords (debug : Bool) : Nat :=
  (if debug then 3 else 2) + 2

def hasRoom (debug : Bool) (p : CatchingProcess) : Bool :=
  p.heapTop + pairWords debug < p.capacity - p.stack.length

/-- `tuple2`, of the atom `EXIT` and the reason, into X0. -/
def storeExitTuple (debug : Bool) (p : CatchingProcess) (reason : StackWord) :
    Except CatchStop CatchingProcess :=
  if p.hasRoom debug then
    .ok { p.setX 0 (.exitTuple p.heapTop reason) with
      heapTop := p.heapTop + pairWords debug }
  else .error (.panic .heapIsFull)

/-- The atom is `throw`. -/
def isThrow : StackWord → Bool
  | .term (.atom name) => name = "throw"
  | _ => false

def catchEnd (debug : Bool) (p : CatchingProcess) (yreg : Nat) :
    Except CatchStop CatchingProcess := do
  let p ← { p with numCatches := p.numCatches - 1 }.setY yreg (.term .nil)
  if (p.x 0).isNonValue then
    let p := { p with error := none }
    let value := p.x 2
    if isThrow (p.x 1) then return p.setX 0 value
    p.storeExitTuple debug value
  else return p

/-- The nearest catch tag, and how many words lie above it. -/
def findCatch : List StackWord → Nat → Option (Nat × Nat)
  | [], _ => none
  | .catchTag label :: _, stackDrop => some (label, stackDrop)
  | _ :: words, stackDrop => findCatch words (stackDrop + 1)

/-- One word less is dropped, to preserve the return address. -/
def unrollStackUntilCatch (stack : List StackWord) : Except Panic (Option (Nat × Nat)) :=
  match findCatch stack 0 with
  | none => .ok none
  | some (loc, stackDrop) =>
      if stackDrop = 0 then .error .arithmeticOverflow
      else .ok (some (loc, stackDrop - 1))

def dropStackWords (p : CatchingProcess) (nDrop : Nat) : Except Panic CatchingProcess :=
  if nDrop < p.stack.length then .ok { p with stack := p.stack.drop nDrop }
  else .error .assertion

/-- What the scheduler does with the process. -/
inductive Handled where
  | continueSame (p : CatchingProcess)
  | terminated

def handleProcessException (p : CatchingProcess) : Except Panic Handled :=
  match p.error with
  | none => .error .assertion
  | some (class_, value) =>
      if p.numCatches ≤ 0 then .ok .terminated
      else do
        match ← unrollStackUntilCatch p.stack with
        | some (loc, stackDrop) =>
            let p := (((p.setX 0 .nonValue).setX 1 (.term class_.toAtom)).setX 2
              (.term value)).setX 3 (.term .nil)
            let p := { p with ip := loc, cp := none }
            return .continueSame (← p.dropStackWords stackDrop)
        | none =>
            if p.trapExit then throw (.unimplemented "on terminate implement trap_exit")
            return .terminated

/-! ## Frames -/

/-- A return address, and the Y registers behind it. -/
structure Frame where
  cp : Nat
  y : List StackWord

def Frame.words (f : Frame) : List StackWord :=
  .cp f.cp :: f.y

/-- The stack that is made of the frames. -/
def stackOf (frames : List Frame) : List StackWord :=
  frames.flatMap Frame.words

def countTags (stack : List StackWord) : Nat :=
  stack.countP StackWord.isCatch

/-- A catch tag: its label and register, with its frame and the frames below. -/
structure Tag where
  label : Nat
  register : Nat
  frame : Frame
  below : List Frame

/-- The word of the tag is in its register. -/
def Tag.IsThere (tag : Tag) : Prop :=
  tag.frame.y[tag.register]? = some (.catchTag tag.label)

/-- No word of the frame is a catch tag. -/
def Frame.Plain (f : Frame) : Prop :=
  ∀ w ∈ f.y, w.isCatch = false

/-- The tag is on the stack, and none is nearer to the stack top. -/
def IsNearest (frames : List Frame) (tag : Tag) : Prop :=
  tag.IsThere ∧ (∀ w ∈ tag.frame.y.take tag.register, w.isCatch = false) ∧
    ∃ above : List Frame, frames = above ++ tag.frame :: tag.below ∧ ∀ f ∈ above, f.Plain

/-- The frame of the tag without the tag. -/
def Tag.cleared (tag : Tag) : List Frame :=
  { tag.frame with y := tag.frame.y.set tag.register (.term .nil) } :: tag.below

/-- The instruction at the label of a catch. -/
inductive Closing where
  | tryCase
  | catchEnd

def Closing.run (debug : Bool) : Closing → CatchingProcess → Nat → Except CatchStop CatchingProcess
  | tryCase, p, yreg => p.tryCase yreg
  | catchEnd, p, yreg => p.catchEnd debug yreg

/-- An instruction clears the tag, and the counter is in step again. -/
def Clears (result : Except CatchStop CatchingProcess) (tag : Tag) : Prop :=
  ∃ p, result = .ok p ∧ p.stack = stackOf tag.cleared ∧ p.numCatches = countTags p.stack

/-- An exception resumes at the nearest tag, on top of its frame, and the instruction at its
label clears it. -/
def UnwindsRight (debug : Bool) (closing : Closing) (p : CatchingProcess) (tag : Tag) : Prop :=
  ∃ p', handleProcessException p = .ok (.continueSame p') ∧ p'.ip = tag.label ∧
    p'.stack = stackOf (tag.frame :: tag.below) ∧ Clears (closing.run debug p' tag.register) tag

/-! ## Unwinding -/

variable {p : CatchingProcess} {frames below : List Frame} {tag : Tag} {debug : Bool}

theorem findCatch_append {words : List StackWord} (rest : List StackWord) (label d : Nat)
    (hplain : ∀ w ∈ words, w.isCatch = false) :
    findCatch (words ++ .catchTag label :: rest) d = some (label, d + words.length) := by
  induction words generalizing d with
  | nil => rfl
  | cons w words ih =>
      have hw := hplain w List.mem_cons_self
      have hrest := ih (d + 1) fun w' hw' => hplain w' (List.mem_cons_of_mem w hw')
      rw [List.cons_append, List.length_cons, show d + (words.length + 1) = d + 1 + words.length by omega]
      cases w with
      | catchTag other => cases hw
      | _ => exact hrest

theorem stackOf_append (above : List Frame) :
    stackOf (above ++ below) = stackOf above ++ stackOf below :=
  List.flatMap_append

theorem stackOf_cons (f : Frame) : stackOf (f :: below) = .cp f.cp :: (f.y ++ stackOf below) := rfl

theorem plain_stackOf {above : List Frame} (h : ∀ f ∈ above, f.Plain) :
    ∀ w ∈ stackOf above, w.isCatch = false := by
  intro w hw
  obtain ⟨f, hf, hword⟩ := List.mem_flatMap.mp hw
  rcases List.mem_cons.mp hword with rfl | hy
  · rfl
  · exact h f hf w hy

theorem Tag.IsThere.lt (h : tag.IsThere) : tag.register < tag.frame.y.length :=
  (List.getElem?_eq_some_iff.mp h).1

/-- The words of the frame around the tag. -/
theorem Tag.IsThere.split (h : tag.IsThere) :
    stackOf (tag.frame :: tag.below) =
      (.cp tag.frame.cp :: tag.frame.y.take tag.register) ++ .catchTag tag.label ::
        (tag.frame.y.drop (tag.register + 1) ++ stackOf tag.below) := by
  obtain ⟨hlt, hget⟩ := List.getElem?_eq_some_iff.mp h
  have hy : tag.frame.y = tag.frame.y.take tag.register ++ .catchTag tag.label ::
      tag.frame.y.drop (tag.register + 1) := by
    rw [← hget, List.getElem_cons_drop, List.take_append_drop]
  rw [stackOf_cons]
  conv_lhs => rw [hy]
  simp

/-- Of the tags among the words there is a first one. -/
theorem exists_first_tag {words : List StackWord} (h : ∃ w ∈ words, w.isCatch = true) :
    ∃ k label, words[k]? = some (.catchTag label) ∧ ∀ w ∈ words.take k, w.isCatch = false := by
  induction words with
  | nil => simp at h
  | cons w words ih =>
      cases w with
      | catchTag label => exact ⟨0, label, rfl, by simp⟩
      | _ =>
          obtain ⟨w', hw', hcatch⟩ := h
          rcases List.mem_cons.mp hw' with rfl | hw'
          · cases hcatch
          · obtain ⟨k, label, hget, hplain⟩ := ih ⟨w', hw', hcatch⟩
            refine ⟨k + 1, label, hget, ?_⟩
            intro other hother
            rw [List.take_succ_cons] at hother
            rcases List.mem_cons.mp hother with rfl | hother
            · rfl
            · exact hplain other hother

theorem exists_isNearest (h : 0 < countTags (stackOf frames)) : ∃ tag, IsNearest frames tag := by
  induction frames with
  | nil => cases h
  | cons f below ih =>
      by_cases hplain : f.Plain
      · have hbelow : 0 < countTags (stackOf below) := by
          obtain ⟨w, hw, hcatch⟩ := List.countP_pos_iff.mp h
          rw [stackOf_cons] at hw
          rcases List.mem_cons.mp hw with rfl | hw
          · cases hcatch
          · rcases List.mem_append.mp hw with hw | hw
            · rw [hplain w hw] at hcatch
              cases hcatch
            · exact List.countP_pos_iff.mpr ⟨w, hw, hcatch⟩
        obtain ⟨tag, hthere, hfirst, above, hframes, habove⟩ := ih hbelow
        refine ⟨tag, hthere, hfirst, f :: above, by rw [hframes]; rfl, ?_⟩
        intro g hg
        rcases List.mem_cons.mp hg with rfl | hg
        · exact hplain
        · exact habove g hg
      · have htag : ∃ w ∈ f.y, w.isCatch = true := by
          simpa [Frame.Plain] using hplain
        obtain ⟨k, label, hget, hfirst⟩ := exists_first_tag htag
        exact ⟨⟨label, k, f, below⟩, hget, hfirst, [], rfl, by simp⟩

/-- As many words are dropped as lie above the frame, and one more for each register in front
of the tag. -/
theorem unroll_of_isNearest (htag : IsNearest frames tag) :
    ∃ above : List Frame, stackOf frames = stackOf above ++ stackOf (tag.frame :: tag.below) ∧
      countTags (stackOf above) = 0 ∧
      unrollStackUntilCatch (stackOf frames) =
        .ok (some (tag.label, (stackOf above).length + tag.register)) := by
  obtain ⟨hthere, hfirst, above, rfl, hplain⟩ := htag
  have hlength : (tag.frame.y.take tag.register).length = tag.register := by
    rw [List.length_take, Nat.min_eq_left (Nat.le_of_lt hthere.lt)]
  refine ⟨above, stackOf_append above, ?_, ?_⟩
  · rw [countTags, List.countP_eq_zero]
    intro w hw
    rw [plain_stackOf hplain w hw]
    exact Bool.false_ne_true
  · have habove : ∀ w ∈ stackOf above ++ .cp tag.frame.cp :: tag.frame.y.take tag.register,
        w.isCatch = false := by
      intro w hw
      rcases List.mem_append.mp hw with hw | hw
      · exact plain_stackOf hplain w hw
      · rcases List.mem_cons.mp hw with rfl | hw
        · rfl
        · exact hfirst w hw
    have hfind := findCatch_append
      (tag.frame.y.drop (tag.register + 1) ++ stackOf tag.below) tag.label 0 habove
    rw [List.append_assoc, ← hthere.split, ← stackOf_append, List.length_append,
      List.length_cons, hlength] at hfind
    rw [unrollStackUntilCatch, hfind]
    simp only [Nat.zero_add]
    rw [if_neg (by omega)]
    rfl

/-- The word of the tag, from the frame on. -/
theorem Tag.IsThere.getElem? (h : tag.IsThere) :
    (stackOf (tag.frame :: tag.below))[tag.register + 1]? = some (.catchTag tag.label) := by
  rw [stackOf_cons, List.getElem?_cons_succ, List.getElem?_append_left h.lt]
  exact h

theorem Tag.IsThere.stackOf_cleared (h : tag.IsThere) :
    (stackOf (tag.frame :: tag.below)).set (tag.register + 1) (.term .nil) =
      stackOf tag.cleared := by
  rw [Tag.cleared, stackOf_cons, stackOf_cons, List.set_cons_succ,
    List.set_append_left _ _ h.lt]

theorem Tag.IsThere.countTags_cleared (h : tag.IsThere) :
    countTags (stackOf tag.cleared) + 1 = countTags (stackOf (tag.frame :: tag.below)) := by
  obtain ⟨hlt, hget⟩ := List.getElem?_eq_some_iff.mp h.getElem?
  have hpos : 0 < (stackOf (tag.frame :: tag.below)).countP StackWord.isCatch := by
    apply List.countP_pos_iff.mpr
    exact ⟨_, List.mem_of_getElem? h.getElem?, rfl⟩
  rw [countTags, countTags, ← h.stackOf_cleared, List.countP_set hlt, hget]
  simp only [StackWord.isCatch, if_true, Bool.false_eq_true, if_false]
  omega

/-- On top of its frame, the tag is cleared through its register. -/
theorem setY_cleared (hstack : p.stack = stackOf (tag.frame :: tag.below))
    (h : tag.IsThere) :
    p.setY tag.register (.term .nil) = .ok { p with stack := stackOf tag.cleared } := by
  have hlt := (List.getElem?_eq_some_iff.mp h.getElem?).1
  rw [setY, hstack, if_neg (by omega), if_pos hlt, h.stackOf_cleared]

@[simp]
theorem stack_setX (p : CatchingProcess) (n : Nat) (val : StackWord) :
    (p.setX n val).stack = p.stack := rfl

@[simp]
theorem numCatches_setX (p : CatchingProcess) (n : Nat) (val : StackWord) :
    (p.setX n val).numCatches = p.numCatches := rfl

@[simp]
theorem stack_shiftRegisters (p : CatchingProcess) : p.shiftRegisters.stack = p.stack := rfl

@[simp]
theorem numCatches_shiftRegisters (p : CatchingProcess) :
    p.shiftRegisters.numCatches = p.numCatches := rfl

/-- The tag is cleared and the counter is one less. -/
theorem clears_of_ok {result : Except CatchStop CatchingProcess} {q : CatchingProcess}
    (h : tag.IsThere) (hresult : result = .ok q) (hstack : q.stack = stackOf tag.cleared)
    (hcount : q.numCatches = (countTags (stackOf (tag.frame :: tag.below)) : Int) - 1) :
    Clears result tag := by
  have hless := h.countTags_cleared
  refine ⟨q, hresult, hstack, ?_⟩
  rw [hcount, hstack]
  omega

/-- The first part of an instruction that clears the tag. -/
def uncaught (p : CatchingProcess) (tag : Tag) : CatchingProcess :=
  { p with numCatches := p.numCatches - 1, stack := stackOf tag.cleared }

theorem setY_uncaught (hstack : p.stack = stackOf (tag.frame :: tag.below))
    (h : tag.IsThere) :
    { p with numCatches := p.numCatches - 1 }.setY tag.register (.term .nil) =
      .ok (p.uncaught tag) :=
  setY_cleared (p := { p with numCatches := p.numCatches - 1 }) hstack h

theorem clears_tryEnd (hstack : p.stack = stackOf (tag.frame :: tag.below)) (h : tag.IsThere)
    (hcount : p.numCatches = countTags p.stack) : Clears (p.tryEnd tag.register) tag := by
  have hend : p.tryEnd tag.register = .ok (if (p.x 0).isNonValue then
      (p.uncaught tag).shiftRegisters else p.uncaught tag) := by
    rw [tryEnd, setY_uncaught hstack h]
    cases hx : (p.x 0).isNonValue with
    | false => simp only [bind, Except.bind, uncaught, hx]; rfl
    | true => simp only [bind, Except.bind, uncaught, hx]; rfl
  rw [hstack] at hcount
  apply clears_of_ok h hend
  · split <;> rfl
  · rw [← hcount]
    split <;> rfl

theorem clears_tryCase (hstack : p.stack = stackOf (tag.frame :: tag.below)) (h : tag.IsThere)
    (hcount : p.numCatches = countTags p.stack) : Clears (p.tryCase tag.register) tag := by
  have hcase : p.tryCase tag.register = .ok (p.uncaught tag).shiftRegisters := by
    rw [tryCase, setY_uncaught hstack h]
    rfl
  rw [hstack] at hcount
  apply clears_of_ok h hcase
  · rfl
  · rw [← hcount]
    rfl

/-- After an exception `catch_end` needs room for a tuple, unless a value was thrown. -/
theorem clears_catchEnd_iff (hstack : p.stack = stackOf (tag.frame :: tag.below))
    (h : tag.IsThere) (hcount : p.numCatches = countTags p.stack)
    (hcaught : (p.x 0).isNonValue = true) :
    Clears (p.catchEnd debug tag.register) tag ↔
      (isThrow (p.x 1) = true ∨ p.hasRoom debug = true) := by
  have hend : p.catchEnd debug tag.register =
      if isThrow (p.x 1) then
        .ok ({ p.uncaught tag with error := none }.setX 0 (p.x 2))
      else { p.uncaught tag with error := none }.storeExitTuple debug (p.x 2) := by
    rw [catchEnd, setY_uncaught hstack h]
    simp only [bind, Except.bind, uncaught, hcaught, if_true]
    rfl
  have hroom : { p.uncaught tag with error := none }.hasRoom debug = p.hasRoom debug := by
    have hlength : (stackOf tag.cleared).length = p.stack.length := by
      rw [hstack, ← h.stackOf_cleared, List.length_set]
    simp only [hasRoom, uncaught, hlength]
  rw [hstack] at hcount
  rw [hend, storeExitTuple, hroom]
  cases hthrow : isThrow (p.x 1) with
  | true =>
      refine iff_of_true ?_ (Or.inl rfl)
      exact clears_of_ok h rfl rfl (by rw [← hcount]; rfl)
  | false =>
      cases hfits : p.hasRoom debug with
      | true =>
          refine iff_of_true ?_ (Or.inr rfl)
          exact clears_of_ok h rfl rfl (by rw [← hcount]; rfl)
      | false =>
          refine iff_of_false ?_ (by simp)
          rintro ⟨q, hq, _⟩
          cases hq

theorem clears_closing_iff (closing : Closing)
    (hstack : p.stack = stackOf (tag.frame :: tag.below)) (h : tag.IsThere)
    (hcount : p.numCatches = countTags p.stack) (hcaught : (p.x 0).isNonValue = true) :
    Clears (closing.run debug p tag.register) tag ↔
      (closing = .catchEnd → isThrow (p.x 1) = true ∨ p.hasRoom debug = true) := by
  cases closing with
  | tryCase => exact iff_of_true (clears_tryCase hstack h hcount) (fun hend => by cases hend)
  | catchEnd =>
      rw [Closing.run, clears_catchEnd_iff hstack h hcount hcaught]
      simp

/-- The process that goes on at the tag. -/
def resumed (p : CatchingProcess) (class_ : ExceptionType) (value : Term) (tag : Tag) :
    CatchingProcess :=
  { (((p.setX 0 .nonValue).setX 1 (.term class_.toAtom)).setX 2 (.term value)).setX 3
      (.term .nil) with
    ip := tag.label
    cp := none
    stack := (stackOf (tag.frame :: tag.below)).drop tag.register }

variable {class_ : ExceptionType} {value : Term}

theorem countTags_of_isNearest (htag : IsNearest frames tag) :
    countTags (stackOf frames) = countTags (stackOf (tag.frame :: tag.below)) := by
  obtain ⟨above, hstack, habove, _⟩ := unroll_of_isNearest htag
  rw [hstack, countTags, List.countP_append]
  exact (congrArg (· + _) habove).trans (Nat.zero_add _)

theorem handle_of_isNearest (hstack : p.stack = stackOf frames) (htag : IsNearest frames tag)
    (herror : p.error = some (class_, value)) (hcount : p.numCatches = countTags p.stack) :
    handleProcessException p = .ok (.continueSame (p.resumed class_ value tag)) := by
  have hless := htag.1.countTags_cleared
  rw [← countTags_of_isNearest htag, ← hstack] at hless
  obtain ⟨above, hsplit, _, hunroll⟩ := unroll_of_isNearest htag
  rw [← hstack] at hsplit hunroll
  have hlt : (stackOf above).length + tag.register < p.stack.length := by
    have hthere := (List.getElem?_eq_some_iff.mp htag.1.getElem?).1
    rw [hsplit, List.length_append]
    omega
  have hdrop : p.stack.drop ((stackOf above).length + tag.register) =
      (stackOf (tag.frame :: tag.below)).drop tag.register := by
    rw [hsplit, List.drop_append, List.drop_of_length_le (by omega), List.nil_append,
      Nat.add_sub_cancel_left]
  rw [handleProcessException, herror]
  simp only
  rw [if_neg (by omega), hunroll]
  simp only [bind, Except.bind, dropStackWords, stack_setX, hlt, if_true, hdrop]
  rfl

theorem isThrow_toAtom (class_ : ExceptionType) :
    isThrow (.term class_.toAtom) = true ↔ class_ = .throw := by
  cases class_ <;> decide

theorem IsNearest.stack_resumed (htag : IsNearest frames tag) :
    (p.resumed class_ value tag).stack = stackOf (tag.frame :: tag.below) ↔
      tag.register = 0 := by
  have hlt := (List.getElem?_eq_some_iff.mp htag.1.getElem?).1
  constructor
  · intro hdrop
    have hlength := congrArg List.length hdrop
    rw [resumed, List.length_drop] at hlength
    omega
  · intro hzero
    rw [resumed, hzero]
    rfl

theorem unwindsRight_of_isNearest_iff (debug : Bool) (closing : Closing)
    (hstack : p.stack = stackOf frames) (htag : IsNearest frames tag)
    (herror : p.error = some (class_, value)) (hcount : p.numCatches = countTags p.stack) :
    UnwindsRight debug closing p tag ↔
      tag.register = 0 ∧ (closing = .catchEnd → class_ = .throw ∨
        { p with stack := stackOf (tag.frame :: tag.below) }.hasRoom debug = true) := by
  have hhandle := handle_of_isNearest hstack htag herror hcount
  have hclosing : tag.register = 0 →
      (Clears (closing.run debug (p.resumed class_ value tag) tag.register) tag ↔
        (closing = .catchEnd → class_ = .throw ∨
          { p with stack := stackOf (tag.frame :: tag.below) }.hasRoom debug = true)) := by
    intro hzero
    have hframe : (p.resumed class_ value tag).stack = stackOf (tag.frame :: tag.below) :=
      htag.stack_resumed.mpr hzero
    have hinStep : (p.resumed class_ value tag).numCatches =
        countTags (p.resumed class_ value tag).stack := by
      rw [hframe, ← countTags_of_isNearest htag, ← hstack, ← hcount]
      rfl
    rw [clears_closing_iff closing hframe htag.1 hinStep rfl, ← isThrow_toAtom, hasRoom, hframe]
    rfl
  constructor
  · rintro ⟨p', hp', _, hframe, hclears⟩
    rw [hhandle] at hp'
    obtain rfl := Handled.continueSame.inj (Except.ok.inj hp')
    have hzero := htag.stack_resumed.mp hframe
    exact ⟨hzero, (hclosing hzero).mp hclears⟩
  · rintro ⟨hzero, hroom⟩
    exact ⟨_, hhandle, rfl, htag.stack_resumed.mpr hzero, (hclosing hzero).mpr hroom⟩

/-- A frame with two Y registers. -/
def twoRegisters (y0 y1 : StackWord) : Frame :=
  ⟨100, [y0, y1]⟩

def raising (frames : List Frame) : CatchingProcess where
  ip := 0
  cp := none
  x := fun _ => .term .nil
  stack := stackOf frames
  heapTop := 0
  capacity := 64
  error := some (.error, .atom "badarg")
  numCatches := countTags (stackOf frames)
  trapExit := false

end CatchingProcess

end Zeptobeam
