/-
The heap of a process and its stack grow towards each other in one vector of words.  A push does
not look for the heap, an allocation is refused one word before the check that precedes it, and
the last Y register of a stack lies behind the vector's end.
-/
import Zeptobeam.CatchTags
import Zeptobeam.Lib.GuardedRun

namespace Zeptobeam

open GuardedRun StateExcept

def StackWord.isCp : StackWord → Bool
  | cp _ => true
  | _ => false

inductive AllocInit where
  | nil
  | uninitialized
deriving DecidableEq, Repr

/-- `IncrementalHeap`, with the words of its vector. -/
structure IncrementalHeap where
  data : List StackWord
  heapTop : Nat
  stackTop : Nat
  capacity : Nat

/-- A sum, and a difference, of machine words. -/
def wordAdd (debug : Bool) (a b : Nat) : Except CatchStop Nat :=
  if debug ∧ 2 ^ 64 ≤ a + b then .error (.panic .arithmeticOverflow)
  else .ok ((a + b) % 2 ^ 64)

def wordSub (debug : Bool) (a b : Nat) : Except CatchStop Nat :=
  if debug ∧ a < b then .error (.panic .arithmeticOverflow)
  else .ok ((a + 2 ^ 64 - b) % 2 ^ 64)

namespace IncrementalHeap

/-- The words are not cleared; a vector has `isize::MAX` bytes at most. -/
def new (data : List StackWord) : Except CatchStop IncrementalHeap :=
  if data.length = 0 ∨ 2 ^ 60 ≤ data.length then .error (.panic .assertion)
  else .ok { data, heapTop := 0, stackTop := data.length, capacity := data.length }

/-- New words are cleared through a raw pointer. -/
def fillWords (h : IncrementalHeap) (pos n : Nat) :
    AllocInit → Except CatchStop (List StackWord)
  | .uninitialized => .ok h.data
  | .nil =>
      if pos + n ≤ h.data.length then
        .ok (h.data.take pos ++ List.replicate n (.term .nil) ++ h.data.drop (pos + n))
      else .error (.panic .outsideAllocation)

/-- Where the new chunk lies. -/
def alloc (debug : Bool) (h : IncrementalHeap) (n : UInt64) (fill : AllocInit) :
    Except CatchStop (Nat × IncrementalHeap) := do
  let top ← wordAdd debug h.heapTop n.toNat
  -- this situation has to be detected before we arrive here
  if h.stackTop ≤ top then throw (.panic .heapIsFull)
  let data ← h.fillWords h.heapTop n.toNat fill
  return (h.heapTop, { h with data := data, heapTop := top })

def heapCheckAvailable (debug : Bool) (h : IncrementalHeap) (need : UInt64) :
    Except CatchStop Bool := do
  return (← wordAdd debug h.heapTop need.toNat) ≤ h.stackTop

/-- `ensure_heap` of the process; the garbage collector is not finished. -/
def ensureHeap (debug : Bool) (h : IncrementalHeap) (need : UInt64) :
    Except CatchStop Unit := do
  if ← h.heapCheckAvailable debug need then return
  else throw (.panic (.unimplemented "Copying GC: Done"))

/-- Without checking. -/
def stackAlloc (debug : Bool) (h : IncrementalHeap) (need : UInt64) (fill : AllocInit) :
    Except CatchStop IncrementalHeap := do
  if need.toNat = 0 then return h
  let top ← wordSub debug h.stackTop need.toNat
  let data ← h.fillWords top need.toNat fill
  return { h with data := data, stackTop := top }

/-- `stack_push_lterm_unchecked`. -/
def stackPush (debug : Bool) (h : IncrementalHeap) (val : StackWord) :
    Except CatchStop IncrementalHeap := do
  let top ← wordSub debug h.stackTop 1
  if top < h.data.length then return { h with data := h.data.set top val, stackTop := top }
  else throw (.panic .indexOutOfBounds)

/-- What the opcodes that allocate a frame share. -/
def genAlloc (debug : Bool) (h : IncrementalHeap) (cp : Nat) (stackNeed heapNeed : UInt64)
    (fill : AllocInit) : Except CatchStop IncrementalHeap := do
  h.ensureHeap debug heapNeed
  let h ← h.stackAlloc debug stackNeed fill
  h.stackPush debug (.cp cp)

/-- The return address on top, and `n` words more. -/
def stackDeallocate (debug : Bool) (h : IncrementalHeap) (n : UInt64) :
    Except CatchStop (StackWord × IncrementalHeap) := do
  let last ← wordAdd debug h.stackTop n.toNat
  if h.capacity ≤ last then throw (.panic .assertion)
  match h.data[h.stackTop]? with
  | none => throw (.panic .indexOutOfBounds)
  | some cp =>
      if !cp.isCp then throw (.panic .assertion)
      let top ← wordAdd debug h.stackTop (← wordAdd debug n.toNat 1)
      return (cp, { h with stackTop := top })

def stackHaveY (debug : Bool) (h : IncrementalHeap) (y : UInt64) : Except CatchStop Bool := do
  let depth ← wordSub debug h.capacity h.stackTop
  return (← wordAdd debug y.toNat 1) ≤ depth

/-- Where the word of a Y register lies. -/
def yPos (debug : Bool) (h : IncrementalHeap) (y : UInt64) : Except CatchStop Nat := do
  wordAdd debug (← wordAdd debug y.toNat h.stackTop) 1

def getY (debug : Bool) (h : IncrementalHeap) (y : UInt64) : Except CatchStop StackWord := do
  if ← h.stackHaveY debug y then
    match h.data[← h.yPos debug y]? with
    | none => throw (.panic .indexOutOfBounds)
    | some result =>
        if debug && result.isNonValue then throw (.panic .assertion)
        return result
  else throw (.stackIndexRange y.toNat)

def setY (debug : Bool) (h : IncrementalHeap) (y : UInt64) (val : StackWord) :
    Except CatchStop IncrementalHeap := do
  if debug && val.isNonValue then throw (.panic .assertion)
  if ← h.stackHaveY debug y then
    let pos ← h.yPos debug y
    if pos < h.data.length then return { h with data := h.data.set pos val }
    else throw (.panic .indexOutOfBounds)
  else throw (.stackIndexRange y.toNat)

end IncrementalHeap

inductive HeapOp where
  | alloc (n : UInt64) (fill : AllocInit)
  | push (val : StackWord)
  | allocateFrame (cp : Nat) (stackNeed heapNeed : UInt64) (fill : AllocInit)
  | deallocate (n : UInt64)
  | getY (y : UInt64)
  | setY (y : UInt64) (val : StackWord)

namespace IncrementalHeap

def step (debug : Bool) (h : IncrementalHeap) : HeapOp → Except CatchStop IncrementalHeap
  | .alloc n fill => do return (← h.alloc debug n fill).2
  | .push val => h.stackPush debug val
  | .allocateFrame cp stackNeed heapNeed fill => h.genAlloc debug cp stackNeed heapNeed fill
  | .deallocate n => do return (← h.stackDeallocate debug n).2
  | .getY y => do
      let _ ← h.getY debug y
      return h
  | .setY y val => h.setY debug y val

/-! ## Heap and stack -/

/-- The heap ends where the stack begins, or before. -/
def Apart (h : IncrementalHeap) : Prop :=
  h.heapTop ≤ h.stackTop ∧ h.stackTop ≤ h.capacity

/-- The stack's new top does not lie in the heap.  In a release build the words that a frame
takes are subtracted, and those that are dropped are added, as machine words. -/
def KeepsApart (h : IncrementalHeap) : HeapOp → Prop
  | .push _ => h.heapTop < h.stackTop
  | .allocateFrame _ stackNeed _ _ =>
      h.heapTop ≤ (h.stackTop + 2 ^ 64 - (stackNeed.toNat + 1)) % 2 ^ 64
  | .deallocate n => h.heapTop ≤ (h.stackTop + (n.toNat + 1)) % 2 ^ 64
  | _ => True

/-- The vector is the same, with other words at most. -/
structure SameVector (h h' : IncrementalHeap) : Prop where
  data_length : h'.data.length = h.data.length
  capacity : h'.capacity = h.capacity

/-- Heap and stack lie in the vector. -/
structure WellFormed (h : IncrementalHeap) : Prop where
  apart : h.Apart
  data_length : h.data.length = h.capacity
  capacity_lt : h.capacity < 2 ^ 60

/-- Reading and writing the Y register touch one word, and this is of the stack. -/
def YInStack (debug : Bool) (h : IncrementalHeap) (y : UInt64) : Prop :=
  ∃ pos word, h.heapTop ≤ pos ∧ h.stackTop ≤ pos ∧ pos < h.capacity ∧
    h.data[pos]? = some word ∧
    h.getY debug y = (if debug && word.isNonValue then .error (.panic .assertion)
      else .ok word) ∧
    ∀ val, h.setY debug y val = if debug && val.isNonValue then .error (.panic .assertion)
      else .ok { h with data := h.data.set pos val }

section Steps

variable {debug : Bool} {h h' : IncrementalHeap} {n y : UInt64} {fill : AllocInit}

theorem wordAdd_ok {a b c : Nat} (hadd : wordAdd debug a b = .ok c) : c = (a + b) % 2 ^ 64 := by
  unfold wordAdd at hadd
  split at hadd
  · cases hadd
  · exact (Except.ok.inj hadd).symm

theorem wordSub_ok {a b c : Nat} (hsub : wordSub debug a b = .ok c) :
    c = (a + 2 ^ 64 - b) % 2 ^ 64 := by
  unfold wordSub at hsub
  split at hsub
  · cases hsub
  · exact (Except.ok.inj hsub).symm

theorem fillWords_length {pos k : Nat} {data : List StackWord}
    (hfill : h.fillWords pos k fill = .ok data) : data.length = h.data.length := by
  cases fill with
  | uninitialized => exact congrArg List.length (Except.ok.inj hfill).symm
  | nil =>
      rw [fillWords] at hfill
      split at hfill
      · cases hfill
        simp only [List.length_append, List.length_take, List.length_replicate,
          List.length_drop]
        omega
      · cases hfill

theorem alloc_ok {pos : Nat} (hstep : h.alloc debug n fill = .ok (pos, h')) :
    SameVector h h' ∧ h'.stackTop = h.stackTop ∧ h'.heapTop < h.stackTop := by
  obtain ⟨top, -, hstep⟩ := except_bind_eq_ok_iff.mp hstep
  split at hstep
  · cases hstep
  next hroom =>
    obtain ⟨data, hfill, hstep⟩ := except_bind_eq_ok_iff.mp hstep
    obtain ⟨-, rfl⟩ := Prod.mk.inj (Except.ok.inj hstep)
    exact ⟨⟨fillWords_length hfill, rfl⟩, rfl, Nat.lt_of_not_le hroom⟩

theorem stackAlloc_ok (htop : h.stackTop < 2 ^ 64)
    (hstep : h.stackAlloc debug n fill = .ok h') :
    SameVector h h' ∧ h'.heapTop = h.heapTop ∧
      h'.stackTop = (h.stackTop + 2 ^ 64 - n.toNat) % 2 ^ 64 := by
  unfold stackAlloc at hstep
  split at hstep
  next hzero =>
    cases hstep
    refine ⟨⟨rfl, rfl⟩, rfl, ?_⟩
    omega
  next =>
    obtain ⟨top, hsub, hstep⟩ := except_bind_eq_ok_iff.mp hstep
    obtain ⟨data, hfill, hstep⟩ := except_bind_eq_ok_iff.mp hstep
    cases hstep
    exact ⟨⟨fillWords_length hfill, rfl⟩, rfl, wordSub_ok hsub⟩

theorem stackPush_ok {val : StackWord} (hstep : h.stackPush debug val = .ok h') :
    SameVector h h' ∧ h'.heapTop = h.heapTop ∧
      h'.stackTop = (h.stackTop + 2 ^ 64 - 1) % 2 ^ 64 ∧ h'.stackTop < h.data.length := by
  obtain ⟨top, hsub, hstep⟩ := except_bind_eq_ok_iff.mp hstep
  split at hstep
  next hin =>
    cases hstep
    exact ⟨⟨List.length_set, rfl⟩, rfl, wordSub_ok hsub, hin⟩
  next => cases hstep

theorem genAlloc_ok {cp : Nat} {heapNeed : UInt64} (htop : h.stackTop < 2 ^ 64)
    (hstep : h.genAlloc debug cp n heapNeed fill = .ok h') :
    SameVector h h' ∧ h'.heapTop = h.heapTop ∧
      h'.stackTop = (h.stackTop + 2 ^ 64 - (n.toNat + 1)) % 2 ^ 64 ∧
      h'.stackTop < h.data.length := by
  obtain ⟨-, -, hstep⟩ := except_bind_eq_ok_iff.mp hstep
  obtain ⟨h₁, halloc, hpush⟩ := except_bind_eq_ok_iff.mp hstep
  obtain ⟨hvector, hheap, hstack⟩ := stackAlloc_ok htop halloc
  obtain ⟨hvector₁, hheap₁, hstack₁, hin⟩ := stackPush_ok hpush
  refine ⟨⟨hvector₁.data_length.trans hvector.data_length,
    hvector₁.capacity.trans hvector.capacity⟩, hheap₁.trans hheap, ?_, ?_⟩
  · have hn := n.toNat_lt
    omega
  · rwa [← hvector.data_length]

theorem stackDeallocate_ok {cp : StackWord}
    (hstep : h.stackDeallocate debug n = .ok (cp, h')) :
    SameVector h h' ∧ h'.heapTop = h.heapTop ∧
      h'.stackTop = (h.stackTop + (n.toNat + 1)) % 2 ^ 64 ∧
      (h.stackTop + n.toNat) % 2 ^ 64 < h.capacity := by
  obtain ⟨last, hlast, hstep⟩ := except_bind_eq_ok_iff.mp hstep
  obtain rfl := wordAdd_ok hlast
  by_cases hin : h.capacity ≤ (h.stackTop + n.toNat) % 2 ^ 64
  · rw [if_pos hin] at hstep
    cases hstep
  · rw [if_neg hin] at hstep
    split at hstep
    · cases hstep
    · split at hstep
      · cases hstep
      · obtain ⟨size, hsize, hstep⟩ := except_bind_eq_ok_iff.mp hstep
        obtain ⟨top, htop, hstep⟩ := except_bind_eq_ok_iff.mp hstep
        obtain ⟨-, rfl⟩ := Prod.mk.inj (Except.ok.inj hstep)
        obtain rfl := wordAdd_ok hsize
        refine ⟨⟨rfl, rfl⟩, rfl, ?_, Nat.lt_of_not_le hin⟩
        rw [wordAdd_ok htop, Nat.add_mod_mod]

theorem setY_ok {val : StackWord} (hstep : h.setY debug y val = .ok h') :
    SameVector h h' ∧ h'.heapTop = h.heapTop ∧ h'.stackTop = h.stackTop := by
  unfold setY at hstep
  split at hstep
  · cases hstep
  · obtain ⟨found, -, hstep⟩ := except_bind_eq_ok_iff.mp hstep
    split at hstep
    · obtain ⟨pos, -, hstep⟩ := except_bind_eq_ok_iff.mp hstep
      split at hstep
      · cases hstep
        exact ⟨⟨List.length_set, rfl⟩, rfl, rfl⟩
      · cases hstep
    · cases hstep

/-- What a step that succeeds does: the stack stays in the vector, and whether it stays off the
heap is as the guard says. -/
theorem step_ok {op : HeapOp} (hwf : h.WellFormed) (hstep : h.step debug op = .ok h') :
    SameVector h h' ∧ h'.stackTop ≤ h.capacity ∧
      (h'.heapTop ≤ h'.stackTop ↔ h.KeepsApart op) := by
  obtain ⟨⟨hapart, hstack⟩, hlength, hcapacity⟩ := hwf
  cases op with
  | alloc n fill =>
      obtain ⟨⟨pos, _⟩, halloc, hstep⟩ := except_bind_eq_ok_iff.mp hstep
      cases hstep
      obtain ⟨hvector, htop, hroom⟩ := alloc_ok halloc
      refine ⟨hvector, htop.le.trans hstack, iff_of_true ?_ trivial⟩
      dsimp only
      omega
  | push val =>
      obtain ⟨hvector, hheap, htop, hin⟩ := stackPush_ok hstep
      refine ⟨hvector, by omega, ?_⟩
      rw [KeepsApart]
      omega
  | allocateFrame cp stackNeed heapNeed fill =>
      obtain ⟨hvector, hheap, htop, hin⟩ := genAlloc_ok (by omega) hstep
      refine ⟨hvector, by omega, ?_⟩
      rw [KeepsApart, hheap, htop]
  | deallocate n =>
      obtain ⟨⟨cp, _⟩, hdealloc, hstep⟩ := except_bind_eq_ok_iff.mp hstep
      cases hstep
      obtain ⟨hvector, hheap, htop, hin⟩ := stackDeallocate_ok hdealloc
      refine ⟨hvector, ?_, ?_⟩
      · dsimp only
        omega
      · rw [KeepsApart, hheap, htop]
  | getY y =>
      obtain ⟨_, -, hstep⟩ := except_bind_eq_ok_iff.mp hstep
      cases hstep
      exact ⟨⟨rfl, rfl⟩, hstack, iff_of_true hapart trivial⟩
  | setY y val =>
      obtain ⟨hvector, hheap, htop⟩ := setY_ok hstep
      refine ⟨hvector, htop.le.trans hstack, iff_of_true ?_ trivial⟩
      omega

theorem wordAdd_eq {a b : Nat} (hlt : a + b < 2 ^ 64) : wordAdd debug a b = .ok (a + b) := by
  rw [wordAdd, if_neg (by omega), Nat.mod_eq_of_lt hlt]

/-- An allocation that the check lets through is refused where it takes all the words that are
left. -/
theorem alloc_succeeds_iff (hwf : h.WellFormed)
    (havailable : h.heapCheckAvailable debug n = .ok true) :
    (∃ r, h.alloc debug n fill = .ok r) ↔
      (h.heapTop + n.toNat) % 2 ^ 64 ≠ h.stackTop ∧
      (fill = .nil → h.heapTop + n.toNat < 2 ^ 64) := by
  obtain ⟨⟨hapart, hstack⟩, hlength, hcapacity⟩ := hwf
  obtain ⟨top, hadd, hle⟩ := except_bind_eq_ok_iff.mp havailable
  have hle : top ≤ h.stackTop := of_decide_eq_true (Except.ok.inj hle)
  have htop := wordAdd_ok hadd
  constructor
  · rintro ⟨⟨pos, h'⟩, halloc⟩
    obtain ⟨top', hadd', halloc⟩ := except_bind_eq_ok_iff.mp halloc
    cases hadd.symm.trans hadd'
    split at halloc
    · cases halloc
    · obtain ⟨data, hfill, -⟩ := except_bind_eq_ok_iff.mp halloc
      refine ⟨by omega, ?_⟩
      rintro rfl
      rw [fillWords] at hfill
      split at hfill
      · omega
      · cases hfill
  · rintro ⟨hne, hnil⟩
    have hfill : ∃ data, h.fillWords h.heapTop n.toNat fill = .ok data := by
      cases fill with
      | uninitialized => exact ⟨_, rfl⟩
      | nil =>
          have := hnil rfl
          rw [fillWords, if_pos (by omega)]
          exact ⟨_, rfl⟩
    obtain ⟨data, hfill⟩ := hfill
    refine ⟨(h.heapTop, { h with data := data, heapTop := top }),
      except_bind_eq_ok_iff.mpr ⟨top, hadd, ?_⟩⟩
    rw [if_neg (by omega)]
    exact except_bind_eq_ok_iff.mpr ⟨data, hfill, rfl⟩

/-- A Y register that the stack has lies in it, or one word behind. -/
theorem yPos_eq (hwf : h.WellFormed) (hhave : h.stackHaveY debug y = .ok true) :
    ∃ pos, h.yPos debug y = .ok pos ∧ pos = (y.toNat + h.stackTop + 1) % 2 ^ 64 ∧
      h.stackTop ≤ pos ∧ pos ≤ h.capacity := by
  obtain ⟨⟨hapart, hstack⟩, hlength, hcapacity⟩ := hwf
  obtain ⟨depth, hsub, hhave⟩ := except_bind_eq_ok_iff.mp hhave
  obtain ⟨next, hadd, hhave⟩ := except_bind_eq_ok_iff.mp hhave
  have hle : next ≤ depth := of_decide_eq_true (Except.ok.inj hhave)
  have hdepth := wordSub_ok hsub
  have hnext := wordAdd_ok hadd
  have hy := y.toNat_lt
  by_cases hlast : y.toNat + 1 < 2 ^ 64
  · refine ⟨y.toNat + h.stackTop + 1, ?_, by omega, by omega, by omega⟩
    rw [yPos, wordAdd_eq (by omega)]
    exact wordAdd_eq (by omega)
  -- a release build takes the greatest word for the one before the first
  · refine ⟨h.stackTop, ?_, by omega, by omega, by omega⟩
    cases debug with
    | true =>
        rw [wordAdd, if_pos ⟨rfl, by omega⟩] at hadd
        cases hadd
    | false =>
        refine except_bind_eq_ok_iff.mpr ⟨_, if_neg nofun, ?_⟩
        refine (if_neg nofun).trans (congrArg Except.ok ?_)
        omega

theorem getY_of_have {pos : Nat} (hhave : h.stackHaveY debug y = .ok true)
    (hpos : h.yPos debug y = .ok pos) :
    h.getY debug y = match h.data[pos]? with
      | none => .error (.panic .indexOutOfBounds)
      | some word => if debug && word.isNonValue then .error (.panic .assertion) else .ok word := by
  simp only [getY, hhave, hpos, bind, Except.bind, if_true]
  cases h.data[pos]? with
  | none => rfl
  | some word => cases debug && word.isNonValue <;> rfl

theorem setY_of_have {pos : Nat} {val : StackWord} (hhave : h.stackHaveY debug y = .ok true)
    (hpos : h.yPos debug y = .ok pos) (hin : pos < h.data.length) :
    h.setY debug y val = if debug && val.isNonValue then .error (.panic .assertion)
      else .ok { h with data := h.data.set pos val } := by
  simp only [setY, hhave, hpos, bind, Except.bind, if_true, if_pos hin]
  cases debug && val.isNonValue <;> rfl

theorem yInStack_iff (hwf : h.WellFormed) (hhave : h.stackHaveY debug y = .ok true) :
    h.YInStack debug y ↔ (y.toNat + h.stackTop + 1) % 2 ^ 64 ≠ h.capacity := by
  obtain ⟨pos, hpos, hsum, htop, hle⟩ := yPos_eq hwf hhave
  rw [← hsum]
  constructor
  · rintro ⟨_, word, -, -, -, -, hget, -⟩ hlast
    rw [getY_of_have hhave hpos, List.getElem?_eq_none (by rw [hwf.data_length, hlast])] at hget
    revert hget
    cases debug && word.isNonValue <;> nofun
  · intro hne
    have hin : pos < h.data.length := by
      rw [hwf.data_length]
      omega
    have hword := List.getElem?_eq_getElem hin
    refine ⟨pos, h.data[pos], hwf.apart.1.trans htop, htop, by omega, hword, ?_, fun val => ?_⟩
    · rw [getY_of_have hhave hpos, hword]
    · exact setY_of_have hhave hpos hin

end Steps

theorem wellFormed_new {data : List StackWord} {h : IncrementalHeap}
    (hnew : new data = .ok h) : h.WellFormed := by
  unfold new at hnew
  split at hnew
  · cases hnew
  next hfits =>
    cases hnew
    exact ⟨⟨Nat.zero_le _, Nat.le_refl _⟩, rfl, Nat.lt_of_not_le fun hle => hfits (.inr hle)⟩

theorem WellFormed.step {debug : Bool} {h h' : IncrementalHeap} {op : HeapOp}
    (hwf : h.WellFormed) (hguard : h.KeepsApart op) (hstep : h.step debug op = .ok h') :
    h'.WellFormed := by
  obtain ⟨⟨hlength, hcapacity⟩, htop, hiff⟩ := step_ok hwf hstep
  refine ⟨⟨hiff.mpr hguard, by rw [hcapacity]; exact htop⟩, ?_, ?_⟩
  · rw [hlength, hcapacity, hwf.data_length]
  · rw [hcapacity]
    exact hwf.capacity_lt

/-- Heap and stack stay apart in a run exactly where each step leaves the stack's top off the
heap.  In the states of such a run an allocation that the check lets through succeeds unless it
takes all the words that are left, or is to clear more than a machine word counts, and a
register that the stack has lies in it unless it is the last one. -/
theorem apart_iff (debug : Bool) (data : List StackWord) (start : IncrementalHeap)
    (hnew : new data = .ok start) (ops : List HeapOp) :
    (ThroughoutOk (step debug) Apart start ops ↔ GuardedOk (step debug) KeepsApart start ops) ∧
    (GuardedOk (step debug) KeepsApart start ops →
      ∀ pre, pre <+: ops → ∀ h, pre.foldlM (step debug) start = .ok h →
        (∀ n fill, h.heapCheckAvailable debug n = .ok true →
          ((∃ r, h.alloc debug n fill = .ok r) ↔
            (h.heapTop + n.toNat) % 2 ^ 64 ≠ h.stackTop ∧
            (fill = .nil → h.heapTop + n.toNat < 2 ^ 64))) ∧
        (∀ y, h.stackHaveY debug y = .ok true →
          (h.YInStack debug y ↔ (y.toNat + h.stackTop + 1) % 2 ^ 64 ≠ h.capacity))) := by
  have hkeeps : ∀ h op h', WellFormed h → h.KeepsApart op → h.step debug op = .ok h' →
      h'.WellFormed := fun h op h' hwf hguard hstep => hwf.step hguard hstep
  constructor
  · refine throughoutOk_iff_guardedOk KeepsApart Apart (wellFormed_new hnew) hkeeps
      (fun h hwf => hwf.apart) ?_ ops
    intro h op h' hwf hguard hstep hapart
    exact hguard ((step_ok hwf hstep).2.2.mp hapart.1)
  · intro hguarded pre hpre h hrun
    have hwf := invariant_of_guardedOk WellFormed (wellFormed_new hnew) hkeeps
      (hguarded.shorten hpre) hrun
    constructor
    · intro n fill havailable
      exact alloc_succeeds_iff hwf havailable
    · intro y hhave
      exact yInStack_iff hwf hhave

/-- Four words, to be pushed on, and cleared. -/
theorem apart_iff_four : ∃ start, new (List.replicate 4 .nonValue) = .ok start ∧
    (ThroughoutOk (step true) Apart start [.alloc 2 .nil, .push .nonValue] ↔
      GuardedOk (step true) KeepsApart start [.alloc 2 .nil, .push .nonValue]) :=
  ⟨_, rfl, (apart_iff true (List.replicate 4 .nonValue) _ rfl _).1⟩

/-- The heap takes two of four words, and a frame three: its return address lies in the heap.
All the words are let through and refused, and the one register of a frame is behind the end. -/
theorem not_apart :
    (¬∀ ops start, new (List.replicate 4 .nonValue) = .ok start →
      ThroughoutOk (step true) Apart start ops) ∧
    (¬∀ n start, new (List.replicate 4 .nonValue) = .ok start →
      start.heapCheckAvailable true n = .ok true →
      ∃ r, start.alloc true n .uninitialized = .ok r) ∧
    (¬∀ y start h, new (List.replicate 4 .nonValue) = .ok start →
      [.push (.cp 0)].foldlM (step true) start = .ok h →
      h.stackHaveY true y = .ok true → h.YInStack true y) := by
  refine ⟨fun hall => ?_, fun hall => ?_, fun hall => ?_⟩
  · have hapart := hall [.alloc 2 .nil, .allocateFrame 0 2 0 .nil] _ rfl _ List.prefix_rfl _ rfl
    exact absurd hapart.1 (by decide)
  · obtain ⟨_, halloc⟩ := hall 4 _ rfl rfl
    change Except.error (CatchStop.panic .heapIsFull) = _ at halloc
    cases halloc
  · obtain ⟨_, _, _, _, _, _, _, hset⟩ := hall 0 _ _ rfl rfl rfl
    have hcp := hset (.cp 0)
    change Except.error (CatchStop.panic .indexOutOfBounds) = Except.ok _ at hcp
    cases hcp

end IncrementalHeap

end Zeptobeam
