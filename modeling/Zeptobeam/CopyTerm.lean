/-
Terms that are handed over to another process.  A message is copied to the receiver's heap:
immediate values, lists and tuples are, other boxed objects are not known to the copy, and
the tail of an improper list is taken over as it is.  Arguments of a new process are not
copied at all.
-/
import Zeptobeam.FileReader
import Zeptobeam.SelectiveReceive
import Zeptobeam.TermCompare

namespace Zeptobeam

namespace Emulator

/-- A process heap, in words; objects are allotted from the base up, the stack lies at the
other end. -/
structure ProcessHeap where
  base : Nat
  /-- The size of a box header. -/
  boxHeader : Nat
  heapTop : Nat
  stackTop : Nat
  capacity : Nat
  heapTop_le : heapTop ≤ stackTop
  stackTop_le : stackTop ≤ capacity

/-- The word is in the heap. -/
def ProcessHeap.Owns (heap : ProcessHeap) (addr : Nat) : Prop :=
  heap.base ≤ addr ∧ addr < heap.base + heap.capacity

/-- The heap that a term is copied to, and the words written meanwhile. -/
structure CopyState where
  heap : ProcessHeap
  written : List Nat

abbrev Copying := StateT CopyState (Except Panic)

namespace Copying

def alloc (nWords : Nat) : Copying Nat := fun s =>
  if h : s.heap.stackTop ≤ s.heap.heapTop + nWords then .error .heapIsFull
  else .ok (s.heap.base + s.heap.heapTop, { s with heap := { s.heap with
    heapTop := s.heap.heapTop + nWords
    heapTop_le := by omega } })

def write (addr nWords : Nat) : Copying Unit := fun s =>
  .ok ((), { s with written := s.written ++ List.range' addr nWords })

end Copying

open Copying StateExcept

/-- A list cell, filled with nil. -/
def makeCell : Copying Nat := do
  let cell ← alloc 2
  write cell 2
  return cell

/-- `Tuple::create_into`: the header is written, and the first element is. -/
def createTuple (arity : Nat) : Copying Nat := do
  let boxHeader := (← get).heap.boxHeader
  let p ← alloc (boxHeader + arity)
  write p (boxHeader + 1)
  return p

def setElement (p i : Nat) : Copying Unit := do
  write (p + (← get).heap.boxHeader + i) 1

mutual

/-- The copy of a list goes on along its tails as long as they are cells. -/
def copyTo : Term → Copying Term
  | .cons _ hd tl => do
      let copyOfEl ← copyTo hd
      let cell ← makeCell
      write cell 1
      let tail ← (if tl.isCons then copyTo tl else pure tl : Copying Term)
      write (cell + 1) 1
      return .cons cell copyOfEl tail
  | .tuple _ data0 rest => do
      let p ← createTuple (rest.length + 1)
      let first ← copyTo data0
      setElement p 0
      return .tuple p first (← copyElements p 1 rest)
  | .binary _ _ => throw (.unimplemented "copy")
  | .boxed _ _ => throw (.unimplemented "copy")
  | t => pure t

def copyElements (p : Nat) : Nat → List Term → Copying (List Term)
  | _, [] => pure []
  | i, element :: rest => do
      let copied ← copyTo element
      setElement p i
      return copied :: (← copyElements p (i + 1) rest)

end

/-! ## What the copy is to be -/

mutual

/-- A term without its addresses. -/
def unplaced : Term → Term
  | .cons _ hd tl => .cons 0 (unplaced hd) (unplaced tl)
  | .tuple _ data0 rest => .tuple 0 (unplaced data0) (unplacedAll rest)
  | .binary _ data => .binary 0 data
  | .boxed _ object => .boxed 0 object
  | t => t

def unplacedAll : List Term → List Term
  | [] => []
  | t :: ts => unplaced t :: unplacedAll ts

end

mutual

/-- What a term points to. -/
def pointers : Term → List Nat
  | .cons addr hd tl => addr :: (pointers hd ++ pointers tl)
  | .tuple addr data0 rest => addr :: (pointers data0 ++ pointersOfAll rest)
  | .binary addr _ => [addr]
  | .boxed addr _ => [addr]
  | _ => []

def pointersOfAll : List Term → List Nat
  | [] => []
  | t :: ts => pointers t ++ pointersOfAll ts

end

mutual

/-- No binary and no other boxed object is met but in the tails of improper lists. -/
def copyable : Term → Bool
  | .cons _ hd tl => copyable hd && (!tl.isCons || copyable tl)
  | .tuple _ data0 rest => copyable data0 && copyableAll rest
  | .binary _ _ => false
  | .boxed _ _ => false
  | _ => true

def copyableAll : List Term → Bool
  | [] => true
  | t :: ts => copyable t && copyableAll ts

end

mutual

/-- What the tails of improper lists point to. -/
def taken : Term → List Nat
  | .cons _ hd tl => taken hd ++ if tl.isCons then taken tl else pointers tl
  | .tuple _ data0 rest => taken data0 ++ takenOfAll rest
  | _ => []

def takenOfAll : List Term → List Nat
  | [] => []
  | t :: ts => taken t ++ takenOfAll ts

end

mutual

/-- The words of a copy. -/
def copySize (boxHeader : Nat) : Term → Nat
  | .cons _ hd tl =>
      copySize boxHeader hd + 2 + if tl.isCons then copySize boxHeader tl else 0
  | .tuple _ data0 rest =>
      boxHeader + (rest.length + 1) + copySize boxHeader data0 + copySizeOfAll boxHeader rest
  | _ => 0

def copySizeOfAll (boxHeader : Nat) : List Term → Nat
  | [] => 0
  | t :: ts => copySize boxHeader t + copySizeOfAll boxHeader ts

end

/-- Words were allotted, and written only from `low` on. -/
structure Moves (low : Nat) (s s' : CopyState) (size : Nat) : Prop where
  base : s'.heap.base = s.heap.base
  boxHeader : s'.heap.boxHeader = s.heap.boxHeader
  stackTop : s'.heap.stackTop = s.heap.stackTop
  capacity : s'.heap.capacity = s.heap.capacity
  heapTop : s'.heap.heapTop = s.heap.heapTop + size
  room : size = 0 ∨ s'.heap.heapTop < s'.heap.stackTop
  written : ∀ a ∈ s'.written, a ∈ s.written ∨
    (s.heap.base + low ≤ a ∧ a < s.heap.base + s'.heap.heapTop)

section Moves

variable {low m n : Nat} {s s' s'' : CopyState}

theorem Moves.refl (low : Nat) (s : CopyState) : Moves low s s 0 :=
  ⟨rfl, rfl, rfl, rfl, rfl, .inl rfl, fun _ h => .inl h⟩

theorem Moves.trans (h : Moves low s s' m) (h' : Moves low s' s'' n) :
    Moves low s s'' (m + n) where
  base := h'.base.trans h.base
  boxHeader := h'.boxHeader.trans h.boxHeader
  stackTop := h'.stackTop.trans h.stackTop
  capacity := h'.capacity.trans h.capacity
  heapTop := by rw [h'.heapTop, h.heapTop, Nat.add_assoc]
  room := by
    have hroom := h.room
    have hroom' := h'.room
    have htop := h'.heapTop
    have hstack := h'.stackTop
    omega
  written := by
    intro a ha
    have htop := h'.heapTop
    have hbase := h.base
    rcases h'.written a ha with ha | ha
    · rcases h.written a ha with ha | ha
      · exact .inl ha
      · exact .inr (by omega)
    · exact .inr (by omega)

theorem alloc_moves {addr : Nat} (low : Nat) (h : alloc n s = .ok (addr, s')) :
    addr = s.heap.base + s.heap.heapTop ∧ Moves low s s' n := by
  unfold alloc at h
  split at h
  · cases h
  next hroom =>
    cases h
    exact ⟨rfl, rfl, rfl, rfl, rfl, rfl, .inr (Nat.not_le.mp hroom), fun _ h => .inl h⟩

theorem write_moves {addr : Nat} (hlow : s.heap.base + low ≤ addr)
    (hhigh : addr + n ≤ s.heap.base + s.heap.heapTop) (h : write addr n s = .ok ((), s')) :
    Moves low s s' 0 := by
  obtain ⟨-, rfl⟩ := Prod.mk.inj (Except.ok.inj h)
  refine ⟨rfl, rfl, rfl, rfl, rfl, .inl rfl, fun a ha => ?_⟩
  rcases List.mem_append.mp ha with ha | ha
  · exact .inl ha
  · have hrange := List.mem_range'_1.mp ha
    exact .inr ⟨by omega, Nat.lt_of_lt_of_le hrange.2 hhigh⟩

theorem makeCell_moves {cell : Nat} (hlow : low ≤ s.heap.heapTop)
    (h : makeCell s = .ok (cell, s')) :
    cell = s.heap.base + s.heap.heapTop ∧ Moves low s s' 2 := by
  obtain ⟨addr, s₁, halloc, h⟩ := bind_eq_ok_iff.mp h
  obtain ⟨_, s₂, hwrite, h⟩ := bind_eq_ok_iff.mp h
  obtain ⟨rfl, hmoves⟩ := alloc_moves low halloc
  cases h
  have htop := hmoves.heapTop
  have hbase := hmoves.base
  exact ⟨rfl, hmoves.trans (write_moves (by omega) (by omega) hwrite)⟩

theorem createTuple_moves {p arity : Nat} (hlow : low ≤ s.heap.heapTop) (harity : 1 ≤ arity)
    (h : createTuple arity s = .ok (p, s')) :
    p = s.heap.base + s.heap.heapTop ∧ Moves low s s' (s.heap.boxHeader + arity) := by
  obtain ⟨_, s₀, hget, h⟩ := bind_eq_ok_iff.mp h
  cases hget
  obtain ⟨addr, s₁, halloc, h⟩ := bind_eq_ok_iff.mp h
  obtain ⟨_, s₂, hwrite, h⟩ := bind_eq_ok_iff.mp h
  obtain ⟨rfl, hmoves⟩ := alloc_moves low halloc
  cases h
  have htop := hmoves.heapTop
  have hbase := hmoves.base
  exact ⟨rfl, hmoves.trans (write_moves (by omega) (by omega) hwrite)⟩

theorem setElement_moves {p i : Nat} (hlow : s.heap.base + low ≤ p)
    (hhigh : p + s.heap.boxHeader + i < s.heap.base + s.heap.heapTop)
    (h : setElement p i s = .ok ((), s')) : Moves low s s' 0 := by
  obtain ⟨_, s₀, hget, h⟩ := bind_eq_ok_iff.mp h
  cases hget
  exact write_moves (by omega) (by omega) h

end Moves

/-- The copy of a term: the same term, which points to words that were allotted for it, and
to what the tails of improper lists point to. -/
structure Copied (low : Nat) (s s' : CopyState) (old new : Term) : Prop where
  copyable : copyable old = true
  moves : Moves low s s' (copySize s.heap.boxHeader old)
  same : unplaced new = unplaced old
  points : ∀ p ∈ pointers new, p ∈ taken old ∨
    (s.heap.base + low ≤ p ∧ p < s.heap.base + s'.heap.heapTop)
  takes : ∀ p ∈ taken old, p ∈ pointers new

/-- The same of the elements of a tuple. -/
structure CopiedAll (low : Nat) (s s' : CopyState) (old new : List Term) : Prop where
  copyable : copyableAll old = true
  moves : Moves low s s' (copySizeOfAll s.heap.boxHeader old)
  same : unplacedAll new = unplacedAll old
  points : ∀ p ∈ pointersOfAll new, p ∈ takenOfAll old ∨
    (s.heap.base + low ≤ p ∧ p < s.heap.base + s'.heap.heapTop)
  takes : ∀ p ∈ takenOfAll old, p ∈ pointersOfAll new

/-- Each part of a copy points to what it takes over, or to words of its own. -/
theorem points_append {new new' old old' : List Nat} {low high low' high' q : Nat}
    (h : ∀ p ∈ new, p ∈ old ∨ (low ≤ p ∧ p < high))
    (h' : ∀ p ∈ new', p ∈ old' ∨ (low' ≤ p ∧ p < high')) (hq : q ∈ new ++ new') :
    q ∈ old ++ old' ∨ (low ≤ q ∧ q < high) ∨ (low' ≤ q ∧ q < high') := by
  rcases List.mem_append.mp hq with hq | hq
  · exact (h q hq).imp (List.mem_append_left _) .inl
  · exact (h' q hq).imp (List.mem_append_right _) .inr

theorem takes_append {new new' old old' : List Nat} (h : old ⊆ new) (h' : old' ⊆ new') :
    old ++ old' ⊆ new ++ new' :=
  List.append_subset_of_subset_of_subset (List.subset_append_of_subset_left _ h)
    (List.subset_append_of_subset_right _ h')

theorem copied_immediate {t : Term} (low : Nat) (s : CopyState) (hcopy : copyable t = true)
    (hsize : copySize s.heap.boxHeader t = 0) (hpoints : pointers t = [])
    (htaken : taken t = []) : Copied low s s t t :=
  ⟨hcopy, by rw [hsize]; exact Moves.refl low s, rfl, by simp [hpoints], by simp [htaken]⟩

/-- The tail of a cell: copied if it is a cell, or taken over. -/
structure CopiedTail (low : Nat) (s s' : CopyState) (old new : Term) : Prop where
  copyable : (!old.isCons || copyable old) = true
  moves : Moves low s s' (if old.isCons then copySize s.heap.boxHeader old else 0)
  same : unplaced new = unplaced old
  points : ∀ p ∈ pointers new, p ∈ (if old.isCons then taken old else pointers old) ∨
    (s.heap.base + low ≤ p ∧ p < s.heap.base + s'.heap.heapTop)
  takes : ∀ p ∈ (if old.isCons then taken old else pointers old), p ∈ pointers new

theorem Copied.tail {low : Nat} {s s' : CopyState} {old new : Term}
    (h : Copied low s s' old new) (hcons : old.isCons = true) :
    CopiedTail low s s' old new := by
  refine ⟨by rw [h.copyable, Bool.or_true], ?_, h.same, ?_, ?_⟩
  all_goals rw [if_pos hcons]
  · exact h.moves
  · exact h.points
  · exact h.takes

theorem copiedTail_self {t : Term} (low : Nat) (s : CopyState) (hcons : ¬ t.isCons = true) :
    CopiedTail low s s t t := by
  refine ⟨by rw [Bool.eq_false_iff.mpr hcons]; rfl, ?_, rfl, ?_, ?_⟩
  all_goals rw [if_neg hcons]
  · exact Moves.refl low s
  · exact fun _ hp => .inl hp
  · exact fun _ hp => hp

mutual

theorem copyTo_copied (low : Nat) {s s' : CopyState} (hlow : low ≤ s.heap.heapTop) :
    ∀ {t new : Term}, copyTo t s = .ok (new, s') → Copied low s s' t new
  | .cons addr hd tl, new, h => by
      obtain ⟨copyOfEl, s₁, hhd, h⟩ := bind_eq_ok_iff.mp h
      obtain ⟨cell, s₂, hcell, h⟩ := bind_eq_ok_iff.mp h
      obtain ⟨_, s₃, hwrite, h⟩ := bind_eq_ok_iff.mp h
      obtain ⟨tail, s₄, htl, h⟩ := bind_eq_ok_iff.mp h
      obtain ⟨_, s₅, hwrite', h⟩ := bind_eq_ok_iff.mp h
      cases h
      have ihHd := copyTo_copied low hlow hhd
      have hmoves₁ := ihHd.moves
      have htop₁ := hmoves₁.heapTop
      obtain ⟨rfl, hmoves₂⟩ : _ ∧ Moves low _ _ 2 := makeCell_moves (by omega) hcell
      have htop₂ := hmoves₂.heapTop
      have hbase₁ := hmoves₁.base
      have hbase₂ := hmoves₂.base
      have hmoves₃ : Moves low _ _ 0 := write_moves (by omega) (by omega) hwrite
      have htop₃ := hmoves₃.heapTop
      have hbase₃ := hmoves₃.base
      have htail : CopiedTail low s₃ s₄ tl tail := by
        by_cases hcons : tl.isCons
        · rw [if_pos hcons] at htl
          exact (copyTo_copied low (by omega) htl).tail hcons
        · rw [if_neg hcons] at htl
          cases htl
          exact copiedTail_self low s₃ hcons
      have htop₄ := htail.moves.heapTop
      have hbase₄ := htail.moves.base
      have hmoves₅ : Moves low _ _ 0 := write_moves (by omega) (by omega) hwrite'
      have htop₅ := hmoves₅.heapTop
      refine ⟨?_, ?_, ?_, ?_, ?_⟩
      · rw [copyable, ihHd.copyable, htail.copyable, Bool.and_self]
      · have hmoves := (((hmoves₁.trans hmoves₂).trans hmoves₃).trans htail.moves).trans hmoves₅
        rwa [hmoves₃.boxHeader, hmoves₂.boxHeader, hmoves₁.boxHeader] at hmoves
      · rw [unplaced, unplaced, ihHd.same, htail.same]
      · intro q hq
        rw [pointers] at hq
        rw [taken]
        rcases List.mem_cons.mp hq with rfl | hq
        · exact .inr (by omega)
        · exact (points_append ihHd.points htail.points hq).imp_right fun _ => by omega
      · rw [taken, pointers]
        exact List.subset_cons_of_subset _ (takes_append ihHd.takes htail.takes)
  | .tuple addr data0 rest, new, h => by
      obtain ⟨p, s₁, hp, h⟩ := bind_eq_ok_iff.mp h
      obtain ⟨first, s₂, hfirst, h⟩ := bind_eq_ok_iff.mp h
      obtain ⟨_, s₃, hset, h⟩ := bind_eq_ok_iff.mp h
      obtain ⟨others, s₄, hothers, h⟩ := bind_eq_ok_iff.mp h
      cases h
      obtain ⟨rfl, hmoves₁⟩ : _ ∧ Moves low _ _ _ := createTuple_moves hlow (by omega) hp
      have htop₁ := hmoves₁.heapTop
      have hbase₁ := hmoves₁.base
      have hheader₁ := hmoves₁.boxHeader
      have ihFirst := copyTo_copied low (by omega) hfirst
      have hmoves₂ := ihFirst.moves
      have htop₂ := hmoves₂.heapTop
      have hbase₂ := hmoves₂.base
      have hheader₂ := hmoves₂.boxHeader
      have hmoves₃ : Moves low _ _ 0 := setElement_moves (by omega) (by omega) hset
      have htop₃ := hmoves₃.heapTop
      have hbase₃ := hmoves₃.base
      have hheader₃ := hmoves₃.boxHeader
      have ihOthers := copyElements_copied low (by omega) (by omega) (by omega) hothers
      have htop₄ := ihOthers.moves.heapTop
      refine ⟨?_, ?_, ?_, ?_, ?_⟩
      · rw [copyable, ihFirst.copyable, ihOthers.copyable, Bool.and_self]
      · have hmoves := ((hmoves₁.trans hmoves₂).trans hmoves₃).trans ihOthers.moves
        rwa [hheader₃, hheader₂, hheader₁] at hmoves
      · rw [unplaced, unplaced, ihFirst.same, ihOthers.same]
      · intro q hq
        rw [pointers] at hq
        rw [taken]
        rcases List.mem_cons.mp hq with rfl | hq
        · exact .inr (by omega)
        · exact (points_append ihFirst.points ihOthers.points hq).imp_right fun _ => by omega
      · rw [taken, pointers]
        exact List.subset_cons_of_subset _ (takes_append ihFirst.takes ihOthers.takes)
  | .binary _ _, _, h => by cases h
  | .boxed _ _, _, h => by cases h
  | .small _, _, h | .atom _, _, h | .localPid _, _, h | .emptyTuple, _, h | .nil, _, h
  | .emptyBinary, _, h | .emptyMap, _, h => by
      cases h
      exact copied_immediate low s rfl rfl rfl rfl

theorem copyElements_copied (low : Nat) {s s' : CopyState} (hlow : low ≤ s.heap.heapTop)
    {p : Nat} (hp : s.heap.base + low ≤ p) : ∀ {i : Nat} {ts new : List Term},
    p + s.heap.boxHeader + i + ts.length ≤ s.heap.base + s.heap.heapTop →
    copyElements p i ts s = .ok (new, s') → CopiedAll low s s' ts new
  | _, [], _, _, h => by
      cases h
      exact ⟨rfl, Moves.refl low s, rfl, by simp [pointersOfAll], by simp [takenOfAll]⟩
  | i, t :: ts, new, hinside, h => by
      obtain ⟨copied, s₁, ht, h⟩ := bind_eq_ok_iff.mp h
      obtain ⟨_, s₂, hset, h⟩ := bind_eq_ok_iff.mp h
      obtain ⟨others, s₃, hts, h⟩ := bind_eq_ok_iff.mp h
      cases h
      have iht := copyTo_copied low hlow ht
      have hmoves₁ := iht.moves
      have htop₁ := hmoves₁.heapTop
      have hbase₁ := hmoves₁.base
      have hheader₁ := hmoves₁.boxHeader
      rw [List.length_cons] at hinside
      have hmoves₂ : Moves low _ _ 0 := setElement_moves (by omega) (by omega) hset
      have htop₂ := hmoves₂.heapTop
      have hbase₂ := hmoves₂.base
      have hheader₂ := hmoves₂.boxHeader
      have ihts := copyElements_copied low (by omega) (by omega) (by omega) hts
      have htop₃ := ihts.moves.heapTop
      refine ⟨?_, ?_, ?_, ?_, ?_⟩
      · simp [copyableAll, iht.copyable, ihts.copyable]
      · have hmoves := (hmoves₁.trans hmoves₂).trans ihts.moves
        rwa [Nat.add_zero, hheader₂, hheader₁] at hmoves
      · rw [unplacedAll, unplacedAll, iht.same, ihts.same]
      · intro q hq
        rw [pointersOfAll] at hq
        rw [takenOfAll]
        exact (points_append iht.points ihts.points hq).imp_right fun _ => by omega
      · rw [takenOfAll, pointersOfAll]
        exact takes_append iht.takes ihts.takes

end

/-- There is room for so many words. -/
def Room (s : CopyState) (n : Nat) : Prop :=
  n = 0 ∨ s.heap.heapTop + n < s.heap.stackTop

theorem alloc_of_room {s : CopyState} {n : Nat} (hroom : s.heap.heapTop + n < s.heap.stackTop) :
    ∃ r, alloc n s = .ok r := by
  unfold alloc
  rw [dif_neg (Nat.not_le.mpr hroom)]
  exact ⟨_, rfl⟩

theorem write_eq (addr n : Nat) (s : CopyState) :
    write addr n s = .ok ((), { s with written := s.written ++ List.range' addr n }) := rfl

theorem get_eq (s : CopyState) : (get : Copying CopyState) s = .ok (s, s) := rfl

theorem setElement_eq (p i : Nat) (s : CopyState) :
    setElement p i s = .ok ((), { s with
      written := s.written ++ List.range' (p + s.heap.boxHeader + i) 1 }) := rfl

theorem makeCell_of_room {s : CopyState} (hroom : s.heap.heapTop + 2 < s.heap.stackTop) :
    ∃ r, makeCell s = .ok r := by
  obtain ⟨⟨cell, s₁⟩, halloc⟩ := alloc_of_room hroom
  exact returns_bind halloc ⟨_, rfl⟩

theorem createTuple_of_room {s : CopyState} {arity : Nat}
    (hroom : s.heap.heapTop + (s.heap.boxHeader + arity) < s.heap.stackTop) :
    ∃ r, createTuple arity s = .ok r := by
  obtain ⟨⟨p, s₁⟩, halloc⟩ := alloc_of_room hroom
  exact returns_bind (get_eq s) (returns_bind halloc ⟨_, rfl⟩)

mutual

theorem copyTo_of_room {s : CopyState} : ∀ {t : Term}, copyable t = true →
    Room s (copySize s.heap.boxHeader t) → ∃ r, copyTo t s = .ok r
  | .cons addr hd tl, hcopy, hroom => by
      rw [copyable, Bool.and_eq_true] at hcopy
      rw [Room, copySize] at hroom
      obtain ⟨⟨el, s₁⟩, hhd⟩ := copyTo_of_room (s := s) hcopy.1 (by unfold Room; omega)
      have hmoves₁ := (copyTo_copied s.heap.heapTop (Nat.le_refl _) hhd).moves
      have htop₁ := hmoves₁.heapTop
      have hstack₁ := hmoves₁.stackTop
      have hheader₁ := hmoves₁.boxHeader
      obtain ⟨⟨cell, s₂⟩, hcell⟩ := makeCell_of_room (s := s₁) (by omega)
      have hmoves₂ := (makeCell_moves (Nat.le_refl _) hcell).2
      have htop₂ := hmoves₂.heapTop
      have hstack₂ := hmoves₂.stackTop
      have hheader₂ := hmoves₂.boxHeader
      refine returns_bind hhd (returns_bind hcell (returns_bind (write_eq cell 1 s₂) ?_))
      by_cases hcons : tl.isCons
      · rw [if_pos hcons] at hroom
        have hcopyTl : copyable tl = true := by simpa [hcons] using hcopy.2
        obtain ⟨⟨tail, s₃⟩, htl⟩ := copyTo_of_room
          (s := { s₂ with written := s₂.written ++ List.range' cell 1 }) hcopyTl
          (by
            change copySize s₂.heap.boxHeader tl = 0 ∨
              s₂.heap.heapTop + copySize s₂.heap.boxHeader tl < s₂.heap.stackTop
            rw [hheader₂, hheader₁]
            omega)
        rw [if_pos hcons]
        exact returns_bind htl ⟨_, rfl⟩
      · rw [if_neg hcons]
        exact ⟨_, rfl⟩
  | .tuple addr data0 rest, hcopy, hroom => by
      rw [copyable, Bool.and_eq_true] at hcopy
      rw [Room, copySize] at hroom
      have htuple : s.heap.heapTop + (s.heap.boxHeader + (rest.length + 1)) < s.heap.stackTop := by
        omega
      obtain ⟨⟨p, s₁⟩, hp⟩ := createTuple_of_room htuple
      have hmoves₁ := (createTuple_moves (Nat.le_refl _) (by omega) hp).2
      have htop₁ := hmoves₁.heapTop
      have hstack₁ := hmoves₁.stackTop
      have hheader₁ := hmoves₁.boxHeader
      obtain ⟨⟨first, s₂⟩, hfirst⟩ := copyTo_of_room (s := s₁) hcopy.1
        (by rw [Room, hheader₁]; omega)
      have hmoves₂ := (copyTo_copied s₁.heap.heapTop (Nat.le_refl _) hfirst).moves
      have htop₂ := hmoves₂.heapTop
      have hstack₂ := hmoves₂.stackTop
      have hheader₂ := hmoves₂.boxHeader
      rw [hheader₁] at htop₂
      obtain ⟨⟨others, s₃⟩, hothers⟩ := copyElements_of_room (p := p) (i := 1)
        (s := { s₂ with
          written := s₂.written ++ List.range' (p + s₂.heap.boxHeader + 0) 1 }) hcopy.2
        (by
          change copySizeOfAll s₂.heap.boxHeader rest = 0 ∨
            s₂.heap.heapTop + copySizeOfAll s₂.heap.boxHeader rest < s₂.heap.stackTop
          rw [hheader₂, hheader₁]
          omega)
      exact returns_bind hp (returns_bind hfirst (returns_bind (setElement_eq p 0 s₂)
        (returns_bind hothers ⟨_, rfl⟩)))
  | .small _, _, _ | .atom _, _, _ | .localPid _, _, _ | .emptyTuple, _, _ | .nil, _, _
  | .emptyBinary, _, _ | .emptyMap, _, _ => ⟨_, rfl⟩

theorem copyElements_of_room {s : CopyState} {p : Nat} : ∀ {i : Nat} {ts : List Term},
    copyableAll ts = true → Room s (copySizeOfAll s.heap.boxHeader ts) →
    ∃ r, copyElements p i ts s = .ok r
  | _, [], _, _ => ⟨_, rfl⟩
  | i, t :: ts, hcopy, hroom => by
      rw [copyableAll, Bool.and_eq_true] at hcopy
      rw [Room, copySizeOfAll] at hroom
      obtain ⟨⟨copied, s₁⟩, ht⟩ := copyTo_of_room (s := s) hcopy.1 (by unfold Room; omega)
      have hmoves₁ := (copyTo_copied s.heap.heapTop (Nat.le_refl _) ht).moves
      have htop₁ := hmoves₁.heapTop
      have hstack₁ := hmoves₁.stackTop
      have hheader₁ := hmoves₁.boxHeader
      obtain ⟨⟨others, s₂⟩, hts⟩ := copyElements_of_room (p := p) (i := i + 1)
        (s := { s₁ with
          written := s₁.written ++ List.range' (p + s₁.heap.boxHeader + i) 1 }) hcopy.2
        (by
          change copySizeOfAll s₁.heap.boxHeader ts = 0 ∨
            s₁.heap.heapTop + copySizeOfAll s₁.heap.boxHeader ts < s₁.heap.stackTop
          rw [hheader₁]
          omega)
      exact returns_bind ht (returns_bind (setElement_eq p i s₁) (returns_bind hts ⟨_, rfl⟩))

end

/-! ## Hand-over -/

/-- The heaps of two processes. -/
structure TwoHeaps where
  sender : ProcessHeap
  receiver : ProcessHeap
  apart : ∀ addr, receiver.Owns addr → ¬ sender.Owns addr

/-- The message is copied, and put into the mailbox. -/
def deliverMessage (message : Term) (mailbox : ProcessMailbox Term) :
    Copying (ProcessMailbox Term) := do
  return mailbox.put (← copyTo message)

/-- `Args` of a function to apply. -/
inductive SpawnArgs where
  | list (lst : Term)
  | slice (args : List Term)

/-- The heads of the cells of a list. -/
def heads : Term → List Term
  | .cons _ hd tl => hd :: heads tl
  | _ => []

/-- The arguments that `for_each_arg` goes through, if it can. -/
def SpawnArgs.elements : SpawnArgs → Option (List Term)
  | .list .nil => some []
  | .list (.cons addr hd tl) => some (heads (.cons addr hd tl))
  | .list _ => none
  | .slice args => some args

def maxXRegs : Nat := 256

def setArgs : Nat → List Term → List (Option Term) → Except Panic (List (Option Term))
  | _, [], regs => .ok regs
  | xindex, arg :: args, regs =>
      if xindex < regs.length then setArgs (xindex + 1) args (regs.set xindex (some arg))
      else .error .indexOutOfBounds

/-- The registers of a new process. -/
def setSpawnArgs (args : SpawnArgs) : Except Panic (List (Option Term)) :=
  match args.elements with
  | none => .error .assertion
  | some elements => setArgs 0 elements (List.replicate maxXRegs none)

/-- The same term, without a pointer into the heap it comes from. -/
def HandedOver (sender : ProcessHeap) (old new : Term) : Prop :=
  unplaced new = unplaced old ∧ ∀ p ∈ pointers new, ¬ sender.Owns p

/-- The message is handed over to the mailbox, and no word in use was written. -/
def DeliveredWell (heaps : TwoHeaps) (message : Term) (mailbox : ProcessMailbox Term) : Prop :=
  ∃ m1 s', deliverMessage message mailbox ⟨heaps.receiver, []⟩ = .ok (mailbox.put m1, s') ∧
    HandedOver heaps.sender message m1 ∧
    ∀ a ∈ s'.written, heaps.receiver.Owns a ∧
      heaps.receiver.base + heaps.receiver.heapTop ≤ a

/-- Each argument is handed over to its register. -/
def SpawnedWell (sender : ProcessHeap) (args : SpawnArgs) : Prop :=
  ∃ elements regs, args.elements = some elements ∧ setSpawnArgs args = .ok regs ∧
    ∀ (i : Nat) (arg : Term), elements[i]? = some arg →
      ∃ new, regs[i]? = some (some new) ∧ HandedOver sender arg new

/-- The copy knows the objects of the message, the tails of improper lists do not point into
the sender's heap, and the receiver has room. -/
structure Deliverable (heaps : TwoHeaps) (message : Term) : Prop where
  copyable : copyable message = true
  tails : ∀ p ∈ taken message, ¬ heaps.sender.Owns p
  room : Room ⟨heaps.receiver, []⟩ (copySize heaps.receiver.boxHeader message)

/-- There is a register for each argument, and none of them points into the sender's heap. -/
def Spawnable (sender : ProcessHeap) (args : SpawnArgs) : Prop :=
  ∃ elements, args.elements = some elements ∧ elements.length ≤ maxXRegs ∧
    ∀ arg ∈ elements, ∀ p ∈ pointers arg, ¬ sender.Owns p

theorem delivered_iff (heaps : TwoHeaps) (message : Term) (mailbox : ProcessMailbox Term) :
    DeliveredWell heaps message mailbox ↔ Deliverable heaps message := by
  constructor
  · rintro ⟨m1, s', hdeliver, ⟨-, hpointers⟩, -⟩
    obtain ⟨copied, s₁, hcopy, hput⟩ := bind_eq_ok_iff.mp hdeliver
    have hcopied := copyTo_copied heaps.receiver.heapTop (Nat.le_refl _) hcopy
    obtain ⟨hmailbox, rfl⟩ := Prod.mk.inj (Except.ok.inj hput)
    have hlast := congrArg (fun m : ProcessMailbox Term => m.inbox.getLast?) hmailbox
    obtain rfl : copied = m1 := by simpa [ProcessMailbox.put] using hlast
    refine ⟨hcopied.copyable, fun p hp => hpointers p (hcopied.takes p hp), ?_⟩
    have hroom := hcopied.moves.room
    rw [hcopied.moves.heapTop, hcopied.moves.stackTop] at hroom
    exact hroom
  · rintro ⟨hcopyable, htails, hroom⟩
    obtain ⟨⟨m1, s'⟩, hcopy⟩ := copyTo_of_room (s := ⟨heaps.receiver, []⟩) hcopyable hroom
    have hcopied := copyTo_copied heaps.receiver.heapTop (Nat.le_refl _) hcopy
    have hstack := s'.heap.heapTop_le
    have hcapacity := s'.heap.stackTop_le
    have hsame := hcopied.moves.capacity
    simp only at hsame
    refine ⟨m1, s', ?_, ⟨hcopied.same, fun p hp => ?_⟩, fun a ha => ?_⟩
    · exact bind_eq_of_ok hcopy
    · rcases hcopied.points p hp with htaken | ⟨hlow, hhigh⟩
      · exact htails p htaken
      · exact heaps.apart p ⟨by simp only at hlow; omega, by simp only at hhigh; omega⟩
    · rcases hcopied.moves.written a ha with hnone | ⟨hlow, hhigh⟩
      · cases hnone
      · simp only at hlow hhigh
        exact ⟨⟨by omega, by omega⟩, hlow⟩

theorem setArgs_length {i : Nat} {args : List Term} {regs regs' : List (Option Term)}
    (h : setArgs i args regs = .ok regs') : args = [] ∨ i + args.length ≤ regs.length := by
  induction args generalizing i regs with
  | nil => exact .inl rfl
  | cons arg args ih =>
      rw [setArgs] at h
      split at h
      next hlt =>
        rw [List.length_cons]
        rcases ih h with rfl | hle
        · exact .inr (by simp only [List.length_nil]; omega)
        · rw [List.length_set] at hle
          exact .inr (by omega)
      next => cases h

/-- The registers before an argument's stay, and each argument is in its own. -/
theorem setArgs_spec (i : Nat) (args : List Term) (regs : List (Option Term))
    (hlength : i + args.length ≤ regs.length) :
    ∃ regs', setArgs i args regs = .ok regs' ∧ (∀ j, j < i → regs'[j]? = regs[j]?) ∧
      ∀ j arg, args[j]? = some arg → regs'[i + j]? = some (some arg) := by
  induction args generalizing i regs with
  | nil => exact ⟨regs, rfl, fun _ _ => rfl, fun _ _ h => by simp at h⟩
  | cons arg args ih =>
      rw [List.length_cons] at hlength
      obtain ⟨regs', hset, hbefore, hargs⟩ := ih (i + 1) (regs.set i (some arg))
        (by rw [List.length_set]; omega)
      refine ⟨regs', by rw [setArgs, if_pos (by omega), hset], fun j hj => ?_, ?_⟩
      · rw [hbefore j (by omega), List.getElem?_set_ne (by omega)]
      · intro j other hj
        cases j with
        | zero =>
            obtain rfl : arg = other := by simpa using hj
            rw [Nat.add_zero, hbefore i (by omega), List.getElem?_set_self (by omega)]
        | succ j =>
            have hrest := hargs j other (by simpa using hj)
            rwa [Nat.add_assoc, Nat.add_comm 1 j] at hrest

theorem spawned_iff (sender : ProcessHeap) (args : SpawnArgs) :
    SpawnedWell sender args ↔ Spawnable sender args := by
  have hregs : (List.replicate maxXRegs (none : Option Term)).length = maxXRegs :=
    List.length_replicate
  constructor
  · rintro ⟨elements, regs, helements, hset, hwell⟩
    rw [setSpawnArgs, helements] at hset
    have hlength : elements.length ≤ maxXRegs := by
      rcases setArgs_length hset with rfl | hle
      · exact Nat.zero_le _
      · rw [hregs] at hle
        omega
    obtain ⟨regs', hset', -, hargs⟩ := setArgs_spec 0 elements
      (List.replicate maxXRegs none) (by rw [hregs]; omega)
    obtain rfl : regs' = regs := Except.ok.inj (hset'.symm.trans hset)
    refine ⟨elements, helements, hlength, fun arg harg => ?_⟩
    obtain ⟨i, hi⟩ := List.getElem?_of_mem harg
    obtain ⟨new, hnew, -, hpointers⟩ := hwell i arg hi
    have hreg := hargs i arg hi
    rw [Nat.zero_add, hnew] at hreg
    obtain rfl : new = arg := by simpa using hreg
    exact hpointers
  · rintro ⟨elements, helements, hlength, hpointers⟩
    obtain ⟨regs, hset, -, hargs⟩ := setArgs_spec 0 elements
      (List.replicate maxXRegs none) (by rw [hregs]; omega)
    refine ⟨elements, regs, helements, by rw [setSpawnArgs, helements]; exact hset, ?_⟩
    intro i arg hi
    have hreg := hargs i arg hi
    rw [Nat.zero_add] at hreg
    exact ⟨arg, hreg, rfl, hpointers arg (List.mem_of_getElem? hi)⟩

/-- Messages are handed over as they should be exactly when the copy knows their objects,
the tails of their improper lists do not point into the sender's heap and the receiver has
room, and arguments of a new process exactly when they do not point into that heap at all
and there are registers for them. -/
theorem hand_over_iff (heaps : TwoHeaps) (message : Term) (mailbox : ProcessMailbox Term)
    (args : SpawnArgs) :
    (DeliveredWell heaps message mailbox ↔ Deliverable heaps message) ∧
    (SpawnedWell heaps.sender args ↔ Spawnable heaps.sender args) :=
  ⟨delivered_iff heaps message mailbox, spawned_iff heaps.sender args⟩

/-- Two heaps of a thousand words. -/
def neighbours : TwoHeaps where
  sender := ⟨0, 2, 100, 900, 1000, by decide, by decide⟩
  receiver := ⟨1000, 2, 0, 900, 1000, by decide, by decide⟩
  apart := by
    intro addr hreceiver hsender
    simp only [ProcessHeap.Owns] at hreceiver hsender
    omega

/-- A bignum ends the process that sends it, the tail of an improper list stays in the
sender's heap, and so does an argument. -/
theorem pointers_left :
    (deliverMessage (.boxed 5 .bigInteger) ProcessMailbox.new ⟨neighbours.receiver, []⟩ =
      .error (.unimplemented "copy")) ∧
    (deliverMessage (.cons 10 (.small 1) (.tuple 20 (.small 2) [])) ProcessMailbox.new
        ⟨neighbours.receiver, []⟩).map (fun r => r.1.inbox) =
      .ok [some (.cons 1000 (.small 1) (.tuple 20 (.small 2) []))] ∧
    (setSpawnArgs (.slice [.tuple 20 (.small 2) []])).map (fun regs => regs[0]?) =
      .ok (some (some (.tuple 20 (.small 2) []))) ∧
    ¬ ∀ (heaps : TwoHeaps) (message : Term) (mailbox : ProcessMailbox Term) (args : SpawnArgs),
      DeliveredWell heaps message mailbox ∧ SpawnedWell heaps.sender args := by
  refine ⟨rfl, rfl, ?_, fun h => ?_⟩
  · obtain ⟨regs, hset, -, hargs⟩ := setArgs_spec 0
      [.tuple 20 (.small 2) []] (List.replicate maxXRegs none)
      (by rw [List.length_replicate]; decide)
    change (setArgs 0 _ (List.replicate maxXRegs none)).map _ = _
    rw [hset]
    exact congrArg Except.ok (hargs 0 _ rfl)
  obtain ⟨⟨m1, s', hdeliver, -⟩, -⟩ :=
    h neighbours (.boxed 5 .bigInteger) ProcessMailbox.new (.slice [])
  cases hdeliver

end Emulator

end Zeptobeam
