/-
Operands in the compact term format.  Which bytes are operands, and that the decoder reads
them back as the terms that they stand for, when the heap has room for their objects.
-/
import Zeptobeam.CompactIntegers
import Zeptobeam.EtfDecode

namespace Zeptobeam

open Loading BinaryReader

namespace CompactTerm

/-- What the decoder makes of two to seven bytes. -/
def longValue (bytes : List UInt8) : Int :=
  smallBits (if 128 ≤ (bytes.headD 0).toNat then -(bigEndian bytes : Int) else bigEndian bytes)

/-- A number under a tag: its first byte and the bytes behind it. -/
inductive Number (tag : Nat) : Int → UInt8 → List UInt8 → Prop where
  | four {b : UInt8} (htag : b.toNat % 8 = tag) (hbit : b.toNat / 8 % 2 = 0) :
      Number tag (b.toNat / 16 : Nat) b []
  | eleven {b low : UInt8} (htag : b.toNat % 8 = tag) (hbits : b.toNat / 8 % 4 = 1) :
      Number tag (b.toNat / 32 * 256 + low.toNat : Nat) b [low]
  | long {b : UInt8} {bytes : List UInt8} (htag : b.toNat % 8 = tag)
      (hbits : b.toNat / 8 % 4 = 3) (hlength : bytes.length = b.toNat / 32 + 2)
      (hshort : bytes.length < 8) : Number tag (longValue bytes) b bytes

/-- The tags that are followed by an index. -/
inductive IndexTag where
  | atom
  | xReg
  | yReg
  | label
deriving DecidableEq, Repr

def IndexTag.bits : IndexTag → Nat
  | atom => 2
  | xReg => 3
  | yReg => 4
  | label => 5

def IndexTag.make : IndexTag → Nat → LtTerm
  | atom => makeAtom
  | xReg => .registerX
  | yReg => .registerY
  | label => .loadtimeLabel

/-- The types and amounts of an allocation list: how many, and the amounts in all. -/
inductive Amounts : List UInt8 → Nat → Nat → Prop where
  | nil : Amounts [] 0 0
  | cons {b b' : UInt8} {more more' bytes : List UInt8} {allocType : Int}
      {amount count total : Nat} (htype : Number 0 allocType b more)
      (hamount : Number 0 amount b' more') (hothers : Amounts bytes count total) :
      Amounts (b :: more ++ (b' :: more' ++ bytes)) (count + 1) (amount + total)

/-- Operands one after the other: their bytes, the terms, and the words of the objects that
are built, apart from their headers, in the order in which these are allotted. -/
inductive Operands (mode : ListParseMode) : List UInt8 → List LtTerm → List Nat → Prop where
  | nil : Operands mode [] [] []
  | small {tag : Nat} {n : Int} {b : UInt8} {more bytes : List UInt8} {terms : List LtTerm}
      {objects : List Nat} (htag : tag = 0 ∨ tag = 1 ∨ tag = 6) (h : Number tag n b more)
      (hothers : Operands mode bytes terms objects) :
      Operands mode (b :: more ++ bytes) (.small n :: terms) objects
  | index {index : Nat} {b : UInt8} {more bytes : List UInt8} {terms : List LtTerm}
      {objects : List Nat} (kind : IndexTag) (h : Number kind.bits index b more)
      (hothers : Operands mode bytes terms objects) :
      Operands mode (b :: more ++ bytes) (kind.make index :: terms) objects
  | registerFloat {tag index : Nat} {b : UInt8} {more bytes : List UInt8}
      {terms : List LtTerm} {objects : List Nat} (h : Number tag index b more)
      (hothers : Operands mode bytes terms objects) :
      Operands mode (0x27 :: b :: more ++ bytes) (.registerFloat index :: terms) objects
  | literal {tag index : Nat} {b : UInt8} {more bytes : List UInt8} {terms : List LtTerm}
      {objects : List Nat} (h : Number tag index b more)
      (hothers : Operands mode bytes terms objects) :
      Operands mode (0x47 :: b :: more ++ bytes) (.loadtimeLiteral index :: terms) objects
  | allocList {count total : Nat} {b : UInt8} {more amounts bytes : List UInt8}
      {terms : List LtTerm} {objects : List Nat} (hcount : Number 0 count b more)
      (hamounts : Amounts amounts count total) (htotal : total < 2 ^ 60)
      (hothers : Operands mode bytes terms objects) :
      Operands mode (0x37 :: (b :: more ++ amounts) ++ bytes) (.small total :: terms) objects
  | typedRegister {register typeIndex : LtTerm} {operands bytes : List UInt8}
      {terms : List LtTerm} {objects objects' : List Nat}
      (h : Operands mode operands [register, typeIndex] objects)
      (hothers : Operands mode bytes terms objects') :
      Operands mode (0x57 :: operands ++ bytes) (register :: terms) (objects ++ objects')
  | emptyTuple {b : UInt8} {more bytes : List UInt8} {terms : List LtTerm}
      {objects : List Nat} (hmode : mode = .asTuple2Initializer) (h : Number 0 0 b more)
      (hothers : Operands mode bytes terms objects) :
      Operands mode (0x17 :: b :: more ++ bytes) (.nil :: terms) objects
  | tuple {b : UInt8} {more elementBytes bytes : List UInt8} {elements terms : List LtTerm}
      {objects objects' : List Nat} (hmode : mode = .asTuple2Initializer)
      (hne : elements ≠ []) (h : Number 0 elements.length b more)
      (helements : Operands mode elementBytes elements objects)
      (hothers : Operands mode bytes terms objects') :
      Operands mode (0x17 :: (b :: more ++ elementBytes) ++ bytes) (.tuple elements :: terms)
        (elements.length :: objects ++ objects')
  | jumpTable {b : UInt8} {more pairBytes bytes : List UInt8}
      {pairs : List (LtTerm × LtTerm)} {terms : List LtTerm} {objects objects' : List Nat}
      (hmode : mode = .asJumpTable) (h : Number 0 (2 * pairs.length : Nat) b more)
      (hpairs : Operands mode pairBytes (pairs.flatMap fun pair => [pair.1, pair.2]) objects)
      (hothers : Operands mode bytes terms objects') :
      Operands mode (0x17 :: (b :: more ++ pairBytes) ++ bytes) (.jumpTable pairs :: terms)
        (2 * pairs.length :: objects ++ objects')

end CompactTerm

namespace Heap

/-- The heap after objects were allotted one after the other. -/
def allottedAll (objects : List Nat) (heap : Heap) : Heap :=
  objects.foldl (fun heap words => heap.allotted (heap.boxHeader + words)) heap

/-- The words of objects with their headers. -/
def objectWords (objects : List Nat) (heap : Heap) : Nat :=
  (objects.map (heap.boxHeader + ·)).sum

/-- There is room for the objects. -/
def HasRoom (objects : List Nat) (heap : Heap) : Prop :=
  heap.heapTop + heap.objectWords objects < heap.stackTop

theorem allottedAll_append (objects objects' : List Nat) (heap : Heap) :
    heap.allottedAll (objects ++ objects') = (heap.allottedAll objects).allottedAll objects' :=
  List.foldl_append

theorem allottedAll_fields (objects : List Nat) (heap : Heap) :
    (heap.allottedAll objects).boxHeader = heap.boxHeader ∧
      (heap.allottedAll objects).stackTop = heap.stackTop ∧
      (heap.allottedAll objects).heapTop = heap.heapTop + heap.objectWords objects := by
  induction objects generalizing heap with
  | nil => exact ⟨rfl, rfl, rfl⟩
  | cons words objects ih =>
      obtain ⟨hbox, hstack, hheap⟩ := ih (heap.allotted (heap.boxHeader + words))
      refine ⟨hbox, hstack, ?_⟩
      rw [allottedAll, List.foldl_cons, ← allottedAll, hheap, objectWords, objectWords,
        List.map_cons, List.sum_cons, ← Nat.add_assoc]
      rfl

theorem objectWords_append (objects objects' : List Nat) (heap : Heap) :
    heap.objectWords (objects ++ objects') =
      heap.objectWords objects + heap.objectWords objects' := by
  rw [objectWords, List.map_append, List.sum_append]
  rfl

theorem HasRoom.append {objects objects' : List Nat} {heap : Heap}
    (h : heap.HasRoom (objects ++ objects')) :
    heap.HasRoom objects ∧ (heap.allottedAll objects).HasRoom objects' := by
  obtain ⟨hbox, hstack, hheap⟩ := heap.allottedAll_fields objects
  rw [HasRoom, objectWords_append] at h
  refine ⟨?_, ?_⟩
  · rw [HasRoom]
    omega
  · rw [HasRoom, objectWords, hbox, hstack, hheap, ← objectWords]
    omega

end Heap

namespace CompactTerm

section Numbers

variable {tag : Nat} {n : Int} {b : UInt8} {more rest : List UInt8} {heap : Heap}

theorem Number.tag_eq (h : Number tag n b more) : b.toNat % 8 = tag := by
  cases h with
  | four htag _ => exact htag
  | eleven htag _ => exact htag
  | long htag _ _ _ => exact htag

theorem ends_readWord (h : Number tag n b more) :
    Loading.Ends (fun fuel => readWord fuel b) heap more rest (.returns (.small n) heap) := by
  refine Loading.Ends.succ ⟨0, fun fuel _ s hheap hreads => ?_⟩
  subst hheap
  change readWord (fuel + 1) b s = .ok (.small n, s.advance more.length)
  unfold readWord
  cases h with
  | four htag hbit =>
      rw [if_pos hbit]
      rfl
  | eleven htag hbits =>
      rw [if_neg (by omega), if_pos (by omega),
        StateExcept.bind_eq_of_ok (reading_readU8 hreads)]
      rfl
  | long htag hbits hlength hshort =>
      rw [if_neg (by omega), if_neg (by omega), if_neg (by omega), ← hlength,
        CompactInteger.readLong_of_reads hreads hshort]
      unfold bytesToSmall longValue
      simp

theorem ends_readU8 (b : UInt8) :
    Loading.Ends (fun _ => reading readU8) heap [b] rest (.returns b heap) :=
  (builds_readU8 b).returns trivial

theorem ends_readU8_bind {α : Type} {f : Nat → UInt8 → Loading α}
    {outcome : Loading.Outcome α}
    (h : Loading.Ends (fun fuel => f fuel b) heap more rest outcome) :
    Loading.Ends (fun fuel => reading readU8 >>= f fuel) heap (b :: more) rest outcome := by
  have hbind : Loading.Ends (fun fuel => reading readU8 >>= f fuel) heap ([b] ++ more) rest
      outcome := Loading.Ends.bind (ends_readU8 b) h
  exact hbind

theorem ends_pure {α : Type} (a : α) :
    Loading.Ends (fun _ => (pure a : Loading α)) heap [] rest (.returns a heap) :=
  (Builds.pure a heap rest).returns trivial

/-- A second decoder that reads nothing. -/
theorem ends_then {α β : Type} {x : Nat → Loading α} {f : Nat → α → Loading β}
    {bytes : List UInt8} {a : α} {heap' : Heap} {outcome : Loading.Outcome β}
    (hx : Loading.Ends x heap bytes rest (.returns a heap'))
    (hf : Loading.Ends (fun fuel => f fuel a) heap' [] rest outcome) :
    Loading.Ends (fun fuel => x fuel >>= f fuel) heap bytes rest outcome := by
  have hbind : Loading.Ends (fun fuel => x fuel >>= f fuel) heap (bytes ++ []) rest outcome :=
    hx.bind hf
  rwa [List.append_nil] at hbind

/-- Something is made of what a decoder returns. -/
theorem ends_making {α β : Type} {x : Nat → Loading α} {bytes : List UInt8} {a : α}
    {heap' : Heap} (hx : Loading.Ends x heap bytes rest (.returns a heap')) (g : α → β) :
    Loading.Ends (fun fuel => x fuel >>= fun a => pure (g a)) heap bytes rest
      (.returns (g a) heap') :=
  ends_then hx (ends_pure (g a))

theorem ends_readInt (h : Number 0 n b more) :
    Loading.Ends readInt heap (b :: more) rest (.returns n heap) := by
  unfold readInt
  refine ends_readU8_bind ?_
  have htag : ¬ b.toNat % 8 ≠ 0 := not_not.mpr h.tag_eq
  simp only [if_neg htag]
  exact ends_then (ends_readWord h) (ends_pure n)

theorem getSmallUnsigned_natCast (index : Nat) :
    getSmallUnsigned (index : Int) = pure index := by
  rw [getSmallUnsigned, if_neg (Int.not_lt.mpr (Int.natCast_nonneg index)), Int.toNat_natCast]

theorem ends_readIndex {index : Nat} (h : Number tag index b more) (make : Nat → LtTerm)
    (text : String) :
    Loading.Ends (fun fuel => readIndex fuel make text) heap (b :: more) rest
      (.returns (make index) heap) := by
  unfold readIndex
  refine ends_readU8_bind (ends_then (ends_readWord h) ?_)
  simp only [getSmallUnsigned_natCast, pure_bind]
  exact ends_pure (make index)

/-- A number that fits is an index as it is. -/
theorem asUsize_natCast {index : Nat} (h : index < 2 ^ 64) : asUsize (index : Int) = index := by
  unfold asUsize
  omega

theorem longValue_lt (bytes : List UInt8) : longValue bytes < 2 ^ 60 := by
  unfold longValue smallBits
  have h := Int.bmod_lt (x := if 128 ≤ (bytes.headD 0).toNat then -(bigEndian bytes : Int)
    else bigEndian bytes) (m := 2 ^ 61) (by decide)
  omega

theorem Number.lt (h : Number tag n b more) : n < 2 ^ 60 := by
  cases h with
  | four _ _ =>
      have hb := b.toNat_lt
      omega
  | @eleven _ low _ _ =>
      have hb := b.toNat_lt
      have hlow := low.toNat_lt
      omega
  | long _ _ _ _ => exact longValue_lt more

theorem asUsize_number {index : Nat} (h : Number tag index b more) :
    asUsize (index : Int) = index := by
  have hlt := h.lt
  exact asUsize_natCast (by omega)

theorem ends_addAmounts {bytes : List UInt8} {count total : Nat} (h : Amounts bytes count total)
    {start : Nat} (hlt : start + total < 2 ^ 64) :
    Loading.Ends (fun fuel => addAmounts fuel count start) heap bytes rest
      (.returns (start + total) heap) := by
  induction h generalizing start rest with
  | nil => exact ends_pure start
  | cons htype hamount hothers ih =>
      rename_i amount count total
      unfold addAmounts
      refine Loading.Ends.bind (ends_readInt htype) (Loading.Ends.bind (ends_readInt hamount) ?_)
      have hfits : ¬ 2 ^ 64 ≤ start + amount := by omega
      have hnext : Loading.Ends (fun fuel => addAmounts fuel count (start + amount)) heap _ rest
          (.returns (start + amount + total) heap) := ih (by omega)
      simp only [asUsize_number hamount, if_neg hfits]
      rw [← Nat.add_assoc]
      exact hnext

end Numbers

section Terms

variable {mode : ListParseMode} {b : UInt8} {bytes more rest : List UInt8} {heap heap' : Heap}

theorem ends_read_small {tag : Nat} {n : Int} (htag : tag = 0 ∨ tag = 1 ∨ tag = 6)
    (h : Number tag n b more) :
    Loading.Ends (read mode) heap (b :: more) rest (.returns (.small n) heap) := by
  refine Loading.Ends.succ ?_
  unfold read
  refine ends_readU8_bind ?_
  have hlt : tag < 7 := by omega
  simp only [h.tag_eq, if_pos hlt]
  refine ends_then (ends_readWord h) ?_
  rcases htag with rfl | rfl | rfl
  · exact ends_pure _
  · exact ends_pure _
  · exact ends_pure _

theorem ends_read_index {index : Nat} (kind : IndexTag) (h : Number kind.bits index b more) :
    Loading.Ends (read mode) heap (b :: more) rest (.returns (kind.make index) heap) := by
  refine Loading.Ends.succ ?_
  unfold read
  refine ends_readU8_bind ?_
  have hlt : kind.bits < 7 := by cases kind <;> decide
  simp only [h.tag_eq, if_pos hlt]
  refine ends_then (ends_readWord h) ?_
  cases kind <;>
    simp only [IndexTag.bits, onSmall, getSmallUnsigned_natCast, pure_bind] <;>
    exact ends_pure _

theorem ends_read_extended {term : LtTerm} (hb : b.toNat % 8 = 7)
    (h : Loading.Ends (fun fuel => parseExtTag (read mode fuel) mode fuel b) heap more rest
      (.returns term heap')) :
    Loading.Ends (read mode) heap (b :: more) rest (.returns term heap') := by
  refine Loading.Ends.succ ?_
  unfold read
  refine ends_readU8_bind ?_
  simp only [hb, Nat.lt_irrefl, if_false, pure_bind]
  exact h

theorem ends_read_allocList {count total : Nat} {amounts : List UInt8}
    (hcount : Number 0 count b more) (hamounts : Amounts amounts count total)
    (htotal : total < 2 ^ 60) :
    Loading.Ends (read mode) heap (0x37 :: (b :: more ++ amounts)) rest
      (.returns (.small total) heap) := by
  refine ends_read_extended rfl ?_
  change Loading.Ends (fun fuel => parseExtAllocList fuel) heap _ rest _
  unfold parseExtAllocList
  refine Loading.Ends.bind (ends_readInt hcount) ?_
  have hfits : smallFits (total : Int) := by
    unfold smallFits
    omega
  have hsum : Loading.Ends (fun fuel => addAmounts fuel count 0) heap amounts rest
      (.returns (0 + total) heap) := ends_addAmounts hamounts (by omega)
  rw [Nat.zero_add] at hsum
  simp only [asUsize_number hcount]
  have hmade := ends_making hsum fun total => LtTerm.small (smallBits total)
  rwa [smallBits_of_fits hfits] at hmade

theorem ends_cons {x : Nat → Loading LtTerm} {n : Nat} {first : LtTerm} {others : List LtTerm}
    {firstBytes : List UInt8} {heap'' : Heap}
    (hfirst : Loading.Ends x heap firstBytes (bytes ++ rest) (.returns first heap'))
    (hothers : Loading.Ends (fun fuel => times n (x fuel)) heap' bytes rest
      (.returns others heap'')) :
    Loading.Ends (fun fuel => times (n + 1) (x fuel)) heap (firstBytes ++ bytes) rest
      (.returns (first :: others) heap'') := by
  unfold times
  exact hfirst.bind (ends_making hothers (List.cons first))

theorem parseExtTypedRegister_eq (x : Loading LtTerm) :
    parseExtTypedRegister x = times 2 x >>= fun terms => pure (terms.headD .nil) := by
  simp [parseExtTypedRegister, times]

theorem times_pair (x : Loading LtTerm) (n : Nat) :
    (times n do
      let value ← x
      let loc ← x
      return (value, loc)) = times (2 * n) x >>= fun terms => pure (pairUp terms) := by
  induction n with
  | zero => simp [times, pairUp]
  | succ n ih =>
      rw [show 2 * (n + 1) = 2 * n + 1 + 1 from rfl]
      simp only [times, ih]
      simp [pairUp]

theorem pairUp_flatMap {α : Type} (pairs : List (α × α)) :
    pairUp (pairs.flatMap fun pair => [pair.1, pair.2]) = pairs := by
  induction pairs with
  | nil => rfl
  | cons pair pairs ih =>
      rw [List.flatMap_cons]
      exact congrArg (pair :: ·) ih

theorem ends_alloc {α : Type} {x : Nat → Loading α} {outcome : Loading.Outcome α} {words : Nat}
    (hroom : heap.HasRoom [words])
    (hx : Loading.Ends x (heap.allotted (heap.boxHeader + words)) bytes rest outcome) :
    Loading.Ends (fun fuel => do
      Heap.alloc ((← get).heap.boxHeader + words)
      x fuel) heap bytes rest outcome := by
  have halloc : Loading.Ends (fun _ => Heap.alloc (heap.boxHeader + words)) heap []
      (bytes ++ rest) (.returns () (heap.allotted (heap.boxHeader + words))) :=
    (builds_alloc _).returns (by simpa [Heap.HasRoom, Heap.objectWords] using hroom)
  refine Loading.Ends.get_bind (halloc.bind (f := fun fuel _ => x fuel) hx) ?_
  intro fuel s hs
  rw [hs]

section Lists

variable {elementBytes : List UInt8} {objects : List Nat}

theorem ends_read_tuple {elements : List LtTerm} (hn : Number 0 elements.length b more)
    (hlength : elements.length ≠ 0) (hroom : heap.HasRoom (elements.length :: objects))
    (helements : ∀ {heap : Heap}, heap.HasRoom objects →
      Loading.Ends (fun fuel => times elements.length (read .asTuple2Initializer fuel)) heap
        elementBytes rest (.returns elements (heap.allottedAll objects))) :
    Loading.Ends (read .asTuple2Initializer) heap (0x17 :: (b :: more ++ elementBytes)) rest
      (.returns (.tuple elements) (heap.allottedAll (elements.length :: objects))) := by
  obtain ⟨hobject, hothers⟩ : heap.HasRoom [elements.length] ∧
    (heap.allottedAll [elements.length]).HasRoom objects := Heap.HasRoom.append hroom
  refine ends_read_extended rfl ?_
  change Loading.Ends (fun fuel => parseListAsTupleInitializer _ fuel) heap _ _ _
  unfold parseListAsTupleInitializer
  refine Loading.Ends.bind (ends_readInt hn) ?_
  simp only [asUsize_number hn, if_neg hlength]
  exact ends_alloc hobject (ends_making (helements hothers) LtTerm.tuple)

theorem ends_read_jumpTable {pairs : List (LtTerm × LtTerm)}
    (hn : Number 0 (2 * pairs.length : Nat) b more)
    (hroom : heap.HasRoom (2 * pairs.length :: objects))
    (hpairs : ∀ {heap : Heap}, heap.HasRoom objects →
      Loading.Ends (fun fuel => times (pairs.flatMap fun pair => [pair.1, pair.2]).length
        (read .asJumpTable fuel)) heap elementBytes rest
        (.returns (pairs.flatMap fun pair => [pair.1, pair.2]) (heap.allottedAll objects))) :
    Loading.Ends (read .asJumpTable) heap (0x17 :: (b :: more ++ elementBytes)) rest
      (.returns (.jumpTable pairs) (heap.allottedAll (2 * pairs.length :: objects))) := by
  obtain ⟨hobject, hothers⟩ : heap.HasRoom [2 * pairs.length] ∧
    (heap.allottedAll [2 * pairs.length]).HasRoom objects := Heap.HasRoom.append hroom
  refine ends_read_extended rfl ?_
  change Loading.Ends (fun fuel => parseListAsJumpTable _ fuel) heap _ _ _
  unfold parseListAsJumpTable
  refine Loading.Ends.bind (ends_readInt hn) ?_
  have hhalf : 2 * pairs.length / 2 = pairs.length := Nat.mul_div_cancel_left _ (by decide)
  have hlength : (pairs.flatMap fun pair => [pair.1, pair.2]).length = 2 * pairs.length := by
    simp [List.length_flatMap, Nat.mul_comm]
  have hread := ends_making (hpairs hothers) pairUp
  rw [pairUp_flatMap, hlength] at hread
  simp only [asUsize_number hn, hhalf, times_pair]
  exact ends_alloc hobject (ends_making hread LtTerm.jumpTable)

end Lists

/-- The decoder reads operands back, and allots their objects. -/
theorem ends_operands {terms : List LtTerm} {objects : List Nat}
    (h : Operands mode bytes terms objects) (hroom : heap.HasRoom objects) :
    Loading.Ends (fun fuel => times terms.length (read mode fuel)) heap bytes rest
      (.returns terms (heap.allottedAll objects)) := by
  induction h generalizing heap rest with
  | nil => exact ends_pure []
  | small htag hn _ ih => exact ends_cons (ends_read_small htag hn) (ih hroom)
  | index kind hn _ ih => exact ends_cons (ends_read_index kind hn) (ih hroom)
  | registerFloat hn _ ih =>
      exact ends_cons (ends_read_extended rfl (ends_readIndex hn _ _)) (ih hroom)
  | literal hn _ ih =>
      exact ends_cons (ends_read_extended rfl (ends_readIndex hn _ _)) (ih hroom)
  | allocList hcount hamounts htotal _ ih =>
      exact ends_cons (ends_read_allocList hcount hamounts htotal) (ih hroom)
  | typedRegister _ _ ihpair ih =>
      obtain ⟨hpair, hothers⟩ := hroom.append
      rw [Heap.allottedAll_append]
      refine ends_cons (ends_read_extended rfl ?_) (ih hothers)
      change Loading.Ends (fun fuel => parseExtTypedRegister (read mode fuel)) heap _ _ _
      simp only [parseExtTypedRegister_eq]
      exact ends_making (ihpair hpair) (·.headD .nil)
  | emptyTuple hmode hn _ ih =>
      subst hmode
      refine ends_cons (ends_read_extended rfl ?_) (ih hroom)
      change Loading.Ends (fun fuel => parseListAsTupleInitializer _ fuel) heap _ _ _
      unfold parseListAsTupleInitializer
      exact ends_then (ends_readInt hn) (ends_pure LtTerm.nil)
  | tuple hmode hne hn _ _ ihelements ih =>
      subst hmode
      obtain ⟨htuple, hothers⟩ := hroom.append
      rw [Heap.allottedAll_append]
      have hlength := (List.length_pos_iff.mpr hne).ne'
      exact ends_cons (ends_read_tuple hn hlength htuple fun hroom => ihelements hroom)
        (ih hothers)
  | jumpTable hmode hn _ _ ihpairs ih =>
      subst hmode
      obtain ⟨htable, hothers⟩ := hroom.append
      rw [Heap.allottedAll_append]
      exact ends_cons (ends_read_jumpTable hn htable fun hroom => ihpairs hroom) (ih hothers)

end Terms

end CompactTerm

end Zeptobeam
