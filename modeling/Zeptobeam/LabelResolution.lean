/-
The loader resolves labels.  It measures a code chunk and reserves as much, writes the code,
and replaces the labels that were not known; what comes of a well-formed chunk is its code
with the addresses of its labels, when the literal heap has room for its lists.
-/
import Zeptobeam.CodeWriting

namespace Zeptobeam

open Loading BinaryReader CompactTerm

/-! ## The passes over the chunk -/

section Passes

variable {bytes rest : List UInt8} {heap heap' : Heap}

/-- A decoder that is given more fuel than another one. -/
theorem Loading.Ends.shift {α : Type} {x : Nat → Loading α} {outcome : Loading.Outcome α}
    (h : Loading.Ends x heap bytes rest outcome) (c : Nat) :
    Loading.Ends (fun fuel => x (fuel + c)) heap bytes rest outcome := by
  obtain ⟨least, h⟩ := h
  exact ⟨least, fun fuel hfuel => h (fuel + c) (by omega)⟩

namespace CodeLoading

theorem ends_atEnd_nil :
    Loading.Ends (fun _ => atEnd) heap [] [] (.returns true heap) := by
  refine ⟨0, fun fuel _ s hheap hreads => ?_⟩
  subst hheap
  have hend : s.reader.buf.length ≤ s.reader.pos := List.drop_eq_nil_iff.mp hreads.2
  change Except.ok (decide _, s) = _
  rw [decide_eq_true hend]
  rfl

theorem ends_atEnd_cons (b : UInt8) :
    Loading.Ends (fun _ => atEnd) heap [] (b :: rest) (.returns false heap) := by
  refine ⟨0, fun fuel _ s hheap hreads => ?_⟩
  subst hheap
  have hmore : ¬ s.reader.buf.length ≤ s.reader.pos := by
    intro hend
    have hnil := hreads.2
    rw [BinaryReader.rest, List.drop_eq_nil_of_le hend] at hnil
    cases hnil
  change Except.ok (decide _, s) = _
  rw [decide_eq_false hmore]
  rfl

theorem ends_ended {α : Type} {f : Nat → Bool → Loading α} {outcome : Loading.Outcome α}
    (h : Loading.Ends (fun fuel => f fuel true) heap [] [] outcome) :
    Loading.Ends (fun fuel => atEnd >>= f fuel) heap [] [] outcome := by
  have hbind : Loading.Ends (fun fuel => atEnd >>= f fuel) heap ([] ++ []) [] outcome :=
    Loading.Ends.bind ends_atEnd_nil h
  exact hbind

theorem ends_more {α : Type} {b : UInt8} {f : Nat → Bool → Loading α}
    {outcome : Loading.Outcome α}
    (h : Loading.Ends (fun fuel => f fuel false) heap (b :: bytes) rest outcome) :
    Loading.Ends (fun fuel => atEnd >>= f fuel) heap (b :: bytes) rest outcome := by
  have hbind : Loading.Ends (fun fuel => atEnd >>= f fuel) heap ([] ++ b :: bytes) rest
      outcome := Loading.Ends.bind (ends_atEnd_cons b) h
  exact hbind

theorem arityOf_eq {op : UInt8} {arity : Nat} (h : opcodeArity op = some arity) :
    arityOf op = pure arity := by
  rw [arityOf, h]

/-- The first pass measures the code. -/
theorem ends_sizePass {instrs : List CodeInstr} {objects : List Nat}
    (h : CodeChunk bytes instrs objects) (hroom : heap.HasRoom objects) (c size : Nat) :
    Loading.Ends (fun fuel => sizePass (fuel + c) fuel size) heap bytes []
      (.returns (size + measured instrs) (heap.allottedAll objects)) := by
  induction h generalizing heap c size with
  | nil =>
      refine Loading.Ends.succ ?_
      unfold sizePass
      exact ends_ended (ends_pure size)
  | @cons op operands bytes rest instrs objects objects' harity hoperands hothers ih =>
      obtain ⟨hfirst, hafter⟩ := hroom.append
      refine Loading.Ends.succ ?_
      unfold sizePass
      have hread : Loading.Ends (fun fuel => times operands.length
          (read (listMode op) (fuel + 1 + c))) heap bytes (rest ++ [])
          (.returns operands (heap.allottedAll objects)) := by
        simp only [Nat.add_assoc]
        exact (ends_operands hoperands hfirst).shift (1 + c)
      have hnext := ih hafter (c + 1) (size + (operands.length + 1))
      have hsum : size + (operands.length + 1) + measured instrs =
          size + measured (⟨op, operands⟩ :: instrs) := by
        rw [measured, measured, List.map_cons, List.sum_cons, Nat.add_assoc]
      rw [hsum, ← Heap.allottedAll_append] at hnext
      refine ends_more (ends_readU8_bind ?_)
      simp only [arityOf_eq harity, pure_bind]
      refine hread.bind ?_
      simp only [Nat.add_assoc, Nat.add_comm 1 c]
      exact hnext

/-- Something is made of each term that is read. -/
theorem times_orPanic {x : Loading LtTerm} {f : LtTerm → Except Panic LoadVal}
    {terms : List LtTerm} {vals : List LoadVal} {s s' : LoadState}
    (hread : times terms.length x s = .ok (terms, s'))
    (hvals : List.Forall₂ (fun t v => f t = .ok v) terms vals) :
    times terms.length (do
      let arg ← x
      orPanic (f arg)) s = .ok (vals, s') := by
  induction hvals generalizing s with
  | nil =>
      cases hread
      rfl
  | @cons t v terms vals hv hvals ih =>
      rw [List.length_cons] at hread ⊢
      unfold times at hread ⊢
      obtain ⟨first, s₁, hfirst, hread⟩ := StateExcept.bind_eq_ok_iff.mp hread
      obtain ⟨others, s₂, hothers, hread⟩ := StateExcept.bind_eq_ok_iff.mp hread
      cases hread
      have hstep : (do
          let arg ← x
          orPanic (f arg)) s = .ok (v, s₁) := by
        rw [StateExcept.bind_eq_of_ok hfirst, hv]
        rfl
      rw [StateExcept.bind_eq_of_ok hstep, StateExcept.bind_eq_of_ok (ih hothers)]
      rfl

/-- The operands of an instruction are read, and atoms and literals looked up. -/
theorem ends_readArgs {tables : LoadTables} {op : UInt8} {operands : List LtTerm}
    {vals : List LoadVal} {objects : List Nat}
    (hoperands : Operands (listMode op) bytes operands objects)
    (hvals : List.Forall₂ (fun t v => tables.resolveValue t = .ok v) operands vals)
    (hroom : heap.HasRoom objects) :
    Loading.Ends (fun fuel => readArgs tables fuel op operands.length) heap bytes rest
      (.returns vals (heap.allottedAll objects)) := by
  have hterms : Loading.Ends (fun fuel => times operands.length (read (listMode op) fuel)) heap
      bytes rest (.returns operands (heap.allottedAll objects)) := ends_operands hoperands hroom
  obtain ⟨least, hread⟩ := hterms
  exact ⟨least, fun fuel hfuel s hheap hreads =>
    times_orPanic (hread fuel hfuel s hheap hreads) hvals⟩

/-- The operands of an instruction of well-formed code have values. -/
theorem exists_vals {tables : LoadTables} {operands : List LtTerm}
    (h : ∀ t ∈ operands, ∃ v, tables.resolveValue t = .ok v) :
    ∃ vals, List.Forall₂ (fun t v => tables.resolveValue t = .ok v) operands vals := by
  induction operands with
  | nil => exact ⟨[], .nil⟩
  | cons t operands ih =>
      obtain ⟨v, hv⟩ := h t List.mem_cons_self
      obtain ⟨vals, hvals⟩ := ih fun t ht => h t (List.mem_cons_of_mem _ ht)
      exact ⟨v :: vals, .cons hv hvals⟩

/-- The second pass writes the code. -/
theorem ends_writePass {tables : LoadTables} {instrs others : List CodeInstr}
    {objects : List Nat} (hwf : WellFormedCode tables instrs)
    (h : CodeChunk bytes others objects) {done : List CodeInstr}
    (hinstrs : instrs = done ++ others) {l : CodeLoader} (hw : CodeWritten tables instrs done l)
    (hroom : heap.HasRoom objects) (c : Nat) :
    ∃ l', CodeWritten tables instrs instrs l' ∧ l'.code.buffer = l.code.buffer ∧
      Loading.Ends (fun fuel => writePass tables (fuel + c) fuel l) heap bytes []
        (.returns l' (heap.allottedAll objects)) := by
  induction h generalizing heap c done l with
  | nil =>
      rw [List.append_nil] at hinstrs
      refine ⟨l, hinstrs ▸ hw, rfl, Loading.Ends.succ ?_⟩
      unfold writePass
      exact ends_ended (ends_pure l)
  | @cons op operands bytes rest others objects objects' harity hoperands hothers ih =>
      obtain ⟨hfirst, hafter⟩ := hroom.append
      have hi : (⟨op, operands⟩ : CodeInstr) ∈ instrs :=
        hinstrs ▸ List.mem_append_right _ List.mem_cons_self
      obtain ⟨vals, hvals⟩ := exists_vals (hwf.resolvable _ hi)
      obtain ⟨l₁, hstore, hw₁, hbuffer₁⟩ := hw.storeInstruction hwf hinstrs harity hvals
      obtain ⟨l', hw', hbuffer, hnext⟩ := ih (by rw [List.append_assoc]; exact hinstrs) hw₁
        hafter (c + 1)
      refine ⟨l', hw', hbuffer.trans hbuffer₁, Loading.Ends.succ ?_⟩
      unfold writePass
      have hread : Loading.Ends (fun fuel =>
          readArgs tables (fuel + 1 + c) op operands.length) heap bytes (rest ++ [])
          (.returns vals (heap.allottedAll objects)) := by
        simp only [Nat.add_assoc]
        exact (ends_readArgs hoperands hvals hfirst).shift (1 + c)
      rw [← Heap.allottedAll_append] at hnext
      refine ends_more (ends_readU8_bind ?_)
      simp only [arityOf_eq harity, pure_bind]
      refine hread.bind ?_
      simp only [hstore, orPanic, pure_bind, Nat.add_assoc, Nat.add_comm 1 c]
      exact hnext

theorem reserve_words (v : CodeVec) (additional : Nat) :
    (v.reserve additional).words = v.words := by
  unfold CodeVec.reserve
  split <;> rfl

theorem codeWritten_nil (tables : LoadTables) (instrs : List CodeInstr) :
    CodeWritten tables instrs []
      { CodeLoader.new with code := CodeVec.new.reserve (measured instrs) } where
  code := ⟨[], reserve_words _ _, .nil⟩
  patches := by
    refine ⟨fun offset => ?_, fun index => ?_, List.nodup_nil, fun index hindex => ?_⟩
    · rw [reserve_words]
      simp [CodeLoader.new, CodeVec.new]
    · simp [CodeLoader.new]
    · cases hindex
  capacity := by
    unfold CodeVec.reserve CodeVec.new
    split
    next hle => exact hle
    next hlt => exact le_max_of_le_right (Nat.le_add_left _ _)
  labels := by simp [CodeLoader.new, LabelAt]
  funs := by simp [CodeLoader.new, FunAt]
  lines := by simp [CodeLoader.new]

/-- Both passes, of which each allots the lists of the code. -/
theorem parseRawCode_spec {tables : LoadTables} {chunk : List UInt8} {instrs : List CodeInstr}
    {objects : List Nat} (hchunk : CodeChunk chunk instrs objects)
    (hwf : WellFormedCode tables instrs) (hroom : heap.HasRoom (objects ++ objects)) :
    ∃ l, CodeWritten tables instrs instrs l ∧
      l.code.buffer = (CodeVec.new.reserve (measured instrs)).buffer ∧
      ∃ least, ∀ fuel, least ≤ fuel → ∃ s,
        parseRawCode tables fuel .new ⟨.fromBytes chunk, heap⟩ = .ok (l, s) := by
  obtain ⟨hfirst, hafter⟩ := hroom.append
  obtain ⟨l, hw, hbuffer, least, hwrite⟩ := ends_writePass hwf hchunk rfl
    (codeWritten_nil tables instrs) hafter 0
  obtain ⟨least', hsize⟩ := ends_sizePass hchunk hfirst 0 0
  refine ⟨l, hw, hbuffer, max least least', fun fuel hfuel => ?_⟩
  have hreads : (BinaryReader.fromBytes chunk).Reads chunk [] :=
    ⟨Nat.zero_le _, (List.append_nil _).symm⟩
  have hsized := hsize fuel (by omega) ⟨.fromBytes chunk, heap⟩ rfl hreads
  have hwritten := hwrite fuel (by omega) ⟨.fromBytes chunk, heap.allottedAll objects⟩ rfl hreads
  simp only [Nat.add_zero, Nat.zero_add, Loading.Outcome.Holds] at hsized hwritten
  refine ⟨⟨(BinaryReader.fromBytes chunk).advance chunk.length,
    (heap.allottedAll objects).allottedAll objects⟩, ?_⟩
  unfold parseRawCode
  have hreset : reset ⟨(BinaryReader.fromBytes chunk).advance chunk.length,
      heap.allottedAll objects⟩ =
        .ok ((), ⟨.fromBytes chunk, heap.allottedAll objects⟩) := rfl
  rw [StateExcept.bind_eq_of_ok hsized]
  dsimp only
  rw [StateExcept.bind_eq_of_ok hreset]
  refine (StateExcept.bind_eq_of_ok hwritten).trans ?_
  have hkept : l.code.buffer = (CodeVec.new.reserve (measured instrs)).buffer := hbuffer
  change (if l.code.buffer = (CodeVec.new.reserve (measured instrs)).buffer then
    (pure l : Loading CodeLoader) else panic .assertion) _ = _
  rw [if_pos hkept]
  rfl

end CodeLoading

end Passes

/-! ## The labels that were not known -/

namespace CodeLoader

variable {l : CodeLoader}

/-- What a word becomes. -/
def fixedCell (l : CodeLoader) (cell : CodeCell) : CodeCell :=
  (l.resolveLoadtimeLabel cell).toOption.getD cell

def fixedTable (l : CodeLoader) (pairs : List (LoadVal × CodeCell)) :
    List (LoadVal × CodeCell) :=
  pairs.map fun entry => (entry.1, l.fixedCell entry.2)

/-- The word is a label that is none or that is known. -/
def Fixable (l : CodeLoader) (cell : CodeCell) : Prop :=
  ∃ n, cell = .val (.loadtimeLabel n) ∧ (n = 0 ∨ ∃ offset, l.labels.lookup n = some offset)

/-- The loader with other words and other jump tables, and nothing more to replace. -/
def contents (l : CodeLoader) (words : List CodeCell)
    (jumpTables : List (List (LoadVal × CodeCell))) : CodeLoader :=
  { l with code := { l.code with words := words }, jumpTables := jumpTables, replaceLabels := [] }

theorem resolveLoadtimeLabel_contents (words : List CodeCell)
    (jumpTables : List (List (LoadVal × CodeCell))) (cell : CodeCell) :
    (l.contents words jumpTables).resolveLoadtimeLabel cell = l.resolveLoadtimeLabel cell := by
  unfold resolveLoadtimeLabel
  rfl

theorem resolveLocations_contents (words : List CodeCell)
    (jumpTables : List (List (LoadVal × CodeCell))) (pairs : List (LoadVal × CodeCell)) :
    (l.contents words jumpTables).resolveLocations pairs = l.resolveLocations pairs := by
  induction pairs with
  | nil => rfl
  | cons pair pairs ih =>
      unfold resolveLocations
      rw [ih, resolveLoadtimeLabel_contents]

theorem fixedCell_label {n : Nat} (h : n = 0 ∨ ∃ offset, l.labels.lookup n = some offset) :
    l.resolveLoadtimeLabel (.val (.loadtimeLabel n)) =
      .ok (l.fixedCell (.val (.loadtimeLabel n))) := by
  unfold fixedCell resolveLoadtimeLabel
  dsimp only
  split
  next hpos =>
    obtain ⟨offset, hlookup⟩ := h.resolve_left hpos.ne'
    rw [hlookup]
    rfl
  next hzero => rfl

theorem Fixable.resolves {cell : CodeCell} (h : l.Fixable cell) :
    l.resolveLoadtimeLabel cell = .ok (l.fixedCell cell) := by
  obtain ⟨n, rfl, hn⟩ := h
  exact fixedCell_label hn

theorem resolveLocations_eq {pairs : List (LoadVal × CodeCell)}
    (h : ∀ entry ∈ pairs, l.Fixable entry.2) :
    l.resolveLocations pairs = .ok (l.fixedTable pairs) := by
  induction pairs with
  | nil => rfl
  | cons entry pairs ih =>
      obtain ⟨value, loc⟩ := entry
      unfold resolveLocations
      rw [(h (value, loc) List.mem_cons_self).resolves,
        ih fun entry hentry => h entry (List.mem_cons_of_mem _ hentry)]
      rfl

/-- Nothing but a label is replaced. -/
theorem fixedCell_eq {cell : CodeCell} (h : ∀ n, cell ≠ .val (.loadtimeLabel n)) :
    l.fixedCell cell = cell := by
  unfold fixedCell resolveLoadtimeLabel
  split
  next n => exact absurd rfl (h n)
  next => rfl

theorem fixLabel_word {words : List CodeCell} {jumpTables : List (List (LoadVal × CodeCell))}
    {offset : Nat} {cell : CodeCell} (hcell : words[offset]? = some cell)
    (hfixable : l.Fixable cell) :
    (l.contents words jumpTables).fixLabel (.patchCodeOffset offset) =
      .ok (l.contents (words.set offset (l.fixedCell cell)) jumpTables) := by
  have hword : (l.contents words jumpTables).code.words[offset]? = some cell := hcell
  have hresolve : (l.contents words jumpTables).resolveLoadtimeLabel cell =
      .ok (l.fixedCell cell) :=
    (resolveLoadtimeLabel_contents words jumpTables cell).trans hfixable.resolves
  unfold fixLabel
  simp only [hword, hresolve]
  rfl

theorem fixLabel_table {words : List CodeCell} {jumpTables : List (List (LoadVal × CodeCell))}
    {index : Nat} {pairs : List (LoadVal × CodeCell)} (hpairs : jumpTables[index]? = some pairs)
    (hfixable : ∀ entry ∈ pairs, l.Fixable entry.2) :
    (l.contents words jumpTables).fixLabel (.patchJumpTable index) =
      .ok (l.contents words (jumpTables.set index (l.fixedTable pairs))) := by
  have htable : (l.contents words jumpTables).jumpTables[index]? = some pairs := hpairs
  have hresolve : (l.contents words jumpTables).resolveLocations pairs =
      .ok (l.fixedTable pairs) :=
    (resolveLocations_contents words jumpTables pairs).trans (resolveLocations_eq hfixable)
  unfold fixLabel
  simp only [htable, hresolve]
  rfl

theorem mapIdx_set {α : Type} {P : Nat → Prop} [DecidablePred P] {f : α → α} {xs : List α}
    {n : Nat} {x : α} (hx : xs[n]? = some x) (hn : ¬ P n) :
    (xs.set n (f x)).mapIdx (fun i y => if P i then f y else y) =
      xs.mapIdx (fun i y => if i = n ∨ P i then f y else y) := by
  refine List.ext_getElem? fun i => ?_
  rw [List.getElem?_mapIdx, List.getElem?_mapIdx]
  rcases eq_or_ne i n with rfl | hne
  · have hlt := (List.getElem?_eq_some_iff.mp hx).1
    rw [List.getElem?_set_self hlt, hx]
    simp [hn]
  · rw [List.getElem?_set_ne hne.symm]
    simp [hne]

/-- Every word on the list is replaced, and every jump table on it. -/
theorem foldlM_fixLabel {patches : List PatchLocation} (hnodup : patches.Nodup)
    {words : List CodeCell} {jumpTables : List (List (LoadVal × CodeCell))}
    (hwords : ∀ offset, .patchCodeOffset offset ∈ patches →
      ∃ cell, words[offset]? = some cell ∧ l.Fixable cell)
    (htables : ∀ index, .patchJumpTable index ∈ patches →
      ∃ pairs, jumpTables[index]? = some pairs ∧ ∀ entry ∈ pairs, l.Fixable entry.2) :
    patches.foldlM fixLabel (l.contents words jumpTables) = .ok (l.contents
      (words.mapIdx fun offset cell =>
        if .patchCodeOffset offset ∈ patches then l.fixedCell cell else cell)
      (jumpTables.mapIdx fun index pairs =>
        if .patchJumpTable index ∈ patches then l.fixedTable pairs else pairs)) := by
  induction patches generalizing words jumpTables with
  | nil =>
      have hnone : ∀ {α : Type} (xs : List α), xs.mapIdx (fun _ x => x) = xs := fun xs =>
        List.ext_getElem? fun n => by simp
      simp only [List.foldlM_nil, List.not_mem_nil, if_false, hnone]
      rfl
  | cons patch patches ih =>
      obtain ⟨hnot, hothers⟩ := List.nodup_cons.mp hnodup
      rw [List.foldlM_cons]
      cases patch with
      | patchCodeOffset offset =>
          obtain ⟨cell, hcell, hfixable⟩ := hwords offset List.mem_cons_self
          rw [fixLabel_word hcell hfixable]
          refine (ih hothers (fun other hmem => ?_) fun index hmem =>
            htables index (List.mem_cons_of_mem _ hmem)).trans ?_
          · have hne : offset ≠ other := fun heq => hnot (heq ▸ hmem)
            rw [List.getElem?_set_ne hne]
            exact hwords other (List.mem_cons_of_mem _ hmem)
          · rw [mapIdx_set hcell hnot]
            simp only [List.mem_cons, PatchLocation.patchCodeOffset.injEq, reduceCtorEq, false_or]
      | patchJumpTable index =>
          obtain ⟨pairs, hpairs, hfixable⟩ := htables index List.mem_cons_self
          rw [fixLabel_table hpairs hfixable]
          refine (ih hothers (fun offset hmem => hwords offset (List.mem_cons_of_mem _ hmem))
            fun other hmem => ?_).trans ?_
          · have hne : index ≠ other := fun heq => hnot (heq ▸ hmem)
            rw [List.getElem?_set_ne hne]
            exact htables other (List.mem_cons_of_mem _ hmem)
          · rw [mapIdx_set hpairs hnot]
            simp only [List.mem_cons, PatchLocation.patchJumpTable.injEq, reduceCtorEq, false_or]

/-- Every word that is a label is replaced, and the labels of every jump table. -/
theorem fixLabels_eq (hpatches : Patches l)
    (hwords : ∀ n, .val (.loadtimeLabel n) ∈ l.code.words →
      l.Fixable (.val (.loadtimeLabel n)))
    (htables : ∀ pairs ∈ l.jumpTables, ∀ entry ∈ pairs, l.Fixable entry.2) :
    l.fixLabels =
      .ok (l.contents (l.code.words.map l.fixedCell) (l.jumpTables.map l.fixedTable)) := by
  have hfold : l.replaceLabels.foldlM fixLabel (l.contents l.code.words l.jumpTables) = _ :=
    foldlM_fixLabel hpatches.nodup
    (fun offset hmem => by
      obtain ⟨n, hn⟩ := (hpatches.words offset).mp hmem
      exact ⟨_, hn, hwords n (List.mem_of_getElem? hn)⟩)
    (fun index hmem => by
      have hlt := (hpatches.tables index).mp hmem
      exact ⟨_, List.getElem?_eq_getElem hlt, htables _ (List.getElem_mem hlt)⟩)
  have hcode : (l.code.words.mapIdx fun offset cell =>
      if .patchCodeOffset offset ∈ l.replaceLabels then l.fixedCell cell else cell) =
        l.code.words.map l.fixedCell := by
    refine List.ext_getElem? fun offset => ?_
    rw [List.getElem?_mapIdx, List.getElem?_map]
    cases hcell : l.code.words[offset]? with
    | none => rfl
    | some cell =>
        rw [Option.map_some, Option.map_some]
        split
        next hmem => rfl
        next hmem =>
          rw [fixedCell_eq]
          rintro n rfl
          exact hmem ((hpatches.words offset).mpr ⟨n, hcell⟩)
  have hjump : (l.jumpTables.mapIdx fun index pairs =>
      if .patchJumpTable index ∈ l.replaceLabels then l.fixedTable pairs else pairs) =
        l.jumpTables.map l.fixedTable := by
    refine List.ext_getElem? fun index => ?_
    rw [List.getElem?_mapIdx, List.getElem?_map]
    cases hpairs : l.jumpTables[index]? with
    | none => rfl
    | some pairs =>
        have hlt := (List.getElem?_eq_some_iff.mp hpairs).1
        rw [Option.map_some, Option.map_some, if_pos ((hpatches.tables index).mpr hlt)]
  rw [hcode, hjump] at hfold
  exact hfold

end CodeLoader

section Fixing

variable {tables : LoadTables} {instrs : List CodeInstr} {l : CodeLoader}

theorem exists_of_mem_right {α β : Type} {R : α → β → Prop} {xs : List α} {ys : List β}
    (h : List.Forall₂ R xs ys) {y : β} (hy : y ∈ ys) : ∃ x, R x y := by
  induction h with
  | nil => cases hy
  | cons hx _ ih =>
      rcases List.mem_cons.mp hy with rfl | hy
      · exact ⟨_, hx⟩
      · exact ih hy

/-- A word of the code is an opcode or stands for an operand. -/
theorem CodeWritten.mem_words {done : List CodeInstr} (hw : CodeWritten tables instrs done l)
    {cell : CodeCell} (hmem : cell ∈ l.code.words) :
    (∃ op, cell = .opcode op) ∨
      ∃ t, ArgWritten tables instrs l.code.buffer l.jumpTables t cell := by
  obtain ⟨segments, hwords, hsegments⟩ := hw.code
  rw [hwords] at hmem
  obtain ⟨segment, hsegment, hcell⟩ := List.mem_flatten.mp hmem
  obtain ⟨i, hi⟩ := exists_of_mem_right hsegments hsegment
  rw [InstrIs] at hi
  split at hi
  next hemits =>
    obtain ⟨cells, rfl, hcells⟩ := hi
    rcases List.mem_cons.mp hcell with rfl | hcell
    · exact Or.inl ⟨_, rfl⟩
    · exact Or.inr (exists_of_mem_right hcells hcell)
  next hemits =>
    subst hi
    cases hcell

variable (hw : CodeWritten tables instrs instrs l)
include hw

/-- The labels of the code are known when it is written. -/
theorem CodeWritten.lookup {n : Nat} (h : Labelled instrs n) :
    n = 0 ∨ ∃ offset, l.labels.lookup n = some offset := by
  refine h.imp_right fun ⟨offset, hat⟩ => ?_
  refine Option.isSome_iff_exists.mp (List.lookup_isSome_iff.mpr ?_)
  exact ⟨(n, offset), (hw.labels n offset).mpr hat, beq_self_eq_true n⟩

theorem CodeWritten.labelIs {n : Nat} (h : Labelled instrs n) {l' : CodeLoader}
    (hbuffer : l'.code.buffer = l.code.buffer) :
    LabelIs instrs l' n (l.fixedCell (.val (.loadtimeLabel n))) := by
  rw [LabelIs]
  have hfixed := CodeLoader.fixedCell_label (hw.lookup h)
  unfold CodeLoader.resolveLoadtimeLabel at hfixed
  dsimp only at hfixed
  split
  next hzero =>
    subst hzero
    exact (Except.ok.inj hfixed).symm
  next hne =>
    obtain ⟨offset, hlookup⟩ := (hw.lookup h).resolve_left hne
    rw [if_pos (Nat.pos_of_ne_zero hne), hlookup] at hfixed
    refine ⟨offset, (hw.labels n offset).mp (mem_of_lookup_eq_some hlookup), ?_⟩
    rw [hbuffer]
    exact (Except.ok.inj hfixed).symm

/-- What the word for an operand becomes. -/
theorem CodeWritten.argIs {t : LtTerm} {cell : CodeCell}
    (h : ArgWritten tables instrs l.code.buffer l.jumpTables t cell) {l' : CodeLoader}
    (hbuffer : l'.code.buffer = l.code.buffer)
    (hjump : l'.jumpTables = l.jumpTables.map l.fixedTable) :
    ArgIs tables instrs l' t (l.fixedCell cell) := by
  cases h with
  | pending hlabelled => exact .label (hw.labelIs hlabelled hbuffer)
  | known hne hat =>
      rw [CodeLoader.fixedCell_eq fun n => by simp]
      refine .label ?_
      rw [LabelIs, if_neg hne]
      exact ⟨_, hat, by rw [hbuffer]⟩
  | @jumpTable pairs index content hindex hcontent =>
      rw [CodeLoader.fixedCell_eq fun n => by simp]
      have hfixed : l'.jumpTables[index]? = some (l.fixedTable content) := by
        rw [hjump, List.getElem?_map, hindex]
        rfl
      refine .jumpTable hfixed ?_
      unfold CodeLoader.fixedTable
      rw [List.forall₂_map_right_iff]
      refine hcontent.imp fun pair entry hentry => ?_
      obtain ⟨hvalue, n, hn, hlabelled, hloc⟩ := hentry
      refine ⟨hvalue, n, hn, ?_⟩
      rw [hloc]
      exact hw.labelIs hlabelled hbuffer
  | value hplain hv =>
      rw [CodeLoader.fixedCell_eq]
      · exact .value hplain hv
      · rintro n heq
        cases heq
        cases isPlain_of_resolveValue hplain hv

/-- When the labels are fixed the code is loaded. -/
theorem CodeWritten.fixLabels (hbuffer : l.code.buffer =
    (CodeVec.new.reserve (measured instrs)).buffer) :
    ∃ l', l.fixLabels = .ok l' ∧ CodeLoaded tables instrs l' := by
  have hfixable : ∀ {n}, Labelled instrs n → l.Fixable (.val (.loadtimeLabel n)) :=
    fun hlabelled => ⟨_, rfl, hw.lookup hlabelled⟩
  refine ⟨_, CodeLoader.fixLabels_eq hw.patches (fun n hmem => ?_)
    fun pairs hpairs entry hentry => ?_, ?_⟩
  · rcases hw.mem_words hmem with ⟨op, hop⟩ | ⟨t, ht⟩
    · cases hop
    · cases ht with
      | pending hlabelled => exact hfixable hlabelled
      | value hplain hv => cases isPlain_of_resolveValue hplain hv
  · obtain ⟨index, hlt, rfl⟩ := List.mem_iff_getElem.mp hpairs
    rcases hw.mem_words (hw.patches.pointed index hlt) with ⟨op, hop⟩ | ⟨t, ht⟩
    · cases hop
    · cases ht with
      | jumpTable hindex hcontent =>
          rw [List.getElem?_eq_getElem hlt] at hindex
          cases hindex
          obtain ⟨pair, -, n, -, hlabelled, hloc⟩ := exists_of_mem_right hcontent hentry
          rw [hloc]
          exact hfixable hlabelled
  · obtain ⟨segments, hwords, hsegments⟩ := hw.code
    have hcode : l.code.words.map l.fixedCell = (segments.map (List.map l.fixedCell)).flatten := by
      rw [hwords, List.map_flatten]
    have hfixed : List.Forall₂ (InstrIs (ArgIs tables instrs
        (l.contents (l.code.words.map l.fixedCell) (l.jumpTables.map l.fixedTable)))) instrs
        (segments.map (List.map l.fixedCell)) := by
      rw [List.forall₂_map_right_iff]
      refine hsegments.imp fun i words hi => hi.map (fun op => ?_) fun t cell ht => ?_
      · exact CodeLoader.fixedCell_eq fun n => by simp
      · exact hw.argIs ht rfl rfl
    refine ⟨⟨_, hcode, hfixed⟩, fun pre post hsplit => ?_, hbuffer, hw.funs⟩
    have hsplitted : List.Forall₂ (InstrIs (ArgIs tables instrs
        (l.contents (l.code.words.map l.fixedCell) (l.jumpTables.map l.fixedTable))))
        (pre ++ post) (segments.map (List.map l.fixedCell)) := hsplit ▸ hfixed
    have hrest := drop_of_instrIs hsplitted
    rw [← hcode] at hrest
    exact hrest

end Fixing

end Zeptobeam
