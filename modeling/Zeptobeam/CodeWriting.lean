/-
What the loader should make of a code chunk, and what it writes at first.  The code is its
instructions one after the other; labels that were met before have become addresses, and the
words and jump tables with other labels are on the list of what is to be replaced.
-/
import Mathlib.Data.List.Forall2
import Mathlib.Data.List.Nodup
import Zeptobeam.CodeLoading
import Zeptobeam.CompactOperands

namespace Zeptobeam

open Loading BinaryReader CompactTerm

/-! ## Code chunks -/

structure CodeInstr where
  opcode : UInt8
  operands : List LtTerm

/-- The label that the instruction defines. -/
def CodeInstr.defines? (i : CodeInstr) : Option Nat :=
  if i.opcode = opcodeLabel then
    match i.operands with
    | .small n :: _ => some n.toNat
    | _ => none
  else none

/-- The labels that an operand refers to. -/
def LtTerm.labels : LtTerm → List Nat
  | .loadtimeLabel n => [n]
  | .jumpTable pairs => pairs.flatMap fun
      | (_, .loadtimeLabel n) => [n]
      | _ => []
  | _ => []

/-- Labels and lines add nothing to the code. -/
def CodeInstr.emits (i : CodeInstr) : Bool :=
  i.opcode ≠ opcodeLabel && !isLine i.opcode

def CodeInstr.size (i : CodeInstr) : Nat :=
  if i.emits then i.operands.length + 1 else 0

def codeSize (instrs : List CodeInstr) : Nat :=
  (instrs.map CodeInstr.size).sum

/-- The bytes of instructions of known opcodes, each with as many operands as it has, and the
objects of the operands. -/
inductive CodeChunk : List UInt8 → List CodeInstr → List Nat → Prop where
  | nil : CodeChunk [] [] []
  | cons {op : UInt8} {operands : List LtTerm} {bytes rest : List UInt8}
      {instrs : List CodeInstr} {objects objects' : List Nat}
      (harity : opcodeArity op = some operands.length)
      (hoperands : Operands (listMode op) bytes operands objects)
      (hothers : CodeChunk rest instrs objects') :
      CodeChunk (op :: bytes ++ rest) (⟨op, operands⟩ :: instrs) (objects ++ objects')

/-- Instructions that fit together and to the tables of atoms and literals. -/
structure WellFormedCode (tables : LoadTables) (instrs : List CodeInstr) : Prop where
  resolvable : ∀ i ∈ instrs, ∀ t ∈ i.operands, ∃ v, tables.resolveValue t = .ok v
  label : ∀ i ∈ instrs, i.opcode = opcodeLabel → ∃ n : Nat, 0 < n ∧ i.operands = [.small n]
  line : ∀ i ∈ instrs, isLine i.opcode = true → ∀ n, i.operands.head? = some (.small n) → 0 ≤ n
  funcInfo : ∀ i ∈ instrs, i.opcode = opcodeFuncInfo →
    ∃ arity : Nat, i.operands[2]? = some (.small arity)
  locations : ∀ i ∈ instrs, ∀ pairs, .jumpTable pairs ∈ i.operands →
    ∀ pair ∈ pairs, ∃ n, pair.2 = .loadtimeLabel n
  defined : ∀ i ∈ instrs, ∀ t ∈ i.operands, ∀ n ∈ t.labels, n ≠ 0 →
    (instrs.filterMap CodeInstr.defines?).count n = 1

/-! ## The code that should come of it -/

/-- The label stands before the word of the code at the offset. -/
def LabelAt (instrs : List CodeInstr) (n offset : Nat) : Prop :=
  ∃ pre i post, instrs = pre ++ i :: post ∧ i.defines? = some n ∧ offset = codeSize pre

/-- The label is none, or there is such a label in the code. -/
def Labelled (instrs : List CodeInstr) (n : Nat) : Prop :=
  n = 0 ∨ ∃ offset, LabelAt instrs n offset

/-- What stands for a label: nil for none, and else the address. -/
def LabelIs (instrs : List CodeInstr) (l : CodeLoader) (n : Nat) (cell : CodeCell) : Prop :=
  if n = 0 then cell = .val .nil
  else ∃ offset, LabelAt instrs n offset ∧ cell = .cp l.code.buffer offset

def LtTerm.isPlain : LtTerm → Bool
  | .loadtimeLabel _ | .jumpTable _ => false
  | _ => true

/-- The word for an operand. -/
inductive ArgIs (tables : LoadTables) (instrs : List CodeInstr) (l : CodeLoader) :
    LtTerm → CodeCell → Prop where
  | label {n : Nat} {cell : CodeCell} (h : LabelIs instrs l n cell) :
      ArgIs tables instrs l (.loadtimeLabel n) cell
  | jumpTable {pairs : List (LtTerm × LtTerm)} {index : Nat}
      {content : List (LoadVal × CodeCell)} (hindex : l.jumpTables[index]? = some content)
      (hcontent : List.Forall₂ (fun pair entry => tables.resolveValue pair.1 = .ok entry.1 ∧
        ∃ n, pair.2 = .loadtimeLabel n ∧ LabelIs instrs l n entry.2) pairs content) :
      ArgIs tables instrs l (.jumpTable pairs) (.jumpTable index)
  | value {t : LtTerm} {v : LoadVal} (hplain : t.isPlain = true)
      (h : tables.resolveValue t = .ok v) : ArgIs tables instrs l t (.val v)

/-- The words for an instruction, by what they are for an operand. -/
def InstrIs (arg : LtTerm → CodeCell → Prop) (i : CodeInstr) (words : List CodeCell) : Prop :=
  if i.emits then ∃ cells, words = .opcode i.opcode :: cells ∧
    List.Forall₂ arg i.operands cells
  else words = []

/-- The words that the first pass counts. -/
def measured (instrs : List CodeInstr) : Nat :=
  (instrs.map fun i => i.operands.length + 1).sum

/-- The `func_info` of a function, by its name and its arity. -/
def CodeInstr.IsFuncInfo (tables : LoadTables) (i : CodeInstr) (f : LoadVal) (arity : Nat) :
    Prop :=
  i.opcode = opcodeFuncInfo ∧
    (∃ t, i.operands[1]? = some t ∧ tables.resolveValue t = .ok f) ∧
    i.operands[2]? = some (.small arity)

/-- The function begins at the offset, behind its `func_info`. -/
def FunAt (tables : LoadTables) (instrs : List CodeInstr) (f : LoadVal) (arity offset : Nat) :
    Prop :=
  ∃ pre i post, instrs = pre ++ i :: post ∧ i.IsFuncInfo tables f arity ∧
    offset = codeSize (pre ++ [i])

/-- The loader has loaded the instructions. -/
structure CodeLoaded (tables : LoadTables) (instrs : List CodeInstr) (l : CodeLoader) :
    Prop where
  code : ∃ segments, l.code.words = segments.flatten ∧
    List.Forall₂ (InstrIs (ArgIs tables instrs l)) instrs segments
  /-- At the offset of an instruction begins the code from it on. -/
  offsets : ∀ pre post, instrs = pre ++ post → ∃ segments,
    l.code.words.drop (codeSize pre) = segments.flatten ∧
      List.Forall₂ (InstrIs (ArgIs tables instrs l)) post segments
  /-- It is still the buffer that was reserved. -/
  buffer : l.code.buffer = (CodeVec.new.reserve (measured instrs)).buffer
  funs : ∀ f arity offset, ((f, arity), offset) ∈ l.funs ↔ FunAt tables instrs f arity offset

theorem codeSize_append (pre post : List CodeInstr) :
    codeSize (pre ++ post) = codeSize pre + codeSize post := by
  simp [codeSize]

theorem codeSize_cons (i : CodeInstr) (instrs : List CodeInstr) :
    codeSize (i :: instrs) = i.size + codeSize instrs := by
  simp [codeSize]

theorem codeSize_le_measured (instrs : List CodeInstr) : codeSize instrs ≤ measured instrs := by
  induction instrs with
  | nil => exact Nat.le_refl _
  | cons i instrs ih =>
      have hsize : i.size ≤ i.operands.length + 1 := by
        rw [CodeInstr.size]
        split
        · exact Nat.le_refl _
        · exact Nat.zero_le _
      rw [codeSize_cons, measured, List.map_cons, List.sum_cons]
      exact Nat.add_le_add hsize ih

/-- The words of an instruction are as many as its size. -/
theorem length_of_instrIs {arg : LtTerm → CodeCell → Prop} {i : CodeInstr}
    {words : List CodeCell} (h : InstrIs arg i words) : words.length = i.size := by
  rw [InstrIs] at h
  rw [CodeInstr.size]
  split at h
  next hemits =>
    obtain ⟨cells, rfl, hcells⟩ := h
    rw [if_pos hemits, List.length_cons, hcells.length_eq]
  next hemits =>
    rw [if_neg hemits, h]
    rfl

/-- What comes before an instruction in the code are the words of the instructions before it. -/
theorem drop_of_instrIs {arg : LtTerm → CodeCell → Prop} {pre post : List CodeInstr}
    {segments : List (List CodeCell)} (h : List.Forall₂ (InstrIs arg) (pre ++ post) segments) :
    ∃ segments', segments.flatten.drop (codeSize pre) = segments'.flatten ∧
      List.Forall₂ (InstrIs arg) post segments' := by
  induction pre generalizing segments with
  | nil => exact ⟨segments, rfl, h⟩
  | cons i pre ih =>
      cases h with
      | @cons _ words _ segments hi hothers =>
          obtain ⟨segments', hdrop, hpost⟩ := ih hothers
          refine ⟨segments', ?_, hpost⟩
          rw [List.flatten_cons, codeSize_cons, ← length_of_instrIs hi, List.drop_append,
            Nat.add_sub_cancel_left, List.drop_eq_nil_of_le (Nat.le_add_right _ _),
            List.nil_append]
          exact hdrop

/-! ## The words to replace -/

@[simp] theorem CodeLoader.push_words (l : CodeLoader) (cell : CodeCell) :
    (l.push cell).code.words = l.code.words ++ [cell] := by
  unfold push CodeVec.push
  split <;> rfl

/-- What is to be replaced: every word that is a label and every jump table, once.  To every
jump table points a word. -/
structure Patches (l : CodeLoader) : Prop where
  words : ∀ offset, .patchCodeOffset offset ∈ l.replaceLabels ↔
    ∃ n, l.code.words[offset]? = some (.val (.loadtimeLabel n))
  tables : ∀ index, .patchJumpTable index ∈ l.replaceLabels ↔ index < l.jumpTables.length
  nodup : l.replaceLabels.Nodup
  pointed : ∀ index, index < l.jumpTables.length → .jumpTable index ∈ l.code.words

namespace Patches

variable {l : CodeLoader}

theorem getElem?_concat {words : List CodeCell} {cell : CodeCell} {offset n : Nat} :
    (words ++ [cell])[offset]? = some (.val (.loadtimeLabel n)) ↔
      words[offset]? = some (.val (.loadtimeLabel n)) ∨
        (offset = words.length ∧ cell = .val (.loadtimeLabel n)) := by
  rw [List.getElem?_append]
  split
  next hlt =>
    have hne : ¬ offset = words.length := by omega
    simp [hne]
  next hlt =>
    rw [List.getElem?_eq_none (Nat.le_of_not_lt hlt), List.getElem?_singleton]
    split
    next hzero =>
      have heq : offset = words.length := by omega
      simp [heq]
    next hzero =>
      have hne : ¬ offset = words.length := by omega
      simp [hne]

theorem push (h : Patches l) {cell : CodeCell} (hcell : ∀ n, cell ≠ .val (.loadtimeLabel n)) :
    Patches (l.push cell) := by
  refine ⟨fun offset => (h.words offset).trans (exists_congr fun n => ?_), h.tables, h.nodup,
    fun index hindex => ?_⟩
  · rw [CodeLoader.push_words, getElem?_concat]
    exact ⟨Or.inl, fun hn => hn.resolve_right fun hlast => hcell n hlast.2⟩
  · rw [CodeLoader.push_words]
    exact List.mem_append_left _ (h.pointed index hindex)

theorem push_label (h : Patches l) (labelId : Nat) :
    Patches ({ l with
      replaceLabels := l.replaceLabels ++ [PatchLocation.patchCodeOffset l.code.words.length]
      }.push (.val (.loadtimeLabel labelId))) := by
  refine ⟨fun offset => ?_, fun index => ?_, ?_, fun index hindex => ?_⟩
  · rw [CodeLoader.push_words]
    simp only [getElem?_concat]
    change _ ∈ l.replaceLabels ++ _ ↔ _
    rw [List.mem_append, h.words, List.mem_singleton, PatchLocation.patchCodeOffset.injEq,
      exists_or]
    simp
  · change _ ∈ l.replaceLabels ++ _ ↔ _
    rw [List.mem_append, h.tables, List.mem_singleton]
    simp [CodeLoader.push]
  · change (l.replaceLabels ++ _).Nodup
    rw [← List.concat_eq_append, List.nodup_concat]
    refine ⟨fun hmem => ?_, h.nodup⟩
    obtain ⟨n, hn⟩ := (h.words _).mp hmem
    rw [List.getElem?_eq_none (Nat.le_refl _)] at hn
    cases hn
  · rw [CodeLoader.push_words]
    exact List.mem_append_left _ (h.pointed index hindex)

theorem push_jumpTable (h : Patches l) (pairs : List (LoadVal × CodeCell)) :
    Patches { l.push (.jumpTable l.jumpTables.length) with
      jumpTables := l.jumpTables ++ [pairs]
      replaceLabels := l.replaceLabels ++ [.patchJumpTable l.jumpTables.length] } := by
  have hpush : Patches (l.push (.jumpTable l.jumpTables.length)) := h.push fun n => by simp
  refine ⟨fun offset => ?_, fun index => ?_, ?_, fun index hindex => ?_⟩
  · rw [← hpush.words offset, List.mem_append]
    simp [CodeLoader.push]
  · rw [List.mem_append, h.tables, List.mem_singleton, PatchLocation.patchJumpTable.injEq,
      List.length_append]
    exact Nat.lt_succ_iff_lt_or_eq.symm
  · rw [← List.concat_eq_append, List.nodup_concat]
    exact ⟨fun hmem => Nat.lt_irrefl _ ((h.tables _).mp hmem), h.nodup⟩
  · rw [List.length_append, List.length_singleton] at hindex
    rcases Nat.lt_succ_iff_lt_or_eq.mp hindex with hlt | rfl
    · exact hpush.pointed index hlt
    · change _ ∈ (l.push _).code.words
      rw [CodeLoader.push_words]
      exact List.mem_append_right _ List.mem_cons_self

theorem storeArg (h : Patches l) (arg : LoadVal) : Patches (l.storeArg arg) := by
  unfold CodeLoader.storeArg
  split
  · exact h.push_jumpTable _
  next labelId =>
    split
    · exact h.push fun n => by simp [CodeLoader.createJumpDestination]
    · exact h.push_label labelId
  next _ hlabel => exact h.push fun n hn => hlabel n (by injection hn)

theorem storeOpcodeArgs (h : Patches l) (args : List LoadVal) :
    Patches (l.storeOpcodeArgs args) := by
  unfold CodeLoader.storeOpcodeArgs
  induction args generalizing l with
  | nil => exact h
  | cons arg args ih => exact ih (h.storeArg arg)

theorem storeOpcode (h : Patches l) (op : UInt8) (args : List LoadVal) :
    Patches (l.storeOpcode op args) :=
  (h.push fun n => by simp).storeOpcodeArgs args

end Patches

/-! ## What is written -/

def LoadVal.isPlain : LoadVal → Bool
  | .loadtimeLabel _ | .jumpTable _ => false
  | _ => true

/-- The word for an operand before the labels are fixed. -/
inductive ArgWritten (tables : LoadTables) (instrs : List CodeInstr) (buffer : Nat)
    (jumpTables : List (List (LoadVal × CodeCell))) : LtTerm → CodeCell → Prop where
  | pending {n : Nat} (h : Labelled instrs n) :
      ArgWritten tables instrs buffer jumpTables (.loadtimeLabel n) (.val (.loadtimeLabel n))
  | known {n offset : Nat} (hne : n ≠ 0) (h : LabelAt instrs n offset) :
      ArgWritten tables instrs buffer jumpTables (.loadtimeLabel n) (.cp buffer offset)
  | jumpTable {pairs : List (LtTerm × LtTerm)} {index : Nat}
      {content : List (LoadVal × CodeCell)} (hindex : jumpTables[index]? = some content)
      (hcontent : List.Forall₂ (fun pair entry => tables.resolveValue pair.1 = .ok entry.1 ∧
        ∃ n, pair.2 = .loadtimeLabel n ∧ Labelled instrs n ∧
          entry.2 = .val (.loadtimeLabel n)) pairs content) :
      ArgWritten tables instrs buffer jumpTables (.jumpTable pairs) (.jumpTable index)
  | value {t : LtTerm} {v : LoadVal} (hplain : t.isPlain = true)
      (h : tables.resolveValue t = .ok v) :
      ArgWritten tables instrs buffer jumpTables t (.val v)

/-- More jump tables make no difference to the words that are written. -/
theorem ArgWritten.append {tables : LoadTables} {instrs : List CodeInstr} {buffer : Nat}
    {jumpTables : List (List (LoadVal × CodeCell))} {t : LtTerm} {cell : CodeCell}
    (h : ArgWritten tables instrs buffer jumpTables t cell)
    (more : List (List (LoadVal × CodeCell))) :
    ArgWritten tables instrs buffer (jumpTables ++ more) t cell := by
  cases h with
  | pending h => exact .pending h
  | known hne h => exact .known hne h
  | jumpTable hindex hcontent =>
      refine .jumpTable ?_ hcontent
      rw [List.getElem?_append_left (List.getElem?_eq_some_iff.mp hindex).1]
      exact hindex
  | value hplain h => exact .value hplain h

/-- These words are written behind the code, and nothing else changes but the jump tables,
to which some may be added, and the list of what is to be replaced. -/
structure Writes (l l' : CodeLoader) (cells : List CodeCell) : Prop where
  words : l'.code.words = l.code.words ++ cells
  buffer : l'.code.buffer = l.code.buffer
  capacity : l'.code.capacity = l.code.capacity
  labels : l'.labels = l.labels
  funs : l'.funs = l.funs
  lineTable : l'.lineTable = l.lineTable
  jumpTables : ∃ more, l'.jumpTables = l.jumpTables ++ more

theorem Writes.trans {l l' l'' : CodeLoader} {cells cells' : List CodeCell}
    (h : Writes l l' cells) (h' : Writes l' l'' cells') : Writes l l'' (cells ++ cells') where
  words := by rw [h'.words, h.words, List.append_assoc]
  buffer := h'.buffer.trans h.buffer
  capacity := h'.capacity.trans h.capacity
  labels := h'.labels.trans h.labels
  funs := h'.funs.trans h.funs
  lineTable := h'.lineTable.trans h.lineTable
  jumpTables := by
    obtain ⟨more, hmore⟩ := h.jumpTables
    obtain ⟨more', hmore'⟩ := h'.jumpTables
    exact ⟨more ++ more', by rw [hmore', hmore, List.append_assoc]⟩

theorem mem_of_lookup_eq_some {entries : List (Nat × Nat)} {key value : Nat}
    (h : entries.lookup key = some value) : (key, value) ∈ entries := by
  obtain ⟨before, others, rfl, -⟩ := List.lookup_eq_some_iff.mp h
  exact List.mem_append_right _ List.mem_cons_self

section Writing

variable {tables : LoadTables} {instrs : List CodeInstr} {l : CodeLoader}

/-- Where there is room the buffer stays. -/
theorem writes_push (hcapacity : l.code.words.length < l.code.capacity) (cell : CodeCell) :
    Writes l (l.push cell) [cell] := by
  unfold CodeLoader.push CodeVec.push
  rw [if_pos hcapacity]
  exact ⟨rfl, rfl, rfl, rfl, rfl, rfl, [], (List.append_nil _).symm⟩

theorem atomFromLoadtimeIndex_ok {n : Nat} {v : LoadVal}
    (hv : tables.atomFromLoadtimeIndex n = .ok v) : v = .nil ∨ ∃ t, v = .term t := by
  unfold LoadTables.atomFromLoadtimeIndex at hv
  split at hv
  · cases hv
    exact Or.inl rfl
  · split at hv
    next t _ =>
      cases hv
      exact Or.inr ⟨t, rfl⟩
    · cases hv

theorem literal_ok {n : Nat} {v : LoadVal} (hv : tables.literal n = .ok v) :
    ∃ t, v = .term t := by
  unfold LoadTables.literal at hv
  split at hv
  next t _ =>
    cases hv
    exact ⟨t, rfl⟩
  · cases hv

/-- The value of an operand that is no label and no jump table is neither. -/
theorem isPlain_of_resolveValue {t : LtTerm} {v : LoadVal} (hplain : t.isPlain = true)
    (hv : tables.resolveValue t = .ok v) : v.isPlain = true := by
  cases t with
  | loadtimeLabel n => cases hplain
  | jumpTable pairs => cases hplain
  | loadtimeAtom index =>
      unfold LoadTables.resolveValue at hv
      rcases atomFromLoadtimeIndex_ok hv with rfl | ⟨t, rfl⟩
      · rfl
      · rfl
  | loadtimeLiteral index =>
      unfold LoadTables.resolveValue at hv
      obtain ⟨t, rfl⟩ := literal_ok hv
      rfl
  | tuple elements =>
      unfold LoadTables.resolveValue at hv
      obtain ⟨vals, -, hvals⟩ := StateExcept.except_bind_eq_ok_iff.mp hv
      cases hvals
      rfl
  | _ =>
      unfold LoadTables.resolveValue at hv
      cases hv
      rfl

theorem storeArg_plain {v : LoadVal} (hplain : v.isPlain = true) :
    l.storeArg v = l.push (.val v) := by
  cases v with
  | loadtimeLabel n => cases hplain
  | jumpTable pairs => cases hplain
  | _ => rfl

theorem resolvePairs_locations {pairs : List (LtTerm × LtTerm)}
    {vals : List (LoadVal × LoadVal)} (hv : tables.resolvePairs pairs = .ok vals)
    (hlocations : ∀ pair ∈ pairs, ∃ n, pair.2 = .loadtimeLabel n ∧ Labelled instrs n) :
    List.Forall₂ (fun pair entry => tables.resolveValue pair.1 = .ok entry.1 ∧
      ∃ n, pair.2 = .loadtimeLabel n ∧ Labelled instrs n ∧
        entry.2 = .val (.loadtimeLabel n)) pairs
      (vals.map fun (value, loc) => (value, CodeCell.val loc)) := by
  induction pairs generalizing vals with
  | nil =>
      cases hv
      exact .nil
  | cons pair pairs ih =>
      obtain ⟨value, loc⟩ := pair
      unfold LoadTables.resolvePairs at hv
      obtain ⟨v, hvalue, hv⟩ := StateExcept.except_bind_eq_ok_iff.mp hv
      obtain ⟨w, hloc, hv⟩ := StateExcept.except_bind_eq_ok_iff.mp hv
      obtain ⟨others, hothers, hv⟩ := StateExcept.except_bind_eq_ok_iff.mp hv
      cases hv
      obtain ⟨n, hn, hlabelled⟩ := hlocations _ List.mem_cons_self
      dsimp only at hn
      subst hn
      unfold LoadTables.resolveValue at hloc
      cases hloc
      exact .cons ⟨hvalue, n, rfl, hlabelled, rfl⟩
        (ih hothers fun pair hpair => hlocations pair (List.mem_cons_of_mem _ hpair))

theorem LtTerm.mem_labels {pairs : List (LtTerm × LtTerm)} {pair : LtTerm × LtTerm} {n : Nat}
    (hpair : pair ∈ pairs) (hn : pair.2 = .loadtimeLabel n) :
    n ∈ (LtTerm.jumpTable pairs).labels := by
  refine List.mem_flatMap.mpr ⟨pair, hpair, ?_⟩
  obtain ⟨value, loc⟩ := pair
  dsimp only at hn
  subst hn
  exact List.mem_cons_self

theorem writes_storeArg (hcapacity : l.code.words.length < l.code.capacity)
    (hlabels : ∀ n offset, (n, offset) ∈ l.labels → n ≠ 0 ∧ LabelAt instrs n offset)
    {t : LtTerm} {v : LoadVal} (hv : tables.resolveValue t = .ok v)
    (hlabelled : ∀ n ∈ t.labels, Labelled instrs n)
    (hlocations : ∀ pairs, t = .jumpTable pairs →
      ∀ pair ∈ pairs, ∃ n, pair.2 = .loadtimeLabel n) :
    ∃ cell, Writes l (l.storeArg v) [cell] ∧
      ArgWritten tables instrs l.code.buffer (l.storeArg v).jumpTables t cell := by
  cases t with
  | loadtimeLabel n =>
      unfold LoadTables.resolveValue at hv
      cases hv
      unfold CodeLoader.storeArg
      dsimp only
      split
      next offset hlookup =>
        obtain ⟨hne, hat⟩ := hlabels n offset (mem_of_lookup_eq_some hlookup)
        exact ⟨_, writes_push hcapacity _, .known hne hat⟩
      next hlookup =>
        have hpush := writes_push hcapacity (.val (.loadtimeLabel n))
        refine ⟨_, ?_, .pending (hlabelled n List.mem_cons_self)⟩
        exact ⟨hpush.words, hpush.buffer, hpush.capacity, rfl, rfl, rfl, hpush.jumpTables⟩
  | jumpTable pairs =>
      unfold LoadTables.resolveValue at hv
      obtain ⟨vals, hvals, hv⟩ := StateExcept.except_bind_eq_ok_iff.mp hv
      cases hv
      have hpush := writes_push hcapacity (.jumpTable l.jumpTables.length)
      refine ⟨.jumpTable l.jumpTables.length, ?_, ?_⟩
      · exact ⟨hpush.words, hpush.buffer, hpush.capacity, rfl, rfl, rfl, _, rfl⟩
      · refine .jumpTable (List.getElem?_concat_length ..) ?_
        refine resolvePairs_locations hvals fun pair hpair => ?_
        obtain ⟨n, hn⟩ := hlocations pairs rfl pair hpair
        exact ⟨n, hn, hlabelled n (LtTerm.mem_labels hpair hn)⟩
  | _ =>
      rw [storeArg_plain (isPlain_of_resolveValue rfl hv)]
      exact ⟨_, writes_push hcapacity _, .value rfl hv⟩

theorem writes_storeOpcodeArgs {operands : List LtTerm} {vals : List LoadVal}
    (hvals : List.Forall₂ (fun t v => tables.resolveValue t = .ok v) operands vals)
    (hcapacity : l.code.words.length + operands.length ≤ l.code.capacity)
    (hlabels : ∀ n offset, (n, offset) ∈ l.labels → n ≠ 0 ∧ LabelAt instrs n offset)
    (hlabelled : ∀ t ∈ operands, ∀ n ∈ t.labels, Labelled instrs n)
    (hlocations : ∀ pairs, .jumpTable pairs ∈ operands →
      ∀ pair ∈ pairs, ∃ n, pair.2 = .loadtimeLabel n) :
    ∃ cells, Writes l (l.storeOpcodeArgs vals) cells ∧
      List.Forall₂ (ArgWritten tables instrs l.code.buffer (l.storeOpcodeArgs vals).jumpTables)
        operands cells := by
  induction hvals generalizing l with
  | nil =>
      exact ⟨[], ⟨(List.append_nil _).symm, rfl, rfl, rfl, rfl, rfl, [],
        (List.append_nil _).symm⟩, .nil⟩
  | @cons t v operands vals hv hvals ih =>
      rw [List.length_cons] at hcapacity
      have hlt : l.code.words.length < l.code.capacity := by omega
      obtain ⟨cell, hwrites, hcell⟩ := writes_storeArg hlt hlabels hv
        (hlabelled t List.mem_cons_self)
        fun pairs ht => hlocations pairs (ht ▸ List.mem_cons_self)
      have hlength : (l.storeArg v).code.words.length = l.code.words.length + 1 := by
        rw [hwrites.words, List.length_append, List.length_singleton]
      obtain ⟨cells, hothers, hcells⟩ := ih (l := l.storeArg v)
        (by rw [hlength, hwrites.capacity]; omega)
        (by rw [hwrites.labels]; exact hlabels)
        (fun t ht => hlabelled t (List.mem_cons_of_mem _ ht))
        fun pairs hpairs => hlocations pairs (List.mem_cons_of_mem _ hpairs)
      obtain ⟨more, hmore⟩ := hothers.jumpTables
      rw [hwrites.buffer] at hcells
      refine ⟨[cell] ++ cells, hwrites.trans hothers, .cons ?_ hcells⟩
      change ArgWritten tables instrs _ ((l.storeArg v).storeOpcodeArgs vals).jumpTables t cell
      rw [hmore]
      exact hcell.append more

theorem writes_storeOpcode {operands : List LtTerm} {vals : List LoadVal}
    (hvals : List.Forall₂ (fun t v => tables.resolveValue t = .ok v) operands vals)
    (hcapacity : l.code.words.length + (operands.length + 1) ≤ l.code.capacity)
    (hlabels : ∀ n offset, (n, offset) ∈ l.labels → n ≠ 0 ∧ LabelAt instrs n offset)
    (hlabelled : ∀ t ∈ operands, ∀ n ∈ t.labels, Labelled instrs n)
    (hlocations : ∀ pairs, .jumpTable pairs ∈ operands →
      ∀ pair ∈ pairs, ∃ n, pair.2 = .loadtimeLabel n) (op : UInt8) :
    ∃ cells, Writes l (l.storeOpcode op vals) (.opcode op :: cells) ∧
      List.Forall₂ (ArgWritten tables instrs l.code.buffer (l.storeOpcode op vals).jumpTables)
        operands cells := by
  have hpush := writes_push (l := l) (by omega) (.opcode op)
  have hlength : (l.push (.opcode op)).code.words.length = l.code.words.length + 1 := by
    rw [hpush.words, List.length_append, List.length_singleton]
  obtain ⟨cells, hwrites, hcells⟩ := writes_storeOpcodeArgs (l := l.push (.opcode op)) hvals
    (by rw [hlength, hpush.capacity]; omega) (by rw [hpush.labels]; exact hlabels) hlabelled
    hlocations
  rw [hpush.buffer] at hcells
  exact ⟨cells, hpush.trans hwrites, hcells⟩

end Writing

/-! ## One instruction after the other -/

/-- A list is taken apart at one of its elements or at a last one that is added. -/
theorem split_concat_iff {α : Type} {xs : List α} {x : α} {P : List α → α → Prop} :
    (∃ pre y post, xs ++ [x] = pre ++ y :: post ∧ P pre y) ↔
      (∃ pre y post, xs = pre ++ y :: post ∧ P pre y) ∨ P xs x := by
  constructor
  · rintro ⟨pre, y, post, heq, hP⟩
    rcases List.eq_nil_or_concat post with rfl | ⟨post, z, rfl⟩
    · obtain ⟨rfl, hlast⟩ := List.append_inj' heq rfl
      cases hlast
      exact Or.inr hP
    · rw [List.concat_eq_append, ← List.cons_append, ← List.append_assoc] at heq
      exact Or.inl ⟨pre, y, post, (List.append_inj' heq rfl).1, hP⟩
  · rintro (⟨pre, y, post, rfl, hP⟩ | hP)
    · exact ⟨pre, y, post ++ [x], by rw [List.append_assoc, List.cons_append], hP⟩
    · exact ⟨xs, x, [], rfl, hP⟩

theorem labelAt_concat {done : List CodeInstr} {i : CodeInstr} {n offset : Nat} :
    LabelAt (done ++ [i]) n offset ↔
      LabelAt done n offset ∨ (i.defines? = some n ∧ offset = codeSize done) :=
  @split_concat_iff _ done i fun pre i => i.defines? = some n ∧ offset = codeSize pre

theorem funAt_concat {tables : LoadTables} {done : List CodeInstr} {i : CodeInstr} {f : LoadVal}
    {arity offset : Nat} :
    FunAt tables (done ++ [i]) f arity offset ↔ FunAt tables done f arity offset ∨
      (i.IsFuncInfo tables f arity ∧ offset = codeSize (done ++ [i])) :=
  @split_concat_iff _ done i fun pre i =>
    i.IsFuncInfo tables f arity ∧ offset = codeSize (pre ++ [i])

/-- The loader has written the instructions that are done, of all. -/
structure CodeWritten (tables : LoadTables) (instrs done : List CodeInstr) (l : CodeLoader) :
    Prop where
  code : ∃ segments, l.code.words = segments.flatten ∧
    List.Forall₂ (InstrIs (ArgWritten tables instrs l.code.buffer l.jumpTables)) done segments
  patches : Patches l
  capacity : measured instrs ≤ l.code.capacity
  labels : ∀ n offset, (n, offset) ∈ l.labels ↔ LabelAt done n offset
  funs : ∀ f arity offset, ((f, arity), offset) ∈ l.funs ↔ FunAt tables done f arity offset
  lines : ∀ line ∈ l.lineTable, line.1 ≤ l.code.words.length

section Instructions

variable {tables : LoadTables} {instrs done rest : List CodeInstr} {i : CodeInstr}
  {vals : List LoadVal} {l : CodeLoader}

theorem InstrIs.map {arg arg' : LtTerm → CodeCell → Prop} {f : CodeCell → CodeCell}
    {words : List CodeCell} (h : InstrIs arg i words)
    (hopcode : ∀ op, f (.opcode op) = .opcode op)
    (harg : ∀ t cell, arg t cell → arg' t (f cell)) : InstrIs arg' i (words.map f) := by
  rw [InstrIs] at h ⊢
  split at h
  next hemits =>
    obtain ⟨cells, rfl, hcells⟩ := h
    rw [if_pos hemits, List.map_cons, hopcode]
    refine ⟨cells.map f, rfl, ?_⟩
    rw [List.forall₂_map_right_iff]
    exact hcells.imp harg
  next hemits =>
    rw [if_neg hemits, h]
    rfl

/-- As many words are written as the instructions have. -/
theorem CodeWritten.length (hw : CodeWritten tables instrs done l) :
    l.code.words.length = codeSize done := by
  obtain ⟨segments, hwords, hsegments⟩ := hw.code
  rw [hwords, List.length_flatten, codeSize]
  congr 1
  clear hw hwords
  induction hsegments with
  | nil => rfl
  | cons hi _ ih => rw [List.map_cons, List.map_cons, length_of_instrIs hi, ih]

theorem CodeWritten.room (hw : CodeWritten tables instrs done l)
    (hinstrs : instrs = done ++ i :: rest) :
    l.code.words.length + i.size ≤ l.code.capacity := by
  have hmeasured := codeSize_le_measured instrs
  have hcapacity := hw.capacity
  have hsize : codeSize instrs = codeSize done + (i.size + codeSize rest) := by
    rw [hinstrs, codeSize_append, codeSize_cons]
  rw [hw.length]
  omega

theorem LabelAt.of_done (hinstrs : instrs = done ++ rest) {n offset : Nat}
    (h : LabelAt done n offset) : LabelAt instrs n offset := by
  obtain ⟨pre, i, post, rfl, hdefines, hoffset⟩ := h
  exact ⟨pre, i, post ++ rest, by rw [hinstrs, List.append_assoc, List.cons_append], hdefines,
    hoffset⟩

theorem WellFormedCode.defines_pos (hwf : WellFormedCode tables instrs) (hi : i ∈ instrs)
    {n : Nat} (h : i.defines? = some n) : n ≠ 0 := by
  rw [CodeInstr.defines?] at h
  split at h
  next hlabel =>
    obtain ⟨labelId, hpos, hoperands⟩ := hwf.label i hi hlabel
    rw [hoperands] at h
    cases h
    exact hpos.ne'
  next hlabel => cases h

/-- The labels that operands refer to are labels of the code. -/
theorem WellFormedCode.labelled (hwf : WellFormedCode tables instrs) (hi : i ∈ instrs)
    {t : LtTerm} (ht : t ∈ i.operands) {n : Nat} (hn : n ∈ t.labels) : Labelled instrs n := by
  rcases Nat.eq_zero_or_pos n with hzero | hpos
  · exact Or.inl hzero
  · have hcount := hwf.defined i hi t ht n hn hpos.ne'
    have hmem : n ∈ instrs.filterMap CodeInstr.defines? := by
      rw [← List.count_pos_iff, hcount]
      exact Nat.one_pos
    obtain ⟨j, hj, hdefines⟩ := List.mem_filterMap.mp hmem
    obtain ⟨pre, post, hsplit⟩ := List.append_of_mem hj
    exact Or.inr ⟨_, pre, j, post, hsplit, hdefines, rfl⟩

/-- The labels that were met are labels of the code. -/
theorem CodeWritten.known (hw : CodeWritten tables instrs done l)
    (hwf : WellFormedCode tables instrs) (hinstrs : instrs = done ++ rest) {n offset : Nat}
    (hmem : (n, offset) ∈ l.labels) : n ≠ 0 ∧ LabelAt instrs n offset := by
  have hat := ((hw.labels n offset).mp hmem).of_done hinstrs
  refine ⟨?_, hat⟩
  obtain ⟨pre, i, post, heq, hdefines, -⟩ := hat
  exact hwf.defines_pos (heq ▸ List.mem_append_right _ List.mem_cons_self) hdefines

/-- What an instruction may change of the code that is written. -/
theorem CodeWritten.concat (hw : CodeWritten tables instrs done l) {l' : CodeLoader}
    {words : List CodeCell} (hwrites : Writes { l with
      labels := l'.labels, funs := l'.funs, lineTable := l'.lineTable } l' words)
    (hi : InstrIs (ArgWritten tables instrs l.code.buffer l'.jumpTables) i words)
    (hpatches : Patches l')
    (hlabels : ∀ n offset, (n, offset) ∈ l'.labels ↔
      (n, offset) ∈ l.labels ∨ (i.defines? = some n ∧ offset = codeSize done))
    (hfuns : ∀ f arity offset, ((f, arity), offset) ∈ l'.funs ↔ ((f, arity), offset) ∈ l.funs ∨
      (i.IsFuncInfo tables f arity ∧ offset = codeSize (done ++ [i])))
    (hlines : ∀ line ∈ l'.lineTable, line.1 ≤ l.code.words.length) :
    CodeWritten tables instrs (done ++ [i]) l' where
  code := by
    obtain ⟨segments, hwords, hsegments⟩ := hw.code
    obtain ⟨more, hmore⟩ := hwrites.jumpTables
    refine ⟨segments ++ [words], ?_, ?_⟩
    · rw [hwrites.words, List.flatten_append, ← hwords, List.flatten_singleton]
    · rw [hwrites.buffer]
      refine List.rel_append (hsegments.imp fun i words h => ?_) (.cons hi .nil)
      rw [← List.map_id words, hmore]
      exact h.map (fun _ => rfl) fun t cell hcell => hcell.append more
  patches := hpatches
  capacity := hwrites.capacity ▸ hw.capacity
  labels := fun n offset => by rw [hlabels, labelAt_concat, hw.labels]
  funs := fun f arity offset => by rw [hfuns, funAt_concat, hw.funs]
  lines := fun line hline => by
    rw [hwrites.words, List.length_append]
    exact Nat.le_add_right_of_le (hlines line hline)

/-- An instruction that adds nothing to the code. -/
theorem CodeWritten.skip (hw : CodeWritten tables instrs done l) (hemits : i.emits = false)
    {labels : List (Nat × Nat)} {lineTable : List (Nat × Nat)}
    (hlabels : ∀ n offset, (n, offset) ∈ labels ↔
      (n, offset) ∈ l.labels ∨ (i.defines? = some n ∧ offset = codeSize done))
    (hlines : ∀ line ∈ lineTable, line.1 ≤ l.code.words.length) :
    CodeWritten tables instrs (done ++ [i])
      { l with labels := labels, lineTable := lineTable } := by
  have hinstr : InstrIs (ArgWritten tables instrs l.code.buffer l.jumpTables) i [] := by
    rw [InstrIs, if_neg (by rw [hemits]; exact Bool.false_ne_true)]
  have hnot : ∀ f arity, ¬ i.IsFuncInfo tables f arity := by
    rintro f arity ⟨hop, -, -⟩
    rw [CodeInstr.emits, hop] at hemits
    exact absurd hemits (by decide)
  have hpatches := hw.patches
  refine hw.concat ⟨(List.append_nil _).symm, rfl, rfl, rfl, rfl, rfl, [],
    (List.append_nil _).symm⟩ hinstr
    ⟨hpatches.words, hpatches.tables, hpatches.nodup, hpatches.pointed⟩ hlabels
    (fun f arity offset => ?_) hlines
  exact (or_iff_left fun h => hnot f arity h.1).symm

theorem CodeWritten.storeOpcode (hw : CodeWritten tables instrs done l)
    (hwf : WellFormedCode tables instrs) (hinstrs : instrs = done ++ i :: rest)
    (hvals : List.Forall₂ (fun t v => tables.resolveValue t = .ok v) i.operands vals)
    (hemits : i.emits = true) {funs : List ((LoadVal × Nat) × Nat)}
    (hfuns : ∀ f arity offset, ((f, arity), offset) ∈ funs ↔ ((f, arity), offset) ∈ l.funs ∨
      (i.IsFuncInfo tables f arity ∧ offset = codeSize (done ++ [i]))) :
    CodeWritten tables instrs (done ++ [i]) ({ l with funs := funs }.storeOpcode i.opcode vals) ∧
      ({ l with funs := funs }.storeOpcode i.opcode vals).code.buffer = l.code.buffer := by
  have hi : i ∈ instrs := hinstrs ▸ List.mem_append_right _ List.mem_cons_self
  have hroom := hw.room hinstrs
  rw [CodeInstr.size, if_pos hemits] at hroom
  obtain ⟨cells, hwrites, hcells⟩ := writes_storeOpcode (l := { l with funs := funs })
    hvals hroom (fun n offset hmem => hw.known hwf hinstrs hmem)
    (fun t ht n hn => hwf.labelled hi ht hn) (hwf.locations i hi) i.opcode
  have hinstr : InstrIs (ArgWritten tables instrs l.code.buffer
      ({ l with funs := funs }.storeOpcode i.opcode vals).jumpTables) i
      (.opcode i.opcode :: cells) := by
    rw [InstrIs, if_pos hemits]
    exact ⟨cells, rfl, hcells⟩
  have hdefines : i.defines? = none := by
    rw [CodeInstr.defines?, if_neg]
    intro hop
    rw [CodeInstr.emits, hop] at hemits
    exact absurd hemits (by decide)
  have hkept := hw.patches
  have hpatches : Patches { l with funs := funs } :=
    ⟨hkept.words, hkept.tables, hkept.nodup, hkept.pointed⟩
  refine ⟨hw.concat ?_ hinstr (hpatches.storeOpcode i.opcode vals) (fun n offset => ?_)
    (fun f arity offset => ?_) ?_, hwrites.buffer⟩
  · exact ⟨hwrites.words, hwrites.buffer, hwrites.capacity, rfl, rfl, rfl, hwrites.jumpTables⟩
  · rw [hwrites.labels, hdefines]
    simp
  · rw [hwrites.funs]
    exact hfuns f arity offset
  · rw [hwrites.lineTable]
    exact hw.lines

theorem isSmall_of_resolveValue {t : LtTerm} {v : LoadVal}
    (hv : tables.resolveValue t = .ok v) (hsmall : CodeLoader.isSmall v = true) :
    ∃ n, t = .small n ∧ v = .small n := by
  cases t with
  | small n =>
      unfold LoadTables.resolveValue at hv
      cases hv
      exact ⟨n, rfl, rfl⟩
  | loadtimeAtom index =>
      unfold LoadTables.resolveValue at hv
      rcases atomFromLoadtimeIndex_ok hv with rfl | ⟨t, rfl⟩
      · cases hsmall
      · cases hsmall
  | loadtimeLiteral index =>
      unfold LoadTables.resolveValue at hv
      obtain ⟨t, rfl⟩ := literal_ok hv
      cases hsmall
  | tuple | jumpTable =>
      unfold LoadTables.resolveValue at hv
      obtain ⟨vals, -, hv⟩ := StateExcept.except_bind_eq_ok_iff.mp hv
      cases hv
      cases hsmall
  | _ =>
      unfold LoadTables.resolveValue at hv
      cases hv
      cases hsmall

/-- A line is recorded, or nothing is done. -/
theorem recordLine_spec (hw : CodeWritten tables instrs done l)
    (hwf : WellFormedCode tables instrs) (hi : i ∈ instrs)
    (hvals : List.Forall₂ (fun t v => tables.resolveValue t = .ok v) i.operands vals)
    (hline : isLine i.opcode = true) :
    ∃ lineTable, l.recordLine vals = .ok { l with lineTable := lineTable } ∧
      ∀ line ∈ lineTable, line.1 ≤ l.code.words.length := by
  have hnonneg := hwf.line i hi hline
  unfold CodeLoader.recordLine
  generalize i.operands = operands at hvals hnonneg
  cases hvals with
  | nil => exact ⟨l.lineTable, rfl, hw.lines⟩
  | @cons t v operands vals hv hothers =>
      dsimp only
      split
      next hsmall =>
        obtain ⟨n, rfl, rfl⟩ := isSmall_of_resolveValue hv hsmall
        have hall : l.lineTable.getLast?.all (fun line => line.1 ≤ l.code.words.length) := by
          rw [Option.all_eq_true]
          intro line hline
          exact decide_eq_true (hw.lines line (List.mem_of_getLast? hline))
        have hn : ¬ n < 0 := Int.not_lt.mpr (hnonneg n rfl)
        simp only [CodeLoader.smallUnsigned, if_neg hn, hall]
        refine ⟨_, rfl, fun line hmem => ?_⟩
        rcases List.mem_append.mp hmem with hmem | hmem
        · exact hw.lines line hmem
        · rw [List.mem_singleton.mp hmem]
      next hsmall => exact ⟨l.lineTable, rfl, hw.lines⟩

/-- The function that a `func_info` begins. -/
theorem beginFunction_spec (hw : CodeWritten tables instrs done l)
    (hwf : WellFormedCode tables instrs) (hinstrs : instrs = done ++ i :: rest)
    (harity : opcodeArity i.opcode = some i.operands.length)
    (hvals : List.Forall₂ (fun t v => tables.resolveValue t = .ok v) i.operands vals)
    (hop : i.opcode = opcodeFuncInfo) :
    ∃ l', l.beginFunction i.opcode vals = .ok l' ∧
      CodeWritten tables instrs (done ++ [i]) l' ∧ l'.code.buffer = l.code.buffer := by
  have hi : i ∈ instrs := hinstrs ▸ List.mem_append_right _ List.mem_cons_self
  obtain ⟨arity, hsmall⟩ := hwf.funcInfo i hi hop
  have hemits : i.emits = true := by
    rw [CodeInstr.emits, hop]
    decide
  have hthree : i.operands.length = 3 := by
    rw [hop] at harity
    exact (Option.some.inj harity).symm
  have hsize : codeSize (done ++ [i]) = l.code.words.length + 4 := by
    rw [codeSize_append, hw.length, codeSize_cons, CodeInstr.size, if_pos hemits, hthree]
    rfl
  obtain ⟨m, f, a, hoperands⟩ := List.length_eq_three.mp hthree
  have hf := hvals
  rw [hoperands] at hf hsmall
  cases hf with
  | cons hm hf =>
      cases hf with
      | @cons _ v _ _ hfun hf =>
          cases hf with
          | cons ha hnil =>
              cases hnil
              cases hsmall
              unfold LoadTables.resolveValue at ha
              cases ha
              have hnonneg : ¬ (arity : Int) < 0 := Int.not_lt.mpr (Int.natCast_nonneg arity)
              unfold CodeLoader.beginFunction
              dsimp only [List.getElem?_cons_succ, List.getElem?_cons_zero]
              simp only [CodeLoader.smallUnsigned, if_neg hnonneg, Int.toNat_natCast]
              refine ⟨_, rfl, hw.storeOpcode hwf hinstrs hvals hemits fun g n offset => ?_⟩
              rw [List.mem_cons, or_comm]
              refine or_congr_right ?_
              rw [hsize]
              constructor
              · intro heq
                cases heq
                exact ⟨⟨hop, ⟨f, by rw [hoperands]; rfl, hfun⟩, by rw [hoperands]; rfl⟩, rfl⟩
              · rintro ⟨⟨-, ⟨t, ht, hg⟩, hn⟩, rfl⟩
                rw [hoperands] at ht hn
                cases ht
                cases hn
                rw [hfun] at hg
                cases hg
                rfl

/-- An instruction of well-formed code is taken in. -/
theorem CodeWritten.storeInstruction (hw : CodeWritten tables instrs done l)
    (hwf : WellFormedCode tables instrs) (hinstrs : instrs = done ++ i :: rest)
    (harity : opcodeArity i.opcode = some i.operands.length)
    (hvals : List.Forall₂ (fun t v => tables.resolveValue t = .ok v) i.operands vals) :
    ∃ l', l.storeInstruction i.opcode vals = .ok l' ∧
      CodeWritten tables instrs (done ++ [i]) l' ∧ l'.code.buffer = l.code.buffer := by
  have hi : i ∈ instrs := hinstrs ▸ List.mem_append_right _ List.mem_cons_self
  unfold CodeLoader.storeInstruction
  split
  next hop =>
    obtain ⟨n, hpos, hoperands⟩ := hwf.label i hi hop
    have hdefines : i.defines? = some n := by
      rw [CodeInstr.defines?, if_pos hop, hoperands]
      rfl
    have hemits : i.emits = false := by
      rw [CodeInstr.emits, hop]
      rfl
    rw [hoperands] at hvals
    cases hvals with
    | cons hv hnil =>
        cases hnil
        unfold LoadTables.resolveValue at hv
        cases hv
        refine ⟨_, rfl, hw.skip hemits (fun labelId offset => ?_) hw.lines, rfl⟩
        rw [List.mem_cons, or_comm, hdefines, hw.length]
        simp [eq_comm]
  next hnotLabel =>
    split
    next hline =>
      obtain ⟨lineTable, hrecord, hlines⟩ := recordLine_spec hw hwf hi hvals hline
      refine ⟨_, hrecord, hw.skip ?_ (fun n offset => ?_) hlines, rfl⟩
      · rw [CodeInstr.emits, hline]
        exact Bool.and_false _
      · rw [CodeInstr.defines?, if_neg hnotLabel]
        simp
    next hnotLine =>
      split
      next hop => exact beginFunction_spec hw hwf hinstrs harity hvals hop
      next hnotFuncInfo =>
        have hemits : i.emits = true := by simp [CodeInstr.emits, hnotLabel, hnotLine]
        refine ⟨_, rfl, hw.storeOpcode hwf hinstrs hvals hemits fun f arity offset => ?_⟩
        exact (or_iff_left fun h => hnotFuncInfo h.1.1).symm

end Instructions

end Zeptobeam
