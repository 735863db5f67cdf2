/-
The builder: `bs_append` makes the binary that the instructions after it write to, each of
them behind the one before.  With the two ways to construct a binary taken together, where
they do what they should.
-/
import Zeptobeam.BinaryCreation

namespace Zeptobeam

namespace Building

open BitString BitsPaste ExceptState
open MatchContexts (UnitFits)

/-- An instruction that writes, with its operands loaded. -/
inductive PutOp where
  | integer (size unit flags : Nat) (src : BuildTerm)
  | binary (hasFail : Bool) (size : Option Nat) (unit : Nat) (src : BuildTerm)

/-- The instruction that the builder begins with. -/
structure Append where
  hasFail : Bool
  sz : Nat
  unit : Nat
  bin : BuildTerm
  dst : Reg

def performPut (debug : Bool) (word : BuildTerm → Nat) : PutOp → Building Dispatch
  | .integer size unit flags src => bsPutInteger debug size unit flags src
  | .binary hasFail size unit src => bsPutBinary debug word hasFail (sizeTerm size) unit src

/-- One after the other, as long as none jumps. -/
def putAll (debug : Bool) (word : BuildTerm → Nat) : List PutOp → Building Dispatch
  | [] => return .next
  | op :: ops => do
      match ← performPut debug word op with
      | .jump => return .jump
      | .next => putAll debug word ops

def build (debug : Bool) (word : BuildTerm → Nat) (start : Append) (ops : List PutOp) :
    Building Dispatch := do
  match ← bsAppend debug start.hasFail start.sz start.unit start.bin start.dst with
  | .jump => return .jump
  | .next => putAll debug word ops

/-! ## What is meant -/

/-- The bits of an instruction, or its way to fail. -/
def putBits (binaries : List ProcessHeapBinary) : PutOp → Except Bool (List Bool)
  | .integer size unit flags src =>
      meantOr false ((integerValue src).map fun v =>
        integerBits (meantFlags (.small flags)) v (size * unit))
  | .binary hasFail size unit src =>
      meantOr hasFail ((termBits binaries src).bind fun bs =>
        match size with
        | none => some bs
        | some n => if n * unit ≤ bs.length then some (bs.take (n * unit)) else none)

/-- The bits of the instructions, up to the first one that fails. -/
def putsBits (binaries : List ProcessHeapBinary) : List PutOp → Except Bool (List Bool)
  | [] => .ok []
  | op :: ops => do return (← putBits binaries op) ++ (← putsBits binaries ops)

def builderBits (binaries : List ProcessHeapBinary) (start : Append) (ops : List PutOp) :
    Except Bool (List Bool) := do
  return (← meantOr start.hasFail (termBits binaries start.bin)) ++ (← putsBits binaries ops)

/-! ## What the builder is given -/

/-- A binary on the heap, or a slice that lies in its binary. -/
def RefIn (binaries : List ProcessHeapBinary) : BinaryRef → Prop
  | .procHeap addr => addr < binaries.length
  | .slice orig offset size =>
      RefIn binaries orig ∧ ∃ n, refSize binaries orig = some n ∧ offset + size ≤ n

/-- Integers are placed well, and of binaries nothing is put; a binary that is too short
makes its instruction jump. -/
def PutsPlaced (debug : Bool) (binaries : List ProcessHeapBinary) (total : Nat) :
    Nat → List PutOp → Prop
  | offset, [] => offset = total
  | offset, .integer size unit flags src :: ops =>
      (unit = 1 ∨ size = 0) ∧ offset + size ≤ total ∧
        IntegerPlaced debug (meantFlags (.small flags)) offset size total src ∧
        PutsPlaced debug binaries total (offset + size) ops
  | offset, .binary hasFail size unit src :: ops =>
      ∃ n ref m, size = some n ∧ n < 2 ^ 60 ∧ src = .binary ref ∧ RefIn binaries ref ∧
        refSize binaries ref = some m ∧
        (n = 0 ∧ offset ≤ m ∧ PutsPlaced debug binaries total offset ops ∨
          hasFail = true ∧ m < n * unit ∧ m < offset + n)

/-- The binary that is appended to, which is no slice where there is something in it. -/
def Appendable (binaries : List ProcessHeapBinary) (bin : BuildTerm) (existing : Nat) : Prop :=
  bin = .emptyBinary ∧ existing = 0 ∨
    ∃ ref, bin = .binary ref ∧ refSize binaries ref = some existing ∧
      (existing = 0 ∨ ∃ addr, ref = .procHeap addr)

/-- There is room for the binary, and every instruction writes as it should. -/
def Built (debug : Bool) (s : BuildProcess) (start : Append) (ops : List PutOp) : Prop :=
  ∃ existing total, Appendable s.binaries start.bin existing ∧
    total = existing + start.sz * start.unit ∧ start.hasFail = false ∧ Takes s start.dst ∧
    0 < total ∧ total ≤ 512 ∧ s.heapTop + storageSize debug total < s.stackTop ∧
    PutsPlaced debug s.binaries total existing ops

def BuilderGuard (debug : Bool) (s : BuildProcess) (start : Append) (ops : List PutOp) : Prop :=
  UnitFits debug start.sz start.unit ∧
    (termBits s.binaries start.bin = none ∨
      Appendable s.binaries start.bin 0 ∧ start.sz * start.unit = 0 ∧ ops = [] ∧
        Takes s start.dst ∨
      Built debug s start ops)

/-! ## Writing -/

variable {debug hasFail : Bool} {word : BuildTerm → Nat} {s st : BuildProcess} {dst : Reg}
  {binaries : List ProcessHeapBinary} {bin : ProcessHeapBinary} {data : List UInt8}
  {offset size total : Nat} {ref : BinaryRef} {ops : List PutOp} {op : PutOp}

/-- The builder has come to an offset of its binary. -/
structure WritesAt (binaries : List ProcessHeapBinary) (total : Nat) (data : List UInt8)
    (offset : Nat) (st : BuildProcess) : Prop where
  last : st.binaries = binaries ++ [⟨total, data⟩]
  current : st.currentBin = ⟨some binaries.length, offset⟩

theorem WritesAt.run_currentDst (h : WritesAt binaries total data offset st) :
    run (currentDst debug) st = (.ok binaries.length, st) := by
  rw [currentDst, run_bind_ok (run_get st), h.current]
  rfl

theorem WritesAt.run_advance (debug : Bool) (size : Nat)
    (h : WritesAt binaries total data offset st)
    (hword : offset + size < 2 ^ 64) :
    run (advance debug size) st =
      (.ok (), { st with currentBin := ⟨some binaries.length, offset + size⟩ }) := by
  rw [advance, run_bind_ok (run_get st), h.current,
    run_bind_ok (run_lift_ok (addWords_of_lt hword) st)]
  rfl

theorem WritesAt.run_bsPutInteger (h : WritesAt binaries total data offset st) {flags : Nat}
    {src : BuildTerm} (unit : Nat)
    (hplaced : IntegerPlaced debug (meantFlags (.small flags)) offset size total src)
    (hroom : offset + size ≤ total) (htotal : total ≤ 512)
    (hlength : data.length = byteSizeRoundedUp total)
    (hclear : ∀ k < 8, offset ≤ 8 * k → k < data.length → data[k]? = some 0) :
    ∃ data' st' v, run (bsPutInteger debug size unit flags src) st = (.ok .next, st') ∧
      SameRegisters st st' ∧ WritesAt binaries total data' (offset + size) st' ∧
      integerValue src = some v ∧
      Puts data data' offset (integerBits (meantFlags (.small flags)) v size) := by
  have horder := sameOrder_fromBitsTruncate flags
  obtain ⟨data', v, hput, hvalue, hputs⟩ := run_putInteger h.last
    (horder.integerPlaced hplaced) hroom htotal hlength hclear
  rw [horder.integerBits_eq] at hputs
  have hafter : WritesAt binaries total data' offset
      { st with binaries := binaries ++ [⟨total, data'⟩] } := ⟨rfl, h.current⟩
  obtain ⟨st', hst'⟩ : ∃ st' : BuildProcess, st' = { st with
      binaries := binaries ++ [⟨total, data'⟩]
      currentBin := ⟨some binaries.length, offset + size⟩ } := ⟨_, rfl⟩
  refine ⟨data', st', v, ?_, by rw [hst']; exact ⟨rfl, rfl⟩, by rw [hst']; exact ⟨rfl, rfl⟩,
    hvalue, hputs⟩
  rw [bsPutInteger, run_bind_ok h.run_currentDst, run_bind_ok (run_get st), h.current,
    run_bind_ok hput, run_bind_ok (hafter.run_advance debug size (by omega)), run_pure, hst']

theorem refSize_append (h : refSize binaries ref = some size) (other : ProcessHeapBinary) :
    refSize (binaries ++ [other]) ref = some size := by
  cases ref with
  | procHeap addr =>
      obtain ⟨bin, hbin, hsize⟩ := Option.map_eq_some_iff.mp h
      rw [refSize, getElem?_before hbin, Option.map_some, hsize]
  | slice orig offset n => exact h

theorem ne_last (h : refSize binaries ref = some size) :
    BinaryRef.procHeap binaries.length ≠ ref := by
  rintro rfl
  simp [refSize] at h

theorem getSizeOrAll_of_lt {n : Nat} (hn : n < 2 ^ 60) :
    getSizeOrAll debug word (sizeTerm (some n)) = .ok (.bits n) := by
  simp only [sizeTerm, getSizeOrAll, getSmallUnsigned_nat debug word hn, bind, Except.bind]
  rfl

theorem modify_same {addr : Nat} (h : binaries[addr]? = some bin) :
    (binaries.modify addr fun b => { b with data := bin.data }) = binaries := by
  refine List.ext_getElem? fun i => ?_
  rw [List.getElem?_modify]
  by_cases hi : addr = i
  · subst hi
    rw [h]
    simp
  · simp [hi]

theorem WritesAt.run_putBinary_zero (debug : Bool)
    (h : WritesAt binaries total data offset st)
    (hsize : refSize binaries ref = some size) (hle : offset ≤ size) (htotal : offset ≤ 512) :
    run (putBinary debug (.procHeap binaries.length) (.bits 0) ref offset) st = (.ok 0, st) := by
  have hlastIn : st.binaries[binaries.length]? = some ⟨total, data⟩ := by
    rw [h.last]
    exact getElem?_last
  have hdstSize : run (getBitSize ref) st = (.ok size, st) := by
    apply run_getBitSize
    rw [h.last]
    exact refSize_append hsize _
  have hsrcData : run (getData (.procHeap binaries.length)) st = (.ok data, st) := by
    rw [getData, run_bind_ok (run_getBinary hlastIn)]
    rfl
  have hcopy : ∀ dstData : List UInt8, (if lastByteBits offset = 0 then
        copyBitsFromOffset0BytealignedDst data 0 dstData offset
      else copyBits debug data 0 dstData offset 0) = .ok dstData := by
    intro dstData
    split
    · rfl
    · rfl
  -- the data of the source is written back to it
  obtain ⟨dstData, hdstData, hback⟩ : ∃ dstData, run (getDataMut ref) st = (.ok dstData, st) ∧
      run (setData ref dstData) st = (.ok (), st) := by
    cases ref with
    | procHeap addr =>
        obtain ⟨bin, hbin, -⟩ := Option.map_eq_some_iff.mp hsize
        have hin : st.binaries[addr]? = some bin := by
          rw [h.last]
          exact getElem?_before hbin _
        refine ⟨bin.data, ?_, ?_⟩
        · rw [getDataMut, run_bind_ok (run_getBinary hin)]
          rfl
        · change (Except.ok (), { st with binaries := st.binaries.modify addr _ }) = _
          rw [modify_same hin]
    | slice orig offset n => exact ⟨[], rfl, rfl⟩
  have hcount : run (sizeToCopy (.procHeap binaries.length) (.bits 0)) st = (.ok 0, st) := rfl
  have hwords : addWords debug offset 0 = .ok (offset + 0) := addWords_of_lt (by omega)
  rw [putBinary, run_bind_ok hcount, run_bind_ok hdstSize, run_bind_ok (run_lift_ok hwords st),
    if_neg (by omega), run_bind_ok hsrcData, run_bind_ok hdstData, if_neg (ne_last hsize),
    run_bind_ok (run_lift_ok (hcopy dstData) st), run_bind_ok hback, run_pure]

theorem WritesAt.run_bsPutBinary_zero (debug hasFail : Bool) (word : BuildTerm → Nat)
    (h : WritesAt binaries total data offset st)
    (hsize : refSize binaries ref = some size) (hle : offset ≤ size) (htotal : offset ≤ 512)
    (unit : Nat) :
    run (bsPutBinary debug word hasFail (sizeTerm (some 0)) unit (.binary ref)) st =
      (.ok .next, st) := by
  have hput := h.run_putBinary_zero debug hsize hle htotal
  have hattempt : run (attempt (putBinary debug (.procHeap binaries.length) (.bits 0) ref offset))
      st = (.ok (.ok 0), st) := by
    rw [run_attempt, hput]
  have hstay : { st with currentBin := ⟨some binaries.length, offset + 0⟩ } = st := by
    rw [Nat.add_zero, ← h.current]
  have hadvance := h.run_advance debug 0 (by omega)
  rw [hstay] at hadvance
  have htrait : run (traitFromTerm (.binary ref)) st = (.ok ref, st) := rfl
  rw [bsPutBinary, run_bind_ok h.run_currentDst,
    run_bind_ok (run_lift_ok (getSizeOrAll_of_lt (by decide)) st), run_bind_ok htrait,
    run_bind_ok (run_get st), h.current]
  simp only
  rw [run_bind_ok hattempt]
  simp only
  rw [run_bind_ok hadvance, run_pure]

/-- A binary that does not reach to where the offset is with the size. -/
theorem WritesAt.run_bsPutBinary_short (debug : Bool) (word : BuildTerm → Nat)
    (h : WritesAt binaries total data offset st) {n : Nat}
    (hsize : refSize binaries ref = some size) (hshort : size < offset + n) (hn : n < 2 ^ 60)
    (htotal : offset ≤ 512) (unit : Nat) :
    run (bsPutBinary debug word true (sizeTerm (some n)) unit (.binary ref)) st =
      (.ok .jump, st) := by
  have hdstSize : run (getBitSize ref) st = (.ok size, st) := by
    apply run_getBitSize
    rw [h.last]
    exact refSize_append hsize _
  have hcount : run (sizeToCopy (.procHeap binaries.length) (.bits n)) st = (.ok n, st) := rfl
  have hwords : addWords debug offset n = .ok (offset + n) := addWords_of_lt (by omega)
  have hput : run (putBinary debug (.procHeap binaries.length) (.bits n) ref offset) st =
      (.error .binaryDestinationTooSmall, st) := by
    rw [putBinary, run_bind_ok hcount, run_bind_ok hdstSize, run_bind_ok (run_lift_ok hwords st),
      if_pos (by omega)]
    rfl
  have hattempt : run (attempt (putBinary debug (.procHeap binaries.length) (.bits n) ref offset))
      st = (.ok (.error .binaryDestinationTooSmall), st) := by
    rw [run_attempt, hput]
  have htrait : run (traitFromTerm (.binary ref)) st = (.ok ref, st) := rfl
  rw [bsPutBinary, run_bind_ok h.run_currentDst,
    run_bind_ok (run_lift_ok (getSizeOrAll_of_lt hn) st), run_bind_ok htrait,
    run_bind_ok (run_get st), h.current]
  simp only
  rw [run_bind_ok hattempt]
  rfl

theorem length_refBits (hbinaries : ∀ bin ∈ binaries, bin.WellFormed) (hin : RefIn binaries ref)
    (hsize : refSize binaries ref = some size) : (refBits binaries ref).length = size := by
  induction ref generalizing size with
  | procHeap addr =>
      obtain ⟨bin, hbin, rfl⟩ := Option.map_eq_some_iff.mp hsize
      have hlength := hbinaries bin (List.mem_of_getElem? hbin)
      unfold ProcessHeapBinary.WellFormed byteSizeRoundedUp at hlength
      rw [refBits, hbin, Option.elim_some, List.length_take, length_bits]
      omega
  | slice orig offset n ih =>
      obtain ⟨hin, m, hm, hle⟩ := hin
      have hlength := ih hin hm
      rw [refBits, List.length_take, List.length_drop, ← Option.some.inj hsize]
      omega

theorem SameRegisters.trans {st' : BuildProcess} (h : SameRegisters s st)
    (h' : SameRegisters st st') : SameRegisters s st' :=
  ⟨h'.1.trans h.1, h'.2.trans h.2⟩

/-- The data that the instructions come to, or that one of them jumps with. -/
def PutFrom (binaries : List ProcessHeapBinary) (total : Nat) (ops : List PutOp)
    (data data' : List UInt8) (offset : Nat) (result : Dispatch) : Prop :=
  (result = .next ∧ ∃ bs, putsBits binaries ops = .ok bs ∧ offset + bs.length = total ∧
      Puts data data' offset bs) ∨
    result = .jump ∧ putsBits binaries ops = .error true

theorem PutFrom.cons {bs : List Bool} {data1 data' : List UInt8} {result : Dispatch}
    (hop : putBits binaries op = .ok bs) (hputs : Puts data data1 offset bs)
    (h : PutFrom binaries total ops data1 data' (offset + bs.length) result) :
    PutFrom binaries total (op :: ops) data data' offset result := by
  unfold PutFrom at h ⊢
  rw [putsBits, hop]
  rcases h with ⟨rfl, more, hmore, hend, hmorePuts⟩ | ⟨rfl, hfail⟩
  · rw [hmore]
    refine Or.inl ⟨rfl, bs ++ more, rfl, ?_, hputs.trans hmorePuts⟩
    rw [List.length_append, ← Nat.add_assoc, hend]
  · rw [hfail]
    exact Or.inr ⟨rfl, rfl⟩

theorem run_putAll (word : BuildTerm → Nat)
    (hbinaries : ∀ bin ∈ binaries, bin.WellFormed)
    (hplaced : PutsPlaced debug binaries total offset ops)
    (h : WritesAt binaries total data offset st) (hin : offset ≤ total) (htotal : total ≤ 512)
    (hlength : data.length = byteSizeRoundedUp total)
    (hclear : ∀ k < 8, offset ≤ 8 * k → k < data.length → data[k]? = some 0) :
    ∃ data' result st', run (putAll debug word ops) st = (.ok result, st') ∧
      SameRegisters st st' ∧ st'.binaries = binaries ++ [⟨total, data'⟩] ∧
      PutFrom binaries total ops data data' offset result := by
  induction ops generalizing offset data st with
  | nil =>
      exact ⟨data, .next, st, rfl, ⟨rfl, rfl⟩, h.last,
        Or.inl ⟨rfl, [], rfl, hplaced, Puts.nil data offset⟩⟩
  | cons op ops ih =>
      cases op with
      | integer size unit flags src =>
          obtain ⟨hunit, hroom, hhere, hrest⟩ := hplaced
          obtain ⟨data1, st1, v, hrun, hsame, hafter, hvalue, hputs⟩ :=
            h.run_bsPutInteger unit hhere hroom htotal hlength hclear
          have hmeant : putBits binaries (.integer size unit flags src) =
              .ok (integerBits (meantFlags (.small flags)) v size) := by
            have hproduct : size * unit = size := by
              rcases hunit with rfl | rfl
              · exact Nat.mul_one size
              · exact Nat.zero_mul unit
            rw [putBits, hvalue, hproduct]
            rfl
          obtain ⟨data', result, st', hrun', hsame', hlast, hfrom⟩ := ih hrest hafter hroom
            (by rw [hputs.length, hlength])
            (fun k hk hle hlt => by
              rw [hputs.after k (by rw [length_integerBits]; exact hle),
                hclear k hk (by omega) (by rwa [hputs.length] at hlt)])
          refine ⟨data', result, st', ?_, hsame.trans hsame', hlast,
            PutFrom.cons hmeant hputs (by rwa [length_integerBits])⟩
          rw [putAll, performPut, run_bind_ok hrun]
          exact hrun'
      | binary hasFail size unit src =>
          obtain ⟨n, ref, m, rfl, hn, rfl, hrefIn, hsize, hcase⟩ := hplaced
          have hbits := length_refBits hbinaries hrefIn hsize
          rcases hcase with ⟨rfl, hle, hrest⟩ | ⟨rfl, hshort, hend⟩
          · have hrun := h.run_bsPutBinary_zero debug hasFail word hsize hle (by omega) unit
            have hmeant : putBits binaries (.binary hasFail (some 0) unit (.binary ref)) =
                .ok [] := by
              simp [putBits, termBits, meantOr]
            obtain ⟨data', result, st', hrun', hsame, hlast, hfrom⟩ :=
              ih hrest h hin hlength hclear
            refine ⟨data', result, st', ?_, hsame, hlast,
              PutFrom.cons hmeant (Puts.nil data offset) hfrom⟩
            rw [putAll, performPut, run_bind_ok hrun]
            exact hrun'
          · have hrun := h.run_bsPutBinary_short debug word hsize hend hn
              (by omega) unit
            have hmeant : putBits binaries (.binary true (some n) unit (.binary ref)) =
                .error true := by
              simp [putBits, termBits, meantOr, hbits, Nat.not_le.mpr hshort]
            refine ⟨data, .jump, st, ?_, ⟨rfl, rfl⟩, h.last, Or.inr ⟨rfl, ?_⟩⟩
            · rw [putAll, performPut, run_bind_ok hrun]
              rfl
            · rw [putsBits, hmeant]
              rfl

/-! ## The binary that is made -/

variable {existing : Nat} {start : Append}

theorem run_copyExisting (hbinaries : ∀ bin ∈ binaries, bin.WellFormed)
    (hlast : st.binaries = binaries ++ [⟨total, data⟩])
    (hsize : refSize binaries ref = some existing)
    (hcopied : existing = 0 ∨ ∃ addr, ref = .procHeap addr) (hle : existing ≤ total)
    (hlength : data.length = byteSizeRoundedUp total) :
    ∃ data', run (bsAppend.copyExisting binaries.length (some ref) existing) st =
        (.ok (), { st with binaries := binaries ++ [⟨total, data'⟩] }) ∧
      Puts data data' 0 (refBits binaries ref) := by
  by_cases hempty : existing = 0
  · subst hempty
    refine ⟨data, ?_, by rw [refBits_of_empty hsize]; exact Puts.nil data 0⟩
    rw [bsAppend.copyExisting, if_pos rfl, ← hlast]
    rfl
  · obtain ⟨addr, rfl⟩ := hcopied.resolve_left hempty
    obtain ⟨bin, hbin, rfl⟩ := Option.map_eq_some_iff.mp hsize
    have hwell := hbinaries bin (List.mem_of_getElem? hbin)
    have hsrcIn : st.binaries[addr]? = some bin := by
      rw [hlast]
      exact getElem?_before hbin _
    have hdstIn : st.binaries[binaries.length]? = some ⟨total, data⟩ := by
      rw [hlast]
      exact getElem?_last
    have hsrcData : run (getData (.procHeap addr)) st = (.ok bin.data, st) := by
      rw [getData, run_bind_ok (run_getBinary hsrcIn)]
      rfl
    have hdstData : run (getDataMut (.procHeap binaries.length)) st = (.ok data, st) := by
      rw [getDataMut, run_bind_ok (run_getBinary hdstIn)]
      rfl
    unfold ProcessHeapBinary.WellFormed at hwell
    have hall : min (min (byteSizeRoundedUp bin.size) bin.data.length) data.length =
        bin.data.length := by
      unfold byteSizeRoundedUp at hwell hlength ⊢
      omega
    refine ⟨pasteBytes data 0 bin.data, ?_, ?_⟩
    · rw [bsAppend.copyExisting, if_neg hempty, run_bind_ok hsrcData, run_bind_ok hdstData]
      simp only [hall, List.take_length]
      exact run_setData hlast _
    · rw [refBits, hbin, Option.elim_some]
      have hputs : Puts data (pasteBytes data 0 bin.data) 0 (bits bin.data) :=
        puts_pasteBytes (by unfold byteSizeRoundedUp at hwell hlength; omega)
      refine hputs.take_bits fun k hk => ?_
      rw [length_bits, hwell]
      unfold byteSizeRoundedUp
      omega

@[simp]
theorem currentBin_put (s : BuildProcess) (t : BuildTerm) (dst : Reg) :
    (put s t dst).currentBin = s.currentBin := by
  cases dst <;> rfl

/-- The new binary is stored, with the bits of the one that is appended to. -/
structure Opened (debug : Bool) (s : BuildProcess) (dst : Reg) (total existing : Nat)
    (bs : List Bool) (data : List UInt8) (st : BuildProcess) : Prop where
  x : st.x = (put s (.binary (.procHeap s.binaries.length)) dst).x
  stack : st.stack = (put s (.binary (.procHeap s.binaries.length)) dst).stack
  writes : WritesAt s.binaries total data existing st
  puts : Puts (newData debug s total) data 0 bs
  length : bs.length = existing

theorem run_create {additional : Nat} {bin : Option BinaryRef} {bs : List Bool}
    (hcopy : ∀ st : BuildProcess, ∀ data : List UInt8,
      st.binaries = s.binaries ++ [⟨total, data⟩] → data.length = byteSizeRoundedUp total →
        ∃ data', run (bsAppend.copyExisting s.binaries.length bin existing) st =
            (.ok (), { st with binaries := s.binaries ++ [⟨total, data'⟩] }) ∧
          Puts data data' 0 bs)
    (hbits : bs.length = existing) (htotal : total = existing + additional) (hpos : 0 < total)
    (hle : total ≤ 512) (hroom : s.heapTop + storageSize debug total < s.stackTop)
    (hdst : Takes s dst) :
    ∃ data st, run (bsAppend.create debug false dst additional bin existing) s =
        (.ok .next, st) ∧ Opened debug s dst total existing bs data st := by
  subst htotal
  have hwords : addWords debug existing additional = .ok (existing + additional) :=
    addWords_of_lt (by omega)
  have hthreshold : byteSizeRoundedUp (existing + additional) ≤ onheapThreshold := by
    unfold onheapThreshold byteSizeRoundedUp
    omega
  have hensure := run_ensureHeap s (Nat.le_of_lt hroom)
  have hcreate := run_createInto debug s hpos hle hroom
  obtain ⟨data', hcopied, hputs⟩ := hcopy (withBinary debug s (existing + additional))
    (newData debug s (existing + additional)) rfl (length_newData debug s _)
  obtain ⟨opened, hopened⟩ : ∃ opened : BuildProcess,
      opened = { withBinary debug s (existing + additional) with
        binaries := s.binaries ++ [⟨existing + additional, data'⟩]
        currentBin := ⟨some s.binaries.length, existing⟩ } := ⟨_, rfl⟩
  have hsame : SameRegisters s opened := by
    rw [hopened]
    exact ⟨rfl, rfl⟩
  have hstore := run_storeValue (.binary (.procHeap s.binaries.length)) (hsame.takes hdst)
  obtain ⟨hx, hstack⟩ := hsame.put_eq (.binary (.procHeap s.binaries.length)) dst
  refine ⟨data', _, ?_, hx, hstack, ⟨?_, ?_⟩, hputs, hbits⟩
  · rw [bsAppend.create, run_bind_ok (run_lift_ok hwords s), if_neg (Nat.ne_of_gt hpos),
      if_neg (fun h => Bool.noConfusion h.1)]
    simp only [if_pos hthreshold]
    rw [run_bind_ok hensure, run_bind_ok hcreate, run_bind_ok hcopied,
      run_bind_ok (run_modify _ _), ← hopened, run_bind_ok hstore, run_pure]
  · rw [binaries_put, hopened]
  · rw [currentBin_put, hopened]

theorem run_bsAppend (hbinaries : ∀ bin ∈ s.binaries, bin.WellFormed)
    (hunit : UnitFits debug start.sz start.unit) (hfail : start.hasFail = false)
    (hin : Appendable s.binaries start.bin existing)
    (htotal : total = existing + start.sz * start.unit) (hpos : 0 < total) (hle : total ≤ 512)
    (hroom : s.heapTop + storageSize debug total < s.stackTop) (hdst : Takes s start.dst) :
    ∃ bs data st,
      run (bsAppend debug start.hasFail start.sz start.unit start.bin start.dst) s =
        (.ok .next, st) ∧ termBits s.binaries start.bin = some bs ∧
      Opened debug s start.dst total existing bs data st := by
  have hadditional := run_lift_ok (withUnit_of_fits hunit) s
  rcases hin with ⟨hbin, rfl⟩ | ⟨ref, hbin, hsize, hcopied⟩
  · have hcopy : ∀ st : BuildProcess, ∀ data : List UInt8,
        st.binaries = s.binaries ++ [⟨total, data⟩] → data.length = byteSizeRoundedUp total →
          ∃ data', run (bsAppend.copyExisting s.binaries.length none 0) st =
              (.ok (), { st with binaries := s.binaries ++ [⟨total, data'⟩] }) ∧
            Puts data data' 0 [] := by
      intro st data hlast _
      refine ⟨data, ?_, Puts.nil data 0⟩
      rw [← hlast]
      rfl
    obtain ⟨data, st, hrun, hopened⟩ := run_create hcopy rfl htotal hpos hle hroom hdst
    refine ⟨[], data, st, ?_, by rw [hbin]; rfl, hopened⟩
    rw [hbin, hfail, bsAppend, run_bind_ok hadditional]
    exact hrun
  · have hinTotal : existing ≤ total := by omega
    have hlength : (refBits s.binaries ref).length = existing := by
      rcases hcopied with rfl | ⟨addr, rfl⟩
      · rw [refBits_of_empty hsize, List.length_nil]
      · obtain ⟨bin, hin, -⟩ := Option.map_eq_some_iff.mp hsize
        exact length_refBits hbinaries (List.getElem?_eq_some_iff.mp hin).1 hsize
    obtain ⟨data, st, hrun, hopened⟩ := run_create
      (fun st data hlast hlen => run_copyExisting hbinaries hlast hsize hcopied hinTotal hlen)
      hlength htotal hpos hle hroom hdst
    refine ⟨_, data, st, ?_, by rw [hbin]; rfl, hopened⟩
    rw [hbin, hfail, bsAppend, run_bind_ok hadditional]
    simp only
    rw [run_bind_ok (run_getBitSize hsize)]
    exact hrun

/-! ## The builder -/

theorem run_bsAppend_empty (hunit : UnitFits debug start.sz start.unit)
    (hin : Appendable s.binaries start.bin 0) (hzero : start.sz * start.unit = 0)
    (hdst : Takes s start.dst) :
    run (bsAppend debug start.hasFail start.sz start.unit start.bin start.dst) s =
        (.ok .next, put s .emptyBinary start.dst) ∧
      termBits s.binaries start.bin = some [] := by
  have hadditional := run_lift_ok (withUnit_of_fits hunit) s
  have hcreate : ∀ bin : Option BinaryRef,
      run (bsAppend.create debug start.hasFail start.dst (start.sz * start.unit) bin 0) s =
        (.ok .next, put s .emptyBinary start.dst) := by
    intro bin
    have hwords : addWords debug 0 0 = .ok 0 := addWords_of_lt (by decide)
    rw [hzero, bsAppend.create, run_bind_ok (run_lift_ok hwords s), if_pos rfl,
      run_bind_ok (run_storeValue .emptyBinary hdst), run_pure]
  rcases hin with ⟨hbin, -⟩ | ⟨ref, hbin, hsize, -⟩
  · refine ⟨?_, by rw [hbin]; rfl⟩
    rw [hbin, bsAppend, run_bind_ok hadditional]
    exact hcreate none
  · refine ⟨?_, by rw [hbin, termBits, refBits_of_empty hsize]⟩
    rw [hbin, bsAppend, run_bind_ok hadditional]
    simp only
    rw [run_bind_ok (run_getBitSize hsize)]
    exact hcreate (some ref)

/-- What is no binary can not be appended to. -/
theorem run_bsAppend_of_none (hunit : UnitFits debug start.sz start.unit)
    (hnone : termBits s.binaries start.bin = none) :
    run (bsAppend debug start.hasFail start.sz start.unit start.bin start.dst) s =
      (if start.hasFail then .ok .jump else .error .badarg, s) := by
  rw [bsAppend, run_bind_ok (run_lift_ok (withUnit_of_fits hunit) s)]
  split
  next hempty =>
    rw [hempty] at hnone
    cases hnone
  next ref href =>
    rw [href] at hnone
    cases hnone
  next => cases start.hasFail <;> rfl

theorem build_constructs (hbinaries : ∀ bin ∈ s.binaries, bin.WellFormed)
    (hguard : BuilderGuard debug s start ops) :
    Constructs s start.dst (builderBits s.binaries start ops)
      (run (build debug word start ops) s) := by
  obtain ⟨hunit, hnone | ⟨hin, hzero, rfl, hdst⟩ |
    ⟨existing, total, hin, htotal, hfail, hdst, hpos, hle, hroom, hplaced⟩⟩ := hguard
  · have happend := run_bsAppend_of_none hunit hnone
    rw [builderBits, hnone, build]
    cases hlabel : start.hasFail with
    | true =>
        rw [hlabel] at happend
        rw [run_bind_ok happend]
        exact ⟨fun _ _ => rfl, rfl⟩
    | false =>
        rw [hlabel] at happend
        rw [run_bind_error happend]
        exact ⟨fun _ _ => rfl, _, rfl, trivial⟩
  · obtain ⟨happend, hbits⟩ := run_bsAppend_empty hunit hin hzero hdst
    rw [builderBits, hbits, build, run_bind_ok happend]
    exact ⟨fun _ _ => by rw [putAll, run_pure, binaries_put], rfl, _, rfl, rfl, rfl⟩
  · obtain ⟨bs, data, st, happend, hbits, hopened⟩ :=
      run_bsAppend hbinaries hunit hfail hin htotal hpos hle hroom hdst
    have hlength : data.length = byteSizeRoundedUp total := by
      rw [hopened.puts.length, length_newData]
    have hexisting : 0 + bs.length = existing := by rw [Nat.zero_add, hopened.length]
    obtain ⟨data', result, st', hputs, hsame, hlast, hfrom⟩ := run_putAll word
      hbinaries hplaced hopened.writes (by omega) hle hlength
      (fun k hk hbehind hlt => by
        rw [hopened.puts.after k (by omega)]
        exact newData_clear hk (by omega))
    rw [builderBits, hbits, build, run_bind_ok happend]
    have hrun : run (putAll debug word ops) st = (.ok result, st') := hputs
    have hothers : ∀ addr < s.binaries.length, st'.binaries[addr]? = s.binaries[addr]? := by
      intro addr haddr
      rw [hlast, List.getElem?_append_left haddr]
    change Constructs s start.dst _ (run (putAll debug word ops) st)
    rw [hrun]
    rcases hfrom with ⟨rfl, more, hmore, hend, hmorePuts⟩ | ⟨rfl, hjump⟩
    · have htake := (hopened.puts.trans (by rwa [hexisting])).take (Nat.zero_le _)
      rw [Nat.zero_add, List.take_zero, List.nil_append, List.length_append, hopened.length,
        hend] at htake
      rw [hmore]
      refine ⟨hothers, rfl, .binary (.procHeap s.binaries.length), ?_, ?_, ?_⟩
      · rw [hsame.1, hopened.x]
      · rw [hsame.2, hopened.stack]
      · rw [hlast, termBits, refBits, getElem?_last, Option.elim_some, htake]
    · rw [hjump]
      exact ⟨hothers, rfl⟩

/-! ## Construction -/

/-- A process with one register, and some room on its heap. -/
def freshProcess (binaries : List ProcessHeapBinary) : BuildProcess where
  x := [.nil]
  stack := []
  binaries := binaries
  heapTop := 0
  stackTop := 64
  live := 0
  memory := fun _ => 0
  currentBin := ⟨none, 0⟩

/-- An integer of some bits, without flags. -/
def integerSegment (value : Int) (size : Nat) : Segment :=
  ⟨.integer, .small 1, 1, .nil, .small value, some size⟩

end Building

end Zeptobeam
